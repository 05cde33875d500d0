import CommandScript.Text.Find
import CommandScript.Value.Convert

/-!
# Paths of child interpreters

A path is written as a list of names, or as one word with `::` or `.` between the names. The empty
path is the interpreter itself.
-/

namespace CommandScript

abbrev ChildPath := List String

namespace ChildPath

/-- The names in one word. -/
def split (text : String) : ChildPath :=
  (Text.splitOn "::".toList text.toList).flatMap fun part =>
    (Text.splitOn ['.'] part).filterMap fun name =>
      if name.isEmpty then none else some (String.ofList name)

def ofValue (v : Value) : Except CastFault ChildPath := do
  let items ← v.toList
  return if items.length > 1 then items.map Value.text else split v.text

end ChildPath

end CommandScript
