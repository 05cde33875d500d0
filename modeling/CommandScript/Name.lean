import CommandScript.Fault
import CommandScript.Text.Find

/-!
# Names

A variable name may carry an index, `array(index)`, and a name of a variable or a command may be
qualified with namespaces, `outer::inner::tail`. A level is given as `#n`, counted from the bottom
of the stack, or as `n`, counted from the current frame.
-/

namespace CommandScript.Name

/-- Splits a variable name into the name proper and the index, if it has one: from the first
opening parenthesis, unless that comes first, to a closing one at the end. -/
def splitIndex (name : String) : String × Option String :=
  let cs := name.toList
  let base := cs.takeWhile (· != '(')
  match base, cs.dropWhile (· != '(') with
  | _ :: _, _ :: after =>
    if after.getLast? = some ')' then (String.ofList base, some (String.ofList after.dropLast))
    else (name, none)
  | _, _ => (name, none)

/-- The name of an element of an array. -/
def element (array index : String) : String := array ++ "(" ++ index ++ ")"

/-- Splits a name at its last double colon: the qualifiers, without the colons that end them, and
the tail. -/
def splitQualified (name : String) : Option String × String :=
  match Text.splitAtLast "::".toList name.toList with
  | some (before, after) =>
    (some (String.ofList (Text.trimEnd (· == ':') before)), String.ofList after)
  | none => (none, name)

/-- The components of a path of namespaces; empty ones do not count. -/
def components (path : String) : List String :=
  (Text.splitOn "::".toList path.toList).filterMap fun part =>
    if part.isEmpty then none else some (String.ofList part)

/-- The rest of a path that starts at the root. -/
def absolute? (path : String) : Option String :=
  match path.toList with
  | ':' :: ':' :: rest => some (String.ofList rest)
  | _ => none

/-! ## Levels -/

/-- A level that does not exist. -/
structure BadLevel where
  text : String
  deriving DecidableEq, Repr

instance : Fault BadLevel where
  kind _ := .linkScope
  message f := s!"bad level \"{f.text}\""

/-- Reads a natural number that fits in 64 bits; a plus sign may stand before it. -/
def parseNat? (cs : List Char) : Option Nat :=
  let digits := match cs with
    | '+' :: r => r
    | r => r
  if digits.isEmpty || !digits.all Char.isDigit then none
  else
    let n := digits.foldl (fun n c => n * 10 + (c.toNat - '0'.toNat)) 0
    if n < UInt64.size then some n else none

/-- The depth that a level denotes when the current depth is `current`. -/
def parseLevel (spec : String) (current : Nat) : Except BadLevel Nat :=
  match spec.toList with
  | '#' :: digits =>
    match parseNat? digits with
    | some level => if level ≤ current then .ok level else .error ⟨spec⟩
    | none => .error ⟨spec⟩
  | digits =>
    match parseNat? digits with
    | some up => if up ≤ current then .ok (current - up) else .error ⟨spec⟩
    | none => .error ⟨spec⟩

/-- Whether a word looks like a level. -/
def isLevel (spec : String) : Bool :=
  let digits := match spec.toList with
    | '#' :: r => r
    | r => r
  !digits.isEmpty && digits.all Char.isDigit

end CommandScript.Name
