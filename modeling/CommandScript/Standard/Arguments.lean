import CommandScript.Interp.Eval

/-!
# Arguments and subcommands

Checks that a command has as many words as it wants, the choice of a subcommand by name, and the
reading of arguments that many commands share.
-/

namespace CommandScript

/-- A command called with too few or too many words. -/
structure WrongArguments where
  /-- The words that make up the command's name. -/
  name : List String
  usage : String
  deriving DecidableEq, Repr

instance : Fault WrongArguments where
  kind _ := .argumentCount
  message f :=
    let usage := if f.usage.isEmpty then "" else " " ++ f.usage
    "wrong # args: should be \"" ++ " ".intercalate f.name ++ usage ++ "\""

def WrongArguments.ofWords (nameWords : Nat) (argv : List Value) (usage : String) :
    WrongArguments :=
  ⟨(argv.take nameWords).map Value.text, usage⟩

/-- Checks that there are at least `least` words and, unless that is open, at most `most`. The
first `nameWords` of them name the command. -/
def checkArguments (nameWords : Nat) (argv : List Value) (least : Nat) (most : Option Nat)
    (usage : String) : Except WrongArguments Unit :=
  if argv.length < least || most.any (· < argv.length) then
    .error (.ofWords nameWords argv usage)
  else .ok ()

/-- Complains about the arguments of a command named by its first word. -/
def wrongArguments {κ α : Type} (argv : List Value) (usage : String) : Act κ α :=
  Action.fail (WrongArguments.ofWords 1 argv usage)

/-- Complains about the arguments of a subcommand. -/
def wrongSubArguments {κ α : Type} (argv : List Value) (usage : String) : Act κ α :=
  Action.fail (WrongArguments.ofWords 2 argv usage)

/-! ## Subcommands -/

/-- A subcommand that does not exist. -/
structure UnknownSubcommand where
  name : String
  known : List String
  deriving DecidableEq, Repr

/-- Alternatives as a sentence puts them. -/
def alternatives : List String → String
  | [] => ""
  | [a] => a
  | [a, b] => a ++ " or " ++ b
  | names => ", ".intercalate names.dropLast ++ ", or " ++ names.getLastD ""

instance : Fault UnknownSubcommand where
  kind _ := .generic
  message f :=
    s!"unknown or ambiguous subcommand \"{f.name}\": must be " ++ alternatives f.known

/-- Finds a subcommand by its exact name. -/
def findSubcommand {α : Type} (table : Table α) (name : String) : Except UnknownSubcommand α :=
  match table.get? name with
  | some a => .ok a
  | none => .error ⟨name, table.names⟩

/-- A command that is a table of subcommands, chosen by its second word. -/
def ensemble {κ : Type} (table : Table (Native κ)) : Native κ := fun engine argv => do
  match argv with
  | _ :: name :: _ =>
    let subcommand ← Action.ofExcept (findSubcommand table name.text)
    subcommand engine argv
  | _ => wrongArguments argv "subcommand ?arg ...?"

/-! ## Scripts in several words -/

/-- Joins texts with single spaces, each trimmed and empty ones left out. -/
def concatenate (vs : List Value) : String :=
  " ".intercalate ((vs.map fun v => Text.trim v.text).filter fun s => !s.isEmpty)

/-- The script that arguments make: one as it is, several joined. -/
def scriptOf : List Value → Value
  | [script] => script
  | args => .string (concatenate args)

/-! ## Indices -/

structure BadIndex where
  text : String
  deriving DecidableEq, Repr

instance : Fault BadIndex where
  kind _ := .generic
  message f :=
    s!"bad index \"{f.text}\": must be integer?[+-]integer? or end?[+-]integer?"

/-- The result of arithmetic in 64 bits, which breaks down where it does not fit. -/
def Action.checked {σ : Type} (n : Int) : Action σ Int :=
  if Integer.fits n then pure n else halt .overflow

/-- Reads an index into a row of some length: an integer, or `end` with an integer added or taken
away. It may lie outside the row. What follows `end` is split after its first octet, so this breaks
down on a character that has more. -/
def parseIndex {σ : Type} (index : Value) (length : Nat) : Action σ Int :=
  let last : Int := length - 1
  let bad : Action σ Int := Action.fail (BadIndex.mk index.text)
  match index.text.toList with
  | ['e', 'n', 'd'] => pure last
  | 'e' :: 'n' :: 'd' :: sign :: digits =>
    if sign.utf8Size ≠ 1 then Action.halt .splitCharacter
    else
      match sign, Integer.decimal? digits with
      | '-', some n => Action.checked (last - n)
      | '+', some n => Action.checked (last + n)
      | _, _ => bad
  | _ =>
    match index.toInt with
    | .ok n => pure n.toInt
    | .error _ => bad

end CommandScript
