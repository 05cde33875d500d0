/-!
# Commands of the system's shell

The shell reads a text into commands. A command's words are kept as they were spelled, part by
part, because what a part stands for is known only when the command runs.
-/

namespace CommandScript.SystemShell

/-- What becomes of a parameter's value. -/
inductive Usage where
  | value
  | length
  /-- Another word if the parameter is not set. -/
  | orWord
  /-- The same, and the parameter gets the word's value. -/
  | orAssign
  /-- A complaint if the parameter is not set. -/
  | orFail
  /-- Another word if the parameter is set. -/
  | ifSet
  | dropFront (longest : Bool)
  | dropBack (longest : Bool)
  | malformed
  deriving DecidableEq, Repr, Inhabited

/-- How a file is opened for a redirection. -/
inductive FileUse where
  | read | write | append | readWrite
  /-- Written even if files are protected. -/
  | clobber
  deriving DecidableEq, Repr, Inhabited

mutual

/-- A part of a word. -/
inductive Part where
  /-- Characters without quotes. -/
  | text (s : String)
  /-- Characters that a backslash or single quotes protect. -/
  | literal (s : String)
  /-- What stands in double quotes. -/
  | quoted (parts : List Part)
  /-- A parameter; `nullCounts` says that an empty value counts as none. -/
  | parameter (name : String) (usage : Usage) (nullCounts : Bool) (word : List Part)
  /-- What a command writes. -/
  | output (body : Option Command)
  /-- The value of an expression. -/
  | arithmetic (parts : List Part)

inductive Redirect where
  | file (descriptor : Nat) (use : FileUse) (name : List Part)
  /-- The descriptor becomes a copy of another, or is closed. -/
  | copy (descriptor : Nat) (source : List Part)
  /-- The descriptor gives the text of a document, by its number. -/
  | document (descriptor : Nat) (number : Nat)

inductive Command where
  | simple (line : Nat) (assignments : List (String × List Part)) (words : List (List Part))
      (redirects : List Redirect)
  | pipeline (commands : List Command)
  | negation (command : Command)
  | conjunction (first second : Command)
  | disjunction (first second : Command)
  | sequence (first second : Command)
  | background (line : Nat) (command : Command)
  | subshell (line : Nat) (body : Option Command) (redirects : List Redirect)
  /-- A compound command with redirections. -/
  | redirected (line : Nat) (body : Option Command) (redirects : List Redirect)
  | branch (test : Option Command) (yes no : Option Command)
  /-- Repeats the body as long as the test succeeds, or as long as it fails. -/
  | loop (untilSuccess : Bool) (test body : Option Command)
  | each (line : Nat) (variableName : String) (words : List (List Part)) (body : Option Command)
  | choice (line : Nat) (word : List Part) (cases : List (List (List Part) × Option Command))
  | define (name : String) (line : Nat) (body : Command)

end

instance : Inhabited Part := ⟨.text ""⟩

instance : Inhabited Redirect := ⟨.document 0 0⟩

instance : Inhabited Command := ⟨.simple 0 [] [] []⟩

/-- A word of a command. -/
abbrev Spelling := List Part

/-! ## Names -/

def isNameStart (c : Char) : Bool := c.isAlpha || c == '_'

def isNameChar (c : Char) : Bool := c.isAlphanum || c == '_'

/-- Whether a text is the name of a variable. -/
def isName (cs : List Char) : Bool := cs.head?.any isNameStart && cs.all isNameChar

/-- Parameters with a name of one character. -/
def isSpecial (c : Char) : Bool :=
  c == '@' || c == '*' || c == '#' || c == '?' || c == '-' || c == '$' || c == '!' || c.isDigit

/-- The special commands of the shell, whose names no function may have. -/
def specialNames : List String :=
  [".", ":", "break", "continue", "eval", "exec", "exit", "export", "local", "readonly", "return",
    "set", "shift", "times", "trap", "unset"]

/-- The other commands of the shell itself. -/
def regularNames : List String :=
  ["[", "alias", "bg", "cd", "chdir", "command", "echo", "false", "fg", "getopts", "hash", "jobs",
    "kill", "printf", "pwd", "read", "test", "true", "type", "ulimit", "umask", "unalias", "wait"]

namespace Spelling

/-- The text of a word that has no quotes and nothing to expand. -/
def plain? : Spelling → Option String
  | [] => some ""
  | [.text s] => some s
  | _ => none

/-- Splits an assignment: a name, an equals sign and the value's word. -/
def assignment? : Spelling → Option (String × Spelling)
  | .text s :: rest =>
    let name := s.toList.takeWhile isNameChar
    match s.toList.drop name.length with
    | '=' :: value =>
      if isName name then
        let front := if value.isEmpty then [] else [.text (String.ofList value)]
        some (String.ofList name, front ++ rest)
      else none
    | _ => none
  | _ => none

/-- Puts a part at the end of a word whose parts are listed last first; plain text is joined. -/
def push (parts : Spelling) (p : Part) : Spelling :=
  match parts, p with
  | .text s :: rest, .text t => .text (s ++ t) :: rest
  | parts, p => p :: parts

end Spelling

end CommandScript.SystemShell
