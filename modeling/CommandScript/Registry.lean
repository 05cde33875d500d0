import CommandScript.Procedure

/-!
# Executables and the registry

What a command name stands for: a command built into the interpreter, known by a key, or a
procedure. The type `κ` of keys is left open; what a key does is said where scripts are evaluated.
A registry lists the built-in commands that an interpreter and all its children start with.
-/

namespace CommandScript

inductive Executable (κ : Type) where
  /-- A built-in command. -/
  | native (key : κ) (safe : Bool)
  /-- A command that the application added, with data of its own in the key. -/
  | closure (key : κ) (safe : Bool)
  | procedure (p : Procedure)
  deriving Inhabited

namespace Executable

variable {κ : Type}

/-- Whether a safe interpreter may run the command. The commands in a procedure's body are checked
one by one. -/
def isSafe : Executable κ → Bool
  | native _ safe => safe
  | closure _ safe => safe
  | procedure _ => true

def typeName : Executable κ → String
  | native _ _ => "native"
  | closure _ _ => "closure"
  | procedure _ => "proc"

def procedure? : Executable κ → Option Procedure
  | procedure p => some p
  | _ => none

def isProcedure (e : Executable κ) : Bool := e.procedure?.isSome

end Executable

/-- A built-in command and whether safe interpreters may run it. -/
structure Registration (κ : Type) where
  key : κ
  safe : Bool := true
  deriving Inhabited

abbrev Registry (κ : Type) := Table (Registration κ)

namespace Registry

variable {κ : Type}

/-- Registers a command, in the place of an earlier one of that name. -/
def register (r : Registry κ) (name : String) (key : κ) (safe : Bool) : Registry κ :=
  Table.insert r name { key, safe }

def unregister (r : Registry κ) (name : String) : Registry κ := Table.erase r name

def lookup (r : Registry κ) (name : String) : Option (Executable κ) :=
  (Table.get? r name).map fun entry => .native entry.key entry.safe

/-- The commands that an interpreter starts with. -/
def commands (r : Registry κ) : Table (Executable κ) :=
  r.map fun (name, entry) => (name, .native entry.key entry.safe)

end Registry

end CommandScript
