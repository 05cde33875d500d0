/-!
# Faults

A fault is a reason for which the interpreter itself refuses to go on. Each part of the language
has its own type of faults; the class `Fault` says what kind of error a fault is and how it reads.
-/

namespace CommandScript

inductive ErrorKind where
  /-- Text that is not a script, a list or an expression. -/
  | parsing
  | undefinedVariable
  | undefinedCommand
  | typeMismatch
  /-- A value that has no representation of the wanted type. -/
  | cast
  | divisionByZero
  | unsupportedOperation
  | argumentCount
  /-- A command that a safe interpreter may not run. -/
  | forbiddenCommand
  /-- A level that cannot be linked to or reached. -/
  | linkScope
  | generic
  deriving DecidableEq, Repr, Inhabited

/-- What the variable `errorCode` shows for errors of a kind. -/
def ErrorKind.code : ErrorKind → String
  | parsing => "TCL PARSE"
  | undefinedVariable => "TCL LOOKUP VARNAME"
  | undefinedCommand => "TCL LOOKUP COMMAND"
  | typeMismatch => "TCL VALUE TYPE"
  | cast => "TCL VALUE CAST"
  | divisionByZero => "ARITH DIVZERO \x7bdivide by zero\x7d"
  | unsupportedOperation => "ARITH UNSUPPORTED"
  | argumentCount => "TCL WRONGARGS"
  | forbiddenCommand => "TCL SAFE UNSAFE"
  | linkScope => "TCL LOOKUP LEVEL"
  | generic => "NONE"

class Fault (ε : Type) where
  kind : ε → ErrorKind
  message : ε → String

end CommandScript
