import CommandScript.Value.Convert

/-!
# Procedures

A procedure has parameters and a body, and belongs to the namespace it was defined in. It does not
know its own name: that is the command table's, and can be changed.

* `Procedure.parse` reads a list of parameters: each is a name, or a name and a default.
* `Procedure.bind` matches the arguments of a call with the parameters. A last parameter called
  `args` takes all the arguments that are left.
-/

namespace CommandScript

abbrev NamespaceId := Nat

structure Parameter where
  name : String
  default : Option Value := none
  deriving Inhabited

structure Procedure where
  parameters : List Parameter
  body : Value
  /-- The namespace in which the body runs. -/
  namespaceId : NamespaceId
  deriving Inhabited

/-- Why a list of parameters is refused. -/
inductive ParameterFault where
  | notList (fault : CastFault)
  | unnamed (procedure : String)
  | tooManyFields (parameter : String)
  deriving DecidableEq, Repr

instance : Fault ParameterFault where
  kind
    | .notList fault => Fault.kind fault
    | _ => .generic
  message
    | .notList fault => Fault.message fault
    | .unnamed procedure => s!"argument with no name in procedure \"{procedure}\""
    | .tooManyFields parameter => s!"too many fields in argument specifier \"{parameter}\""

/-- A call with too few or too many arguments. -/
structure WrongCall where
  name : String
  /-- The parameters as they are shown. -/
  parameters : List String
  deriving DecidableEq, Repr

instance : Fault WrongCall where
  kind _ := .argumentCount
  message f :=
    "wrong # args: should be \"" ++ " ".intercalate (f.name :: f.parameters) ++ "\""

namespace Parameter

def parse (procedure : String) (spec : Value) : Except ParameterFault Parameter :=
  match spec.toList with
  | .error fault => .error (.notList fault)
  | .ok [] => .error (.unnamed procedure)
  | .ok [name] => .ok { name := name.text }
  | .ok [name, default] => .ok { name := name.text, default := some default }
  | .ok fields => .error (.tooManyFields (Value.list fields).text)

end Parameter

namespace Procedure

/-- Reads the parameters of a procedure called `name`. -/
def parse (name : String) (parameters body : Value) (namespaceId : NamespaceId) :
    Except ParameterFault Procedure :=
  match parameters.toList with
  | .error fault => .error (.notList fault)
  | .ok specs => do
    let parameters ← specs.mapM (Parameter.parse name)
    return { parameters, body, namespaceId }

/-- Binds arguments to parameters, adding to the variables bound before. -/
def bindInto (locals : Table Value) : List Parameter → List Value → Option (Table Value)
  | [], [] => some locals
  | [], _ :: _ => none
  | p :: rest, args =>
    if rest.isEmpty && p.name == "args" then some (locals.insert "args" (.list args))
    else
      match args, p.default with
      | v :: args, _ => bindInto (locals.insert p.name v) rest args
      | [], some v => bindInto (locals.insert p.name v) rest []
      | [], none => none

/-- The parameters as a complaint shows them. -/
def usage : List Parameter → List String
  | [] => []
  | p :: rest =>
    let shown :=
      if rest.isEmpty && p.name == "args" then "?arg ...?"
      else if p.default.isSome then "?" ++ p.name ++ "?"
      else p.name
    shown :: usage rest

/-- The variables of a call; the first word is the name that was called. -/
def bind (p : Procedure) (name : String) (args : List Value) : Except WrongCall (Table Value) :=
  match bindInto [] p.parameters args with
  | some locals => .ok locals
  | none => .error ⟨name, usage p.parameters⟩

end Procedure

end CommandScript
