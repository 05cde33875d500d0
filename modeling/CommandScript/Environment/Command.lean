import CommandScript.Environment.Basic

/-!
# Commands by name

A plain command name is looked up in the current namespace and then in the root; a qualified one in
the namespace it names. New commands go where the name says, which is the current namespace for a
plain name.
-/

namespace CommandScript

/-- Why a command cannot be defined, renamed or described. -/
inductive DefinitionFault where
  | parameters (fault : ParameterFault)
  | noHome (procedure : String)
  | unknownNamespace (path : String)
  | noCommandToRename (name : String)
  | nameTaken (name : String)
  | notCommand (name : String)
  | notProcedure (name : String)
  | noParameter (procedure parameter : String)
  deriving DecidableEq, Repr

instance : Fault DefinitionFault where
  kind
    | .parameters fault => Fault.kind fault
    | _ => .generic
  message
    | .parameters fault => Fault.message fault
    | .noHome procedure => s!"can't create procedure \"{procedure}\": unknown namespace"
    | .unknownNamespace path => s!"unknown namespace \"{path}\""
    | .noCommandToRename name => s!"can't rename \"{name}\": command doesn't exist"
    | .nameTaken name => s!"can't rename to \"{name}\": command already exists"
    | .notCommand name => s!"\"{name}\" isn't a command"
    | .notProcedure name => s!"\"{name}\" isn't a procedure"
    | .noParameter procedure parameter =>
      s!"procedure \"{procedure}\" doesn't have an argument \"{parameter}\""

namespace Environment

variable {κ : Type}

def commandsOf (env : Environment κ) (id : NamespaceId) : Table (Executable κ) :=
  (env.namespaces.node id).commands

def modifyCommands (env : Environment κ) (id : NamespaceId)
    (f : Table (Executable κ) → Table (Executable κ)) : Environment κ :=
  { env with namespaces := env.namespaces.update id fun n => { n with commands := f n.commands } }

/-! ## Finding -/

/-- The namespace a command name leads to, and its name there, whether the command exists or
not. -/
def commandPlace? (env : Environment κ) (name : String) : Option (NamespaceId × String) :=
  match Name.splitQualified name with
  | (some qualifiers, tail) =>
    if qualifiers.isEmpty then some (NamespaceTree.root, tail)
    else (env.namespaces.find env.current qualifiers).map (·, tail)
  | (none, tail) =>
    if (env.commandsOf env.current).contains tail then some (env.current, tail)
    else some (NamespaceTree.root, tail)

/-- The entry a command name means. -/
def commandEntry? (env : Environment κ) (name : String) : Option (NamespaceId × String) :=
  (env.commandPlace? name).filter fun (id, tail) => (env.commandsOf id).contains tail

/-- What a command name means. -/
def command? (env : Environment κ) (name : String) : Option (Executable κ) :=
  (env.commandPlace? name).bind fun (id, tail) => (env.commandsOf id).get? tail

def hasCommand (env : Environment κ) (name : String) : Bool := (env.command? name).isSome

/-! ## Defining -/

/-- The place for a new command; its namespace has to exist. -/
def commandHome (env : Environment κ) (name : String) :
    Except DefinitionFault (NamespaceId × String) :=
  match Name.splitQualified name with
  | (some qualifiers, tail) =>
    if qualifiers.isEmpty then .ok (NamespaceTree.root, tail)
    else
      match env.namespaces.find env.current qualifiers with
      | some id => .ok (id, tail)
      | none => .error (.unknownNamespace qualifiers)
  | (none, tail) => .ok (env.current, tail)

/-- Adds a command, creating the namespaces in its name. -/
def install (env : Environment κ) (name : String) (command : Executable κ) : Environment κ :=
  let (id, tail, namespaces) : NamespaceId × String × NamespaceTree κ :=
    match Name.splitQualified name with
    | (some qualifiers, tail) =>
      if qualifiers.isEmpty then (NamespaceTree.root, tail, env.namespaces)
      else
        let (id, namespaces) := env.namespaces.ensure env.current qualifiers
        (id, tail, namespaces)
    | (none, tail) => (env.current, tail, env.namespaces)
  { env with namespaces }.modifyCommands id fun commands => commands.insert tail command

/-- Defines a procedure, which belongs to the namespace it is defined in. -/
def defineProcedure (env : Environment κ) (name : String) (parameters body : Value) :
    Except DefinitionFault (Environment κ) :=
  match env.commandHome name with
  | .error _ => .error (.noHome name)
  | .ok (id, tail) =>
    match Procedure.parse name parameters body id with
    | .error fault => .error (.parameters fault)
    | .ok p => .ok (env.modifyCommands id fun commands => commands.insert tail (.procedure p))

/-- Renames a command; an empty new name removes it. -/
def rename (env : Environment κ) (old new : String) : Except DefinitionFault (Environment κ) :=
  match env.commandEntry? old with
  | none => .error (.noCommandToRename old)
  | some (id, tail) => do
    let removed := env.modifyCommands id fun commands => commands.erase tail
    if new.isEmpty then return removed
    let (newId, newTail) ← env.commandHome new
    if (env.commandsOf newId).contains newTail then .error (.nameTaken new)
    else
      match (env.commandsOf id).get? tail with
      | some command =>
        return removed.modifyCommands newId fun commands => commands.insert newTail command
      | none => return env

/-- Removes a command, if there is one of that name. -/
def remove (env : Environment κ) (name : String) : Environment κ :=
  match env.commandEntry? name with
  | some (id, tail) => env.modifyCommands id fun commands => commands.erase tail
  | none => env

/-! ## Describing -/

/-- The commands of the current namespace, then those of the root that they do not hide. -/
def visibleCommands (env : Environment κ) : Table (Executable κ) :=
  let own := env.commandsOf env.current
  if env.current = NamespaceTree.root then own
  else own ++ (env.commandsOf NamespaceTree.root).filter fun (name, _) => !own.contains name

def commandNames (env : Environment κ) : List String := env.visibleCommands.names

def procedureNames (env : Environment κ) : List String :=
  Table.names (env.visibleCommands.filter fun (_, command) => command.isProcedure)

def commandType (env : Environment κ) (name : String) : Except DefinitionFault String :=
  match env.command? name with
  | some command => .ok command.typeName
  | none => .error (.notCommand name)

def procedureNamed (env : Environment κ) (name : String) : Except DefinitionFault Procedure :=
  match (env.command? name).bind Executable.procedure? with
  | some p => .ok p
  | none => .error (.notProcedure name)

def procedureBody (env : Environment κ) (name : String) : Except DefinitionFault Value := do
  return (← env.procedureNamed name).body

def procedureParameters (env : Environment κ) (name : String) :
    Except DefinitionFault (List String) := do
  return (← env.procedureNamed name).parameters.map (·.name)

/-- The default of a parameter, if it has one. -/
def parameterDefault (env : Environment κ) (name parameter : String) :
    Except DefinitionFault (Option Value) := do
  let p ← env.procedureNamed name
  match p.parameters.find? (·.name == parameter) with
  | some found => return found.default
  | none => .error (.noParameter name parameter)

end Environment

end CommandScript
