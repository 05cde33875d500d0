import CommandScript.Standard.Builtin

/-!
# The shell

Running a script file with its arguments, and the prompt loop. Both end with a status for the
process: that of `exit`, 1 after an error in a script, and 0 otherwise.
-/

namespace CommandScript.Shell

variable {κ : Type}

def print (text : String) : Act κ Unit := modify fun s => { s with world := s.world.write text }

def complain (text : String) : Act κ Unit :=
  modify fun s => { s with world := s.world.writeError (text ++ "\n") }

/-- The status that an exception asks for, if it is an exit. -/
def exitStatus? (e : Exception) : Option Int :=
  match e.code with
  | .exited status => some status
  | _ => none

/-! ## Scripts -/

/-- Tells the script its name and its arguments. -/
def setArguments (name : String) (args : List String) : Act κ Unit := do
  Act.setVariable "arg0" (.string name)
  Act.setVariable "argv" (.list (args.map .string))

/-- Runs the text of a script. -/
def runText (engine : Engine κ) (name : String) (args : List String) (text : String) :
    Act κ Int := do
  match ← Action.attempt (setArguments name args) with
  | .raised e =>
    complain e.value.text
    return 1
  | .value _ =>
    match ← Action.attempt (engine.eval (.string text)) with
    | .value _ => return 0
    | .raised e =>
      match exitStatus? e with
      | some status => return status
      | none =>
        complain e.value.text
        return 1

/-- Runs a script file; the first argument names it. -/
def script (engine : Engine κ) : List String → Act κ Int
  | [] => do
    complain "no script file given"
    return 1
  | name :: args => do
    match (← get).world.readText name with
    | .ok text => runText engine name args text
    | .error reason =>
      complain s!"couldn't read file \"{name}\": {reason.message}"
      return 1

/-! ## The prompt loop -/

/-- The prompt that the script in a variable makes, or `usual` if there is none or it fails. -/
def prompt (engine : Engine κ) (name usual : String) : Act κ String := do
  match (← Act.env).read name with
  | .error _ => return usual
  | .ok v =>
    match ← Action.attempt (engine.eval v) with
    | .value shown => return shown.text
    | .raised e =>
      print (e.value.text ++ "\n")
      return usual

/-- Takes a line of the input, without its end; nothing at the end of the input. -/
def readLine : Act κ (Option String) := do
  let (line, world) := (← get).world.takeLine
  modify fun s => { s with world }
  return if line.isEmpty then none else some (String.ofList (chompLine line))

/-- Runs a command that was typed. Gives a status if it is time to end. -/
def runTyped (engine : Engine κ) (command : String) : Act κ (Option Int) := do
  match ← Action.attempt (engine.eval (.string command)) with
  | .value v =>
    if !v.text.isEmpty then print (v.text ++ "\n")
    return none
  | .raised e =>
    match exitStatus? e with
    | some status => return some status
    | none =>
      print (e.value.text ++ "\n")
      return none

/-- The prompt for a line; `pending` are the lines of the command begun so far. -/
def linePrompt (engine : Engine κ) (pending : String) : Act κ String :=
  if pending.isEmpty then prompt engine "tcl_prompt1" "% " else prompt engine "tcl_prompt2" "> "

/-- The lines of the command begun so far, with one more. -/
def withLine (pending line : String) : String :=
  if pending.isEmpty then line else pending ++ "\n" ++ line

/-- The command in complete lines, if there is any. -/
def command? (lines : String) : Option String :=
  let command := Text.trim lines
  if command.isEmpty then none else some command

/-- Takes in a line that was typed, and runs the command if it is complete. Gives the lines of a
command that is not complete yet, or a status if it is time to end. -/
def takeIn (engine : Engine κ) (pending line : String) : Act κ (String ⊕ Int) := do
  let pending := withLine pending line
  if !isComplete pending then return .inl pending
  match command? pending with
  | none => return .inl ""
  | some command =>
    match ← runTyped engine command with
    | some status => return .inr status
    | none => return .inl ""

/-- Reads and runs commands. Every round takes a character of the input at least, or ends. -/
def replFrom (engine : Engine κ) (showPrompts : Bool) :
    (fuel : Nat) → (pending : String) → Act κ Int
  | 0, _ => Action.halt .outOfFuel
  | fuel + 1, pending => do
    let shown ← linePrompt engine pending
    if showPrompts then print shown
    match ← readLine with
    | none => return 0
    | some line =>
      match ← takeIn engine pending line with
      | .inl pending => replFrom engine showPrompts fuel pending
      | .inr status => return status

def repl (engine : Engine κ) (showPrompts : Bool) : Act κ Int := do
  replFrom engine showPrompts ((← get).world.input.length + 1) ""

/-! ## The command line -/

/-- Loads the variables of the system into the array `env`. -/
def loadVariables (vars : List (String × String)) : Act κ Unit := do
  let items := vars.flatMap fun (name, text) => [Value.string name, Value.string text]
  match ← Action.attempt (Act.editAll (·.setArray "env" items)) with
  | .value _ => pure ()
  | .raised e => complain e.value.text

/-- The status as the system keeps it, which is a byte. -/
def processStatus (status : Int) : Nat := (status % 256).toNat

/-- Runs a script if arguments are given, else the prompt loop. -/
def commandLine (engine : Engine κ) (vars : List (String × String)) (args : List String)
    (showPrompts : Bool) : Act κ Nat := do
  modify fun s => { s with world := { s.world with environment := vars } }
  loadVariables vars
  let status ← if args.isEmpty then repl engine showPrompts else script engine args
  return processStatus status

end CommandScript.Shell
