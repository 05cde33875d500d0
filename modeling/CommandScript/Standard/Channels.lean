import CommandScript.Standard.Arguments

/-!
# Commands on channels, files and programs
-/

namespace CommandScript.Standard

variable {κ : Type}

/-! ## Channels -/

def putsTo (channel : String) (v : Value) (newline : Bool) : Act κ Value := do
  Act.channels (Channels.print channel (if newline then v.text ++ "\n" else v.text))
  return {}

def puts : Native κ := fun _ argv =>
  match argv with
  | [_, v] => putsTo "stdout" v true
  | [_, first, v] =>
    if first.text = "-nonewline" then putsTo "stdout" v false else putsTo first.text v true
  | [_, first, channel, v] =>
    if first.text = "-nonewline" then putsTo channel.text v false
    else wrongArguments argv "?-nonewline? ?channelId? string"
  | _ => wrongArguments argv "?-nonewline? ?channelId? string"

def gets : Native κ := fun _ argv => do
  match argv with
  | [_, channel] =>
    let line ← Act.channels (Channels.gets channel.text)
    return .string (line.getD "")
  | [_, channel, name] =>
    let line ← Act.channels (Channels.gets channel.text)
    Act.setVariable name.text (.string (line.getD ""))
    return .ofInt (line.elim (-1) fun s => s.length)
  | _ => wrongArguments argv "channelId ?varName?"

/-- A text without a newline at its end. -/
def dropNewline (s : String) : String :=
  if s.endsWith "\n" then (s.dropEnd 1).toString else s

def read : Native κ := fun _ argv => do
  match argv with
  | [_, channel] => return .string (← Act.channels (Channels.readAll channel.text))
  | [_, option, channel] =>
    if option.text = "-nonewline" then
      return .string (dropNewline (← Act.channels (Channels.readAll channel.text)))
    else wrongArguments argv "?-nonewline? channelId"
  | _ => wrongArguments argv "?-nonewline? channelId"

def eof : Native κ := fun _ argv => do
  match argv with
  | [_, channel] => return .boolean (← Act.channels (Channels.eof channel.text))
  | _ => wrongArguments argv "channelId"

def seekFrom (channel offset : Value) (origin : String) : Act κ Value := do
  let n ← Action.ofExcept offset.toInt
  Act.channels (Channels.seek channel.text n.toInt origin)
  return {}

def seek : Native κ := fun _ argv =>
  match argv with
  | [_, channel, offset] => seekFrom channel offset "start"
  | [_, channel, offset, origin] => seekFrom channel offset origin.text
  | _ => wrongArguments argv "channelId offset ?origin?"

def tell : Native κ := fun _ argv => do
  match argv with
  | [_, channel] => return .ofInt (← Act.channels (Channels.tell channel.text))
  | _ => wrongArguments argv "channelId"

def flush : Native κ := fun _ argv => do
  match argv with
  | [_, channel] =>
    Act.channels (Channels.flush channel.text)
    return {}
  | _ => wrongArguments argv "channelId"

def openCommand : Native κ := fun _ argv => do
  match argv with
  | [_, path] => return .string (← Act.channels (Channels.openFile path.text "r"))
  | [_, path, mode] => return .string (← Act.channels (Channels.openFile path.text mode.text))
  | _ => wrongArguments argv "fileName ?access?"

def close : Native κ := fun _ argv => do
  match argv with
  | [_, channel] =>
    Act.channels (Channels.close channel.text)
    return {}
  | _ => wrongArguments argv "channelId"

/-! ## Programs and files of commands -/

inductive HostFault where
  | notStarted (program : String) (reason : SystemError)
  | failed (message : String)
  | notRead (path : String) (reason : SystemError)
  deriving DecidableEq, Repr

instance : Fault HostFault where
  kind _ := .generic
  message
    | .notStarted program reason => s!"couldn't execute \"{program}\": {reason.message}"
    | .failed message => message
    | .notRead path reason => s!"couldn't read file \"{path}\": {reason.message}"

def decodeOutput (bytes : ByteArray) : String := dropNewline (Text.decodeLossy bytes)

/-- Runs a program: its output, or an error with what it complained of. -/
def exec : Native κ := fun engine argv => do
  match argv with
  | _ :: program :: args =>
    match (← get).world.execute engine.fuel program.text (args.map Value.text) with
    | .error reason => Action.fail (HostFault.notStarted program.text reason)
    | .ok none => Action.halt .outOfFuel
    | .ok (some ran) =>
      modify fun s => { s with world := { s.world with files := ran.files } }
      if ran.ending.isSuccess then return .string (decodeOutput ran.output)
      let message := decodeOutput ran.errors
      Action.fail (HostFault.failed (if message.isEmpty then
        s!"child process exited abnormally ({ran.ending.describe})" else message))
  | _ => wrongArguments argv "program ?arg ...?"

/-- Evaluates the text of a file. A `return` in it ends the file. -/
def source : Native κ := fun engine argv => do
  match argv with
  | [_, path] =>
    match (← get).world.readText path.text with
    | .error reason => Action.fail (HostFault.notRead path.text reason)
    | .ok script =>
      match ← Action.attempt (engine.eval (.string script)) with
      | .value v => return v
      | .raised e =>
        Action.checkBoundary (.raised e)
        match e.passBoundary with
        | .plain .okay v => return v
        | e => Action.raise e
  | _ => wrongArguments argv "fileName"

end CommandScript.Standard
