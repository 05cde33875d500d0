import CommandScript.Action
import CommandScript.World.File

/-!
# Channels

The channels of an interpreter by name: the standard streams and the files it opened, which are
called `file1`, `file2` and so on.
-/

namespace CommandScript

inductive Channel where
  | standardInput (atEnd : Bool)
  | standardOutput
  | standardError
  | file (f : OpenFile)
  deriving Inhabited

inductive ChannelFault where
  | illegalMode (mode : String)
  | notOpened (path : String) (reason : SystemError)
  | unknown (name : String)
  | notReadable (name : String)
  | notWritable (name : String)
  | reading (name : String) (reason : SystemError)
  | seeking (name : String) (reason : SystemError)
  | notSeekable (name : String)
  | badOffset (offset : Int)
  | badOrigin (origin : String)
  deriving DecidableEq, Repr

instance : Fault ChannelFault where
  kind _ := .generic
  message
    | .illegalMode mode => s!"illegal access mode \"{mode}\": must be r, r+, w, w+, a, or a+"
    | .notOpened path reason => s!"couldn't open \"{path}\": {reason.message}"
    | .unknown name => s!"can not find channel named \"{name}\""
    | .notReadable name => s!"channel \"{name}\" wasn't opened for reading"
    | .notWritable name => s!"channel \"{name}\" wasn't opened for writing"
    | .reading name reason => s!"error reading \"{name}\": {reason.message}"
    | .seeking name reason => s!"error during seek on \"{name}\": {reason.message}"
    | .notSeekable name => s!"error during seek on \"{name}\": invalid argument"
    | .badOffset offset => s!"bad offset \"{offset}\""
    | .badOrigin origin => s!"bad origin \"{origin}\": must be start, current, or end"

def AccessMode.parse (mode : String) : Except ChannelFault AccessMode :=
  (AccessMode.ofName? mode).elim (.error (.illegalMode mode)) .ok

structure Channels where
  open' : Table Channel :=
    [("stdin", .standardInput false), ("stdout", .standardOutput), ("stderr", .standardError)]
  /-- The number in the name of the next file. -/
  nextId : Nat := 1
  deriving Inhabited

namespace Channels

/-- The channels of an interpreter and the world they lead to. -/
structure View where
  channels : Channels
  world : World

def names (t : Channels) : List String := t.open'.names

def contains (t : Channels) (name : String) : Bool := t.open'.contains name

def find (name : String) : Action View Channel := do
  match (← get).channels.open'.get? name with
  | some channel => pure channel
  | none => Action.fail (ChannelFault.unknown name)

def put (name : String) (channel : Channel) : Action View Unit :=
  modify fun v =>
    { v with channels := { v.channels with open' := v.channels.open'.insert name channel } }

def setWorld (world : World) : Action View Unit := modify fun v => { v with world }

/-- Opens a file and gives the name of its channel. -/
def openFile (path mode : String) : Action View String := do
  let mode ← Action.ofExcept (AccessMode.parse mode)
  match OpenFile.create (← get).world path mode with
  | .error reason => Action.fail (ChannelFault.notOpened path reason)
  | .ok (file, world) =>
    let id := (← get).channels.nextId
    let name := "file" ++ toString id
    modify fun v => { channels := { v.channels with nextId := id + 1 }, world }
    put name (.file file)
    return name

/-- Closes a channel; the standard streams can be closed too. -/
def close (name : String) : Action View Unit := do
  let _ ← find name
  modify fun v => { v with channels := { v.channels with open' := v.channels.open'.erase name } }

/-- Writes to a channel. -/
def print (name text : String) : Action View Unit := do
  match ← find name with
  | .standardOutput => setWorld ((← get).world.write text)
  | .standardError => setWorld ((← get).world.writeError text)
  | .standardInput _ => Action.fail (ChannelFault.notWritable name)
  | .file f =>
    if f.mode.write then
      let (f, world) := f.write (← get).world text
      setWorld world
      put name (.file f)
    else Action.fail (ChannelFault.notWritable name)

/-- Keeps a file's new state and hands on what was read from it. -/
def readFrom {α : Type} (name : String) : Except SystemError α × OpenFile → Action View α
  | (result, f) => do
    put name (.file f)
    match result with
    | .ok a => pure a
    | .error reason => Action.fail (ChannelFault.reading name reason)

/-- Reads a line without its end, or nothing at the end of the channel. -/
def gets (name : String) : Action View (Option String) := do
  let line : List Char ←
    match ← find name with
    | .standardInput _ => do
      let (line, world) := (← get).world.takeLine
      setWorld world
      put name (.standardInput line.isEmpty)
      pure line
    | .file f =>
      if f.mode.read then do
        let line ← readFrom name (f.readLine (← get).world)
        pure line.toList
      else Action.fail (ChannelFault.notReadable name)
    | _ => Action.fail (ChannelFault.notReadable name)
  return if line.isEmpty then none else some (String.ofList (chompLine line))

/-- Reads all that is left. -/
def readAll (name : String) : Action View String := do
  match ← find name with
  | .standardInput _ =>
    let world := (← get).world
    setWorld { world with input := [] }
    put name (.standardInput true)
    return String.ofList world.input
  | .file f =>
    if f.mode.read then readFrom name (f.readRest (← get).world)
    else Action.fail (ChannelFault.notReadable name)
  | _ => Action.fail (ChannelFault.notReadable name)

/-- Whether the last read reached the end. -/
def eof (name : String) : Action View Bool := do
  match ← find name with
  | .standardInput atEnd => return atEnd
  | .file f => return f.atEnd
  | _ => return false

def parseOrigin (offset : Int) : String → Except ChannelFault Origin
  | "start" => if offset < 0 then .error (.badOffset offset) else .ok .start
  | "current" => .ok .current
  | "end" => .ok .stop
  | other => .error (.badOrigin other)

def seek (name : String) (offset : Int) (origin : String) : Action View Unit := do
  let origin ← Action.ofExcept (parseOrigin offset origin)
  match ← find name with
  | .file f =>
    match f.seek (← get).world offset origin with
    | .ok f => put name (.file f)
    | .error reason => Action.fail (ChannelFault.seeking name reason)
  | _ => Action.fail (ChannelFault.notSeekable name)

/-- The position in a file; -1 for the standard streams. -/
def tell (name : String) : Action View Int := do
  match ← find name with
  | .file f => return f.tell
  | _ => return -1

/-- Writes are never held back, so flushing only checks the name. -/
def flush (name : String) : Action View Unit := do
  let _ ← find name

end Channels

end CommandScript
