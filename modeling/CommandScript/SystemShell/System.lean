import CommandScript.Program.Signal
import CommandScript.SystemShell.Command
import CommandScript.Text.Octets
import CommandScript.World.Basic

/-!
# Streams and files

What processes share: the files, the open streams, and the signals that are on their way. A
descriptor of a process is a number of a stream, so two descriptors that lead to one stream also
share its position. Texts are texts of bytes throughout.
-/

namespace CommandScript.SystemShell

/-- What a descriptor leads to. -/
inductive Stream where
  /-- Nothing comes out, and all goes in. -/
  | nothing
  /-- Nothing more goes in. -/
  | full
  | file (name : String) (position : Nat) (canRead canWrite append : Bool)
  | directory
  /-- Keeps what is written. -/
  | sink (text : String)
  /-- Gives a text. -/
  | supply (rest : List Char)
  deriving Inhabited

structure System where
  world : World
  /-- The streams, by their numbers. -/
  streams : Array Stream := #[]
  /-- The number of the next process. -/
  nextProcess : Nat := 101
  /-- Signals on their way to processes. -/
  signals : List (Nat × Signal) := []
  deriving Inhabited

/-- Directories that every system has. -/
def directories : List String :=
  ["/", "/bin", "/dev", "/etc", "/home", "/proc", "/root", "/sbin", "/sys", "/tmp", "/usr",
    "/usr/bin", "/usr/lib", "/usr/local", "/usr/sbin", "/var", "/var/tmp"]

/-- An absolute path without dots; two of them go up. -/
def plainPath (path : String) : String :=
  let parts := (path.splitOn "/").foldl (fun (done : List String) part =>
    if part == "" || part == "." then done
    else if part == ".." then done.tail
    else part :: done) []
  "/" ++ "/".intercalate parts.reverse

/-- Whether a path is one of a directory that every system has. -/
def isDirectory (path : String) : Bool :=
  path.startsWith "/" && directories.contains (plainPath path)

/-- Why a file cannot be opened. -/
inductive OpenFault where
  | missing
  | exists
  | other (reason : String)
  deriving DecidableEq, Repr

namespace System

/-- The bytes of a file. -/
def bytes (s : System) (name : String) : ByteArray := (s.world.files.get? name).getD .empty

def setBytes (s : System) (name : String) (bytes : ByteArray) : System :=
  { s with world := { s.world with files := s.world.files.insert name bytes } }

/-- Adds a stream and gives its number. -/
def add (s : System) (stream : Stream) : Nat × System :=
  (s.streams.size, { s with streams := s.streams.push stream })

def setStream (s : System) (n : Nat) (stream : Stream) : System :=
  { s with streams := s.streams.setIfInBounds n stream }

/-- Writes a text to a stream; nothing if it cannot be written to. -/
def write? (s : System) (n : Nat) (text : String) : Option System :=
  match s.streams[n]? with
  | some .nothing => some s
  | some (.sink old) => some (s.setStream n (.sink (old ++ text)))
  | some (.file name position canRead true append) =>
    let old := s.bytes name
    let new := Text.octetBytes text
    let position := if append then old.size else position
    let gap : ByteArray := ⟨(List.replicate (position - old.size) 0).toArray⟩
    let bytes :=
      old.extract 0 position ++ gap ++ new ++ old.extract (position + new.size) old.size
    let s := if new.isEmpty then s else s.setBytes name bytes
    some (s.setStream n (.file name (position + new.size) canRead true append))
  | _ => none

/-- What reading gives. -/
inductive Input where
  | text (cs : List Char)
  | directory
  | closed

/-- The rest of what a stream gives, without taking it. -/
def rest (s : System) (n : Nat) : Input :=
  match s.streams[n]? with
  | some .nothing => .text []
  | some (.supply rest) => .text rest
  | some (.file name position true _ _) =>
    let bytes := s.bytes name
    .text (Text.ofBytes (bytes.extract position bytes.size)).toList
  | some .directory => .directory
  | _ => .closed

/-- Moves past bytes of a stream. -/
def advance (s : System) (n count : Nat) : System :=
  match s.streams[n]? with
  | some (.supply rest) => s.setStream n (.supply (rest.drop count))
  | some (.file name position canRead canWrite append) =>
    s.setStream n (.file name (position + count) canRead canWrite append)
  | _ => s

/-- Opens a file for a redirection; `protect` refuses to write over a file. -/
def openFile (s : System) (path : String) (use : FileUse) (protect : Bool) :
    Except OpenFault (Stream × System) :=
  let writes := use != .read
  let fault (reason : SystemError) : OpenFault :=
    match reason with
    | .notFound | .notDirectory => .missing
    | .isDirectory => .other "Is a directory"
    | .nameTooLong => .other "File name too long"
    | other => .other other.message
  if path == "/dev/null" then .ok (.nothing, s)
  else if path == "/dev/full" then .ok (.full, s)
  else if isDirectory path then
    if writes then .error (.other "Is a directory") else .ok (.directory, s)
  else
    match s.world.target (Text.ofOctets path) with
    | .nothing reason => .error (fault reason)
    | .directory => if writes then .error (.other "Is a directory") else .ok (.directory, s)
    | .slashed name =>
      .error (if writes then .other "Is a directory" else fault (s.world.slashedError name))
    | .file name =>
      let canRead := use == .read || use == .readWrite
      let stream := Stream.file name 0 canRead writes (use == .append)
      if s.world.files.contains name then
        if use == .write && protect then .error .exists
        else if use == .write || use == .clobber then .ok (stream, s.setBytes name .empty)
        else .ok (stream, s)
      else if writes then .ok (stream, s.setBytes name .empty)
      else .error .missing

end System

end CommandScript.SystemShell
