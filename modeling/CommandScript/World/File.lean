import CommandScript.World.Basic

/-!
# Open files

An open file keeps its own position and reads ahead a block at a time, so what it has read ahead is
not touched by later writes to the file. A write, a seek and a report of the position take the bytes
read ahead into account.
-/

namespace CommandScript

/-- How a file is opened. -/
structure AccessMode where
  read : Bool
  write : Bool
  append : Bool
  truncate : Bool
  create : Bool
  deriving DecidableEq, Repr, Inhabited

/-- The access modes by name. -/
def AccessMode.ofName? : String → Option AccessMode
  | "r" => some ⟨true, false, false, false, false⟩
  | "r+" => some ⟨true, true, false, false, false⟩
  | "w" => some ⟨false, true, false, true, true⟩
  | "w+" => some ⟨true, true, false, true, true⟩
  | "a" => some ⟨false, true, true, false, true⟩
  | "a+" => some ⟨true, true, true, false, true⟩
  | _ => none

/-- What a seek counts from. -/
inductive Origin where
  | start | current | stop
  deriving DecidableEq, Repr

structure OpenFile where
  /-- The file's name; a directory has none. -/
  name : Option String
  mode : AccessMode
  /-- Where the next block is read. -/
  position : Nat := 0
  /-- The bytes read ahead. -/
  ahead : ByteArray := .empty
  /-- Whether the last read reached the end. -/
  atEnd : Bool := false
  deriving Inhabited

namespace OpenFile

/-- How many bytes are read ahead. -/
def blockSize : Nat := 8192

/-- Opens what a path leads to. -/
def create (w : World) (path : String) (mode : AccessMode) :
    Except SystemError (OpenFile × World) :=
  match w.target path with
  | .nothing reason => .error reason
  | .slashed name => .error (if mode.create then .isDirectory else w.slashedError name)
  | .directory => if mode.write then .error .isDirectory else .ok ({ name := none, mode }, w)
  | .file name =>
    let file : OpenFile := { name := some name, mode }
    match w.files.get? name with
    | none =>
      if mode.create then .ok (file, { w with files := w.files.insert name .empty })
      else .error .notFound
    | some _ =>
      if mode.truncate then .ok (file, { w with files := w.files.insert name .empty })
      else .ok (file, w)

def contents (f : OpenFile) (w : World) : Except SystemError ByteArray :=
  match f.name with
  | some name => .ok ((w.files.get? name).getD .empty)
  | none => .error .isDirectory

/-- The bytes that reading on would give. -/
def remaining (f : OpenFile) (bytes : ByteArray) : ByteArray :=
  f.ahead ++ bytes.extract f.position bytes.size

/-- Moves past `n` of the remaining bytes, reading whole blocks as needed. -/
def consume (f : OpenFile) (bytes : ByteArray) (n : Nat) : OpenFile :=
  if n ≤ f.ahead.size then { f with ahead := f.ahead.extract n f.ahead.size }
  else
    let beyond := n - f.ahead.size
    let blocks := (beyond + blockSize - 1) / blockSize
    let position := max f.position (min (f.position + blocks * blockSize) bytes.size)
    { f with position, ahead := bytes.extract (f.position + beyond) position }

/-- Reads a block ahead if none is left. -/
def fill (f : OpenFile) (bytes : ByteArray) : OpenFile :=
  if f.ahead.isEmpty then
    let position := max f.position (min (f.position + blockSize) bytes.size)
    { f with position, ahead := bytes.extract f.position position }
  else f

/-- The length of the first line, its newline included. -/
def lineLength (bytes : ByteArray) : Nat :=
  match bytes.toList.findIdx? (· == 10) with
  | some n => n + 1
  | none => bytes.size

/-- Reads a line, its end included; no bytes at the end of the file. Bytes that are no text are
passed over all the same. -/
def readLine (f : OpenFile) (w : World) : Except SystemError String × OpenFile :=
  match f.contents w with
  | .error reason => (.error reason, f)
  | .ok bytes =>
    let rest := f.remaining bytes
    let n := lineLength rest
    let f := f.consume bytes n
    match Text.decode? (rest.extract 0 n) with
    | none => (.error .invalidText, f)
    | some line =>
      let f := f.fill bytes
      (.ok line, { f with atEnd := n == 0 || f.ahead.isEmpty })

/-- Reads the rest of the file. -/
def readRest (f : OpenFile) (w : World) : Except SystemError String × OpenFile :=
  match f.contents w with
  | .error reason => (.error reason, f)
  | .ok bytes =>
    let rest := f.remaining bytes
    let f := { f with position := max f.position bytes.size, ahead := .empty }
    match Text.decode? rest with
    | none => (.error .invalidText, f)
    | some text => (.ok text, { f with atEnd := true })

/-- The position as the program sees it. -/
def tell (f : OpenFile) : Nat := f.position - f.ahead.size

def seek (f : OpenFile) (w : World) (offset : Int) (origin : Origin) :
    Except SystemError OpenFile :=
  let base : Int :=
    match origin with
    | .start => 0
    | .current => f.tell
    | .stop => match f.contents w with
      | .ok bytes => bytes.size
      | .error _ => 0
  let position := base + offset
  if position < 0 || position > Int64.maxValue.toInt then .error .invalidArgument
  else .ok { f with position := position.toNat, ahead := .empty, atEnd := false }

/-- Replaces bytes from a position on; a gap before it is filled with zeros. -/
def overwrite (bytes : ByteArray) (position : Nat) (new : ByteArray) : ByteArray :=
  let gap : ByteArray := ⟨(List.replicate (position - bytes.size) 0).toArray⟩
  bytes.extract 0 position ++ gap ++ new ++ bytes.extract (position + new.size) bytes.size

/-- Writes at the position, or at the end if the file is open for appending. -/
def write (f : OpenFile) (w : World) (text : String) : OpenFile × World :=
  let f := { f with position := f.tell, ahead := .empty }
  let new := text.toUTF8
  match f.name with
  | some name =>
    if new.isEmpty then (f, w)
    else
      let bytes := (w.files.get? name).getD .empty
      let position := if f.mode.append then bytes.size else f.position
      ({ f with position := position + new.size },
        { w with files := w.files.insert name (overwrite bytes position new) })
  | none => (f, w)

end OpenFile

end CommandScript
