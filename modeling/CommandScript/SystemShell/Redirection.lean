import CommandScript.SystemShell.Expansion

/-!
# Redirections

Before a command runs, its redirections give its descriptors other streams; afterwards the shell's
own come back. All words of redirections are expanded before the first stream is opened.
-/

namespace CommandScript.SystemShell

/-- A redirection whose word is expanded. -/
inductive Opening where
  | file (descriptor : Nat) (use : FileUse) (path : String)
  /-- A copy of another descriptor, or none. -/
  | copy (descriptor : Nat) (source : Option Nat)
  | text (descriptor : Nat) (document : Spelling)

namespace Shell

/-- The descriptor that a word names; a dash closes one. -/
def sourceOf (text : String) : Shell (Option Nat) := do
  match text.toList with
  | ['-'] => return none
  | [c] =>
    if c.isDigit then return some (c.toNat - '0'.toNat)
    failGrammar (← process).readLine "Bad fd number"
  | _ => failGrammar (← process).readLine "Bad fd number"

def expandRedirect (k : Kernel) : Redirect → Shell Opening
  | .file descriptor use name => return .file descriptor use (← expandText k .start name)
  | .copy descriptor source => do
    let text ← expandText k .start source
    return .copy descriptor (← sourceOf text)
  | .document descriptor number => do
    let spelling := ((← process).documents.lookup number).getD []
    return .text descriptor spelling

/-- The stream that a path in the directory of devices shares with a descriptor. -/
def sharedStream? (path : String) : Shell (Option Nat) := do
  let p ← process
  let descriptor : Option Nat := match path with
    | "/dev/stdin" => some 0
    | "/dev/stdout" => some 1
    | "/dev/stderr" => some 2
    | _ => none
  return descriptor.bind fun d => p.descriptors.lookup d

/-- Opens a file on a descriptor. -/
def openOn (descriptor : Nat) (use : FileUse) (path : String) : Shell Unit := do
  if let some n ← sharedStream? path then
    setDescriptor descriptor (some n)
    return
  match (← system).openFile (← resolve path) use (← hasOption 'C') with
  | .ok (stream, system) =>
    setSystem system
    setDescriptor descriptor (some (← addStream stream))
  | .error fault =>
    let verb := if use == FileUse.read then "open" else "create"
    let reason := match fault with
      | .missing => if use == FileUse.read then "No such file" else "Directory nonexistent"
      | .exists => "File exists"
      | .other reason => reason
    fail s!"cannot {verb} {path}: {reason}"

/-- Carries out a redirection. If the errors themselves are put aside to come back later, nobody
hears of a failure to redirect them to another descriptor. -/
def carryOut (k : Kernel) (comesBack : Bool) : Opening → Shell Unit
  | .file descriptor use path => openOn descriptor use path
  | .copy descriptor none => setDescriptor descriptor none
  | .copy descriptor (some source) => do
    match (← process).descriptors.lookup source with
    | some n => setDescriptor descriptor (some n)
    | none =>
      if comesBack && descriptor = 2 then
        setStatus 2
        throw .failure
      fail s!"{source}: Bad file descriptor"
  | .text descriptor document => do
    let text ← plainText k { fields := false, tilde := .never, quoted := true } document
    setDescriptor descriptor (some (← addStream (.supply text)))

/-- Carries out redirections, and says whether all could be. -/
def openAll (k : Kernel) (openings : List Opening) : Shell Bool := do
  match ← attempt (openings.forM (carryOut k true)) with
  | .ok () => return true
  | .error .failure => return false
  | .error j => throw j

/-- Brings back the descriptors of a process. -/
def restoreDescriptors (old : Process) (p : Process) : Process :=
  { p with descriptors := old.descriptors }

/-- Runs an action with redirections, or another one if they fail. -/
def redirected (k : Kernel) (redirects : List Redirect) (act failed : Shell Unit) :
    Shell Unit := do
  let openings ← redirects.mapM (expandRedirect k)
  let old ← process
  andThen (do
    if ← openAll k openings then act
    else
      setStatus 2
      failed) (restoreDescriptors old)

end Shell

end CommandScript.SystemShell
