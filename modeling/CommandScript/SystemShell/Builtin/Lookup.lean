import CommandScript.SystemShell.Builtin.Basic
import CommandScript.SystemShell.Source

/-!
# Finding commands

A name leads to a function, to a command of the shell itself, or to a program. The commands here
say where a name leads, or go there.
-/

namespace CommandScript.SystemShell

/-- Where a command's name leads. -/
inductive Target where
  | function (f : Function)
  | builtin (name : String)
  | program (name : String)
  /-- A file that cannot be run. -/
  | refused
  | missing

namespace Target

/-- The first of some directories that has programs in it. -/
def programDirectory? (path : String) : Option String :=
  (path.splitOn ":").findSome? fun directory =>
    let directory := if directory.endsWith "/" then directory else directory ++ "/"
    if Shell.programDirectories.contains directory then some directory else none

/-- Where a program's name leads. -/
def ofProgram (name : String) : Shell Target := do
  if name.toList.contains '/' then
    let path ← Shell.resolve name
    match Shell.programAt? path with
    | some found => return .program found
    | none =>
      if isDirectory path then return .refused
      let world := (← Shell.system).world
      match world.target (Text.ofOctets path) with
      | .directory => return .refused
      | .file file => return if world.files.contains file then .refused else .missing
      | .slashed _ | .nothing _ => return .missing
  else
    let path := (← Shell.valueOf? "PATH").getD ""
    if Shell.programs.contains name && (programDirectory? path).isSome then return .program name
    else return .missing

/-- Where a command's name leads. -/
def locate (functions : Bool) (name : String) : Shell Target := do
  let known := (← Shell.process).functions
  match if functions then known.get? name else none with
  | some f => return .function f
  | none =>
    if specialNames.contains name || regularNames.contains name then return .builtin name
    else ofProgram name

/-- Where a command's name leads; the place of a program is remembered. -/
def find (functions : Bool) (name : String) : Shell Target := do
  let target ← locate functions name
  if target matches .program _ then
    if !name.toList.contains '/' then
      Shell.modifyProcess fun p =>
        { p with known := if p.known.contains name then p.known else name :: p.known }
  return target

end Target

namespace Builtin

/-- The path of a program. -/
def programPath (name : String) : Shell String := do
  if name.toList.contains '/' then return name
  let path := (← Shell.valueOf? "PATH").getD ""
  return (Target.programDirectory? path).getD "" ++ name

/-- Says where a name leads: in a sentence, or only the name or path. -/
def describe (name : String) (verbose : Bool) : Shell Nat := do
  let say (short long : String) : Shell Nat := do
    Shell.put ((if verbose then long else short) ++ "\n")
    return 0
  if keywords.contains name then say name s!"{name} is a shell keyword"
  else if let some value := (← Shell.process).aliases.get? name then
    say s!"alias {name}={quoted value}" s!"{name} is an alias for {value}"
  else
    let isKnown := (← Shell.process).known.contains name
    let target ← Target.find true name
    match target with
    | .function _ => say name s!"{name} is a shell function"
    | .builtin _ =>
      if specialNames.contains name then say name s!"{name} is a special shell builtin"
      else say name s!"{name} is a shell builtin"
    | .program _ =>
      let path ← programPath name
      say path (if isKnown then s!"{name} is a tracked alias for {path}" else s!"{name} is {path}")
    | .refused => say name s!"{name} is {name}"
    | .missing =>
      if verbose then Shell.put s!"{name}: not found\n"
      return 127

def type : Deed := fun _ _ args => do
  let mut status := 0
  for name in args do
    let s ← describe name true
    if s != 0 then status := s
  return status

/-- Says where a name leads. Running one is done where commands are run. -/
def command : Deed := fun _ _ args => do
  let (options, args) ← takeOptions "pvV" args
  match options.find? fun option => option.1 != 'p', args with
  | some option, name :: _ => describe name (option.1 == 'V')
  | _, _ => return 0

/-- Remembers programs, forgets all, or lists them. -/
def hash : Deed := fun _ _ args => do
  let (options, names) ← takeOptions "r" args
  if !options.isEmpty then
    Shell.modifyProcess fun p => { p with known := [] }
    return 0
  if names.isEmpty then
    for name in (← Shell.process).known.mergeSort fun a b => a ≤ b do
      Shell.put ((← programPath name) ++ "\n")
    return 0
  let mut status := 0
  for name in names do
    Shell.modifyProcess fun p => { p with known := p.known.filter (· != name) }
    match ← Target.find true name with
    | .missing =>
      Shell.complain s!"{name}: not found"
      status := 1
    | _ => pure ()
  return status

/-- Complains of a name that leads to no program, and gives the status for it. -/
def notRun (name : String) (target : Target) : Shell Nat := do
  match target with
  | .refused =>
    Shell.complain s!"{name}: Permission denied"
    return 126
  | _ =>
    let reason :=
      if ["", ".", ".."].contains name then SystemError.notPermitted.reason
      else if (name.splitOn "/").any fun part => part.length > 255 then
        SystemError.nameTooLong.reason
      else "not found"
    Shell.complain s!"{name}: {reason}"
    return 127

/-- Puts a program in the place of the shell. -/
def exec : Deed := fun k _ args => do
  match args with
  | [] => return 0
  | name :: args =>
    match ← Target.ofProgram name with
    | .program program =>
      Shell.runWaiting k false
      let ending ← k.program program name args
      Shell.modifyProcess fun p => { p with traps := [] }
      match ending with
      | .killed s => throw (.killed s)
      | .exited status => throw (.exit (some status))
    | target =>
      let target := if name == ".." then .refused else target
      Shell.setStatus (← notRun name target)
      throw (.exit none)

end Builtin

end CommandScript.SystemShell
