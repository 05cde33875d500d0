import CommandScript.SystemShell.Programs

/-!
# A host

A system whose programs are those of the shell. A program starts with no input. Its output and its
errors are kept, and it may change files.
-/

namespace CommandScript.SystemShell

/-- The process that starts programs. Its streams are an empty input and two that keep what is
written. -/
def starter (w : World) : State where
  system := { world := w, streams := #[.nothing, .sink "", .sink ""] }
  process :=
    { id := 100, shell := 100, name := ""
      vars := w.environment.map fun entry =>
        (Text.toOctets entry.1, { value := some (Text.toOctets entry.2), exported := true })
      descriptors := [(0, 0), (1, 1), (2, 2)] }

/-- Finds the program that a name or a path leads to. -/
def findProgram (w : World) (name : String) : Except SystemError String :=
  let path := (w.environment.get? "PATH").getD "/bin:/usr/bin"
  if name.toList.contains '/' then
    match Shell.programAt? name with
    | some found => .ok found
    | none =>
      if isDirectory name then .error .notPermitted
      else
        match w.contents name with
        | .ok _ | .error .isDirectory => .error .notPermitted
        | .error reason => .error reason
  else if name == "." || name == ".." then .error .notPermitted
  else if name.utf8ByteSize > 255 then .error .nameTooLong
  else if Shell.programs.contains name && (Target.programDirectory? path).isSome then .ok name
  else .error .notFound

/-- How deep the commands of a shell may nest. -/
def depth : Nat := 10000

/-- Runs a program with arguments; nothing if a loop goes round more often than the fuel lasts. -/
def host : Host := fun fuel start => do
  if (start.name :: start.args).any fun arg => arg.toList.contains '\x00' then throw .nulInArgument
  let world : World :=
    { files := start.files, directory := start.directory, environment := start.environment }
  let program ← findProgram world start.name
  let act := Shell.runProgram (Shell.kernel fuel depth) program (Text.toOctets start.name)
    (start.args.map Text.toOctets)
  match act (starter world) with
  | .error _ _ => return none
  | .ok ending s =>
    let kept (n : Nat) : ByteArray :=
      match s.system.streams[n]? with
      | some (.sink text) => Text.octetBytes text
      | _ => .empty
    return some { output := kept 1, errors := kept 2, ending, files := s.system.world.files }

end CommandScript.SystemShell
