import CommandScript.SystemShell.Builtin.Basic

/-!
# Variables, arguments and options

The commands that change what the shell remembers: `export`, `readonly`, `local`, `unset`, `set`,
`shift`, `read`, `getopts` and `alias`.
-/

namespace CommandScript.SystemShell.Builtin

/-- Changes a variable's marks. -/
def markVariable (name : String) (f : Variable → Variable) : Shell Unit :=
  Shell.modifyProcess fun p =>
    { p with vars := p.vars.insert name (f ((p.vars.get? name).getD {})) }

/-- Lists the marked variables or marks more of them. -/
def marking (word : String) (isMarked : Variable → Bool) (f : Variable → Variable) : Deed :=
  fun _ _ args => do
    let (options, args) ← takeOptions "p" args
    if !options.isEmpty || args.isEmpty then
      let vars := (← Shell.process).vars.filter fun entry => isMarked entry.2
      Shell.put (listing (word ++ " ") vars)
      return 0
    for arg in args do
      let (cs, value) := splitAssignment arg
      let name ← nameOf cs
      if let some value := value then Shell.setVariable name value
      markVariable name f
    return 0

def exportNames : Deed := marking "export" Variable.exported fun v => { v with exported := true }

def protectNames : Deed := marking "readonly" Variable.readOnly fun v => { v with readOnly := true }

/-- Makes variables that last as long as the function that runs. -/
def makeLocal : Deed := fun _ _ args => do
  if (← Shell.process).hidden.isEmpty then Shell.fail "not in a function"
  for arg in args do
    let (cs, value) := splitAssignment arg
    if cs == ['-'] then continue
    let name ← nameOf cs
    Shell.hideVariable name
    if let some value := value then Shell.setVariable name value
  return 0

def unset : Deed := fun _ _ args => do
  let (options, args) ← takeOptions "vf" args
  let functions := (options.getLast?.map Prod.fst) == some 'f'
  for name in args do
    if functions then
      Shell.modifyProcess fun p => { p with functions := p.functions.erase name }
    else
      let name ← nameOf name.toList
      Shell.unsetVariable name
  return 0

/-! ## `set` -/

/-- The settings of all options, to be read or to be given to the shell again. -/
def optionReport (asCommands : Bool) : Shell String := do
  let p ← Shell.process
  let line (entry : String × Char) : String :=
    let on := p.options.contains entry.2
    if asCommands then
      let sign := if on then "-" else "+"
      s!"set {sign}o {entry.1}\n"
    else
      let gap := String.ofList (List.replicate (16 - entry.1.length) ' ')
      let setting := if on then "on" else "off"
      s!"{entry.1}{gap}{setting}\n"
  let lines := String.join (Shell.optionNames.map line)
  return if asCommands then lines else "Current option settings\n" ++ lines

/-- Sets an option by its letter. -/
def setLetter (on : Bool) (c : Char) : Shell Unit := do
  if c.toNat > 1 && (Shell.optionNames.any fun entry => entry.2 == c) then Shell.setOption c on
  else Shell.fail s!"Illegal option -{c}"

/-- Sets an option by its name. -/
def setNamed (on : Bool) (name : String) : Shell Unit := do
  match Shell.optionNames.lookup name with
  | some c => Shell.setOption c on
  | none => Shell.fail s!"Illegal option -o {name}"

/-- Sets the options of some letters; `o` takes the next argument for a name. -/
def setLetters (on : Bool) : List Char → List String → Shell (List String)
  | [], rest => return rest
  | 'o' :: cs, rest => do
    match rest with
    | name :: rest =>
      setNamed on name
      setLetters on cs rest
    | [] =>
      Shell.put (← optionReport (!on))
      setLetters on cs []
  | c :: cs, rest => do
    setLetter on c
    setLetters on cs rest

/-- Sets the options at the start of arguments, `fuel` of them at most. Gives the arguments after
them, if they are to become the shell's. -/
def setOptions : (fuel : Nat) → List String → Shell (Option (List String))
  | 0, args => return some args
  | _, [] => return none
  | fuel + 1, arg :: rest => do
    match arg.toList with
    | ['-'] =>
      Shell.setOption 'x' false
      Shell.setOption 'v' false
      return if rest.isEmpty then none else some rest
    | ['-', '-'] => return some rest
    | '-' :: cs => setOptions fuel (← setLetters true cs rest)
    | '+' :: cs => setOptions fuel (← setLetters false cs rest)
    | _ => return some (arg :: rest)

def set : Deed := fun _ _ args => do
  if args.isEmpty then
    Shell.put (listing "" (← Shell.process).vars)
    return 0
  if let some arguments ← setOptions (args.length + 1) args then
    Shell.modifyProcess fun p => { p with arguments }
  return 0

def shift : Deed := fun _ _ args => do
  let n ← match args with
    | [] => pure 1
    | arg :: _ => Shell.number arg
  let p ← Shell.process
  if n > p.arguments.length then Shell.fail "can't shift that many"
  Shell.modifyProcess fun p => { p with arguments := p.arguments.drop n, optionOffset := 0 }
  return 0

/-! ## `read` -/

/-- A line that was read: its segments, last first, how many bytes it took, and whether it was
complete. -/
structure ReadLine where
  segments : List Segment := []
  taken : Nat := 0
  complete : Bool := false

/-- Adds a character that can separate fields. -/
def ReadLine.add (l : ReadLine) (c : Char) : ReadLine :=
  match l.segments with
  | ⟨.fields, glyphs⟩ :: rest => { l with segments := ⟨.fields, { char := c } :: glyphs⟩ :: rest }
  | segments => { l with segments := ⟨.fields, [{ char := c }]⟩ :: segments }

/-- Adds a character that a backslash protects, and begins a new segment after it. -/
def ReadLine.addProtected (l : ReadLine) (c : Char) : ReadLine :=
  { l with segments := ⟨.fields, []⟩ :: ⟨.never, [{ char := c, quoted := true }]⟩ :: l.segments }

/-- Reads to the end of a line. Unless it is raw, a backslash protects the next character, and joins
lines. -/
def readLine (raw : Bool) : List Char → ReadLine → ReadLine
  | [], l => l
  | '\n' :: _, l => { l with taken := l.taken + 1, complete := true }
  | '\\' :: cs, l =>
    if raw then readLine raw cs { l.add '\\' with taken := l.taken + 1 }
    else
      match cs with
      | [] => { l with taken := l.taken + 1 }
      | '\n' :: rest =>
        readLine raw rest { l with taken := l.taken + 2, segments := ⟨.fields, []⟩ :: l.segments }
      | c :: rest => readLine raw rest { l.addProtected c with taken := l.taken + 2 }
  | c :: cs, l =>
    if c == '\x00' then readLine raw cs { l with taken := l.taken + 1 }
    else readLine raw cs { l.add c with taken := l.taken + 1 }

/-- Gives values to variables in turn; those that are left over become empty. -/
def assignAll : List String → List (List Glyph) → Shell Unit
  | [], _ => return ()
  | name :: names, fields => do
    let name ← nameOf name.toList
    Shell.setVariable name (String.ofList (Glyph.text (fields.headD [])))
    assignAll names fields.tail

def read : Deed := fun _ _ args => do
  let (options, names) ← takeOptions "p:r" args
  if names.isEmpty then Shell.fail "arg count"
  let raw := options.any fun option => option.1 == 'r'
  let p ← Shell.process
  let stream := p.descriptors.lookup 0
  let system ← Shell.system
  let text := match stream.map system.rest with
    | some (.text cs) => cs
    | _ => []
  let line := readLine raw text {}
  if let some n := stream then Shell.setSystem (system.advance n line.taken)
  let segments := line.segments.reverse.map fun s =>
    { s with glyphs := if s.splitting == .fields then s.glyphs.reverse else s.glyphs }
  let fields := Field.split (← Shell.separators) (some names.length) segments
  assignAll names fields
  return if line.complete then 0 else 1

/-! ## `getopts` -/

/-- What a step of reading options finds. -/
structure FoundOption where
  /-- What the variable gets. -/
  letter : Char := '?'
  value : Option String := none
  /-- The arguments passed so far. -/
  passed : Nat
  /-- How far the current argument was read; zero if it is done. -/
  offset : Nat := 0
  done : Bool := false
  complaint : Option String := none

/-- Reads the option that begins with `c`, whose argument goes on with `cs`. -/
def readOption (allowed : List Char) (args : List String) (passed offset : Nat) (c : Char)
    (cs : List Char) : FoundOption :=
  let silent := allowed.head? == some ':'
  let goOn := if cs.isEmpty then 0 else offset + 1
  match if c == ':' then [] else allowed.dropWhile (· != c) with
  | [] =>
    { passed, offset := goOn
      value := if silent then some (String.singleton c) else none
      complaint := if silent then none else some s!"Illegal option -{c}\n" }
  | _ :: ':' :: _ =>
    if !cs.isEmpty then { letter := c, value := some (String.ofList cs), passed }
    else
      match args[passed]? with
      | some value => { letter := c, value := some value, passed := passed + 1 }
      | none =>
        if silent then { letter := ':', value := some (String.singleton c), passed }
        else { passed, complaint := some s!"No arg for -{c} option\n" }
  | _ => { letter := c, value := some "", passed, offset := goOn }

/-- Finds the next option. -/
def findOption (allowed : List Char) (args : List String) (passed offset : Nat) : FoundOption :=
  let within : List Char :=
    if offset = 0 || passed = 0 then [] else ((args[passed - 1]?).getD "").toList.drop offset
  match within with
  | c :: cs => readOption allowed args passed offset c cs
  | [] =>
    match args[passed]?.map String.toList with
    | some ['-', '-'] => { passed := passed + 1, done := true }
    | some ('-' :: c :: cs) => readOption allowed args (passed + 1) 1 c cs
    | _ => { passed, done := true }

def getopts : Deed := fun _ _ args => do
  match args with
  | allowed :: name :: rest =>
    let p ← Shell.process
    let list := if rest.isEmpty then p.arguments else rest
    let index ← Shell.number ((← Shell.valueOf? "OPTIND").getD "1")
    let found := findOption allowed.toList list (index - 1) p.optionOffset
    if let some complaint := found.complaint then Shell.writeError complaint
    match found.value with
    | some value => Shell.setVariable "OPTARG" value
    | none => if !found.done then Shell.unsetVariable "OPTARG"
    Shell.setVariable "OPTIND" (toString (found.passed + 1))
    Shell.modifyProcess fun p => { p with optionOffset := found.offset }
    let name ← nameOf name.toList
    Shell.setVariable name (String.singleton found.letter)
    return if found.done then 1 else 0
  | _ => Shell.fail "Usage: getopts optstring var [arg...]"

/-! ## `alias` -/

def nameAlias : Deed := fun _ _ args => do
  let p ← Shell.process
  let sorted (t : Table String) : Table String := t.mergeSort fun a b => a.1 ≤ b.1
  if args.isEmpty then
    for entry in sorted p.aliases do
      Shell.put s!"{entry.1}={quoted entry.2}\n"
    return 0
  let mut status := 0
  for arg in args do
    let (cs, value) := splitAssignment arg
    let name := String.ofList cs
    match value with
    | some value => Shell.modifyProcess fun p => { p with aliases := p.aliases.insert name value }
    | none =>
      match (← Shell.process).aliases.get? name with
      | some value => Shell.put s!"{name}={quoted value}\n"
      | none =>
        Shell.writeError s!"alias: {name} not found\n"
        status := 1
  return status

def dropAlias : Deed := fun _ _ args => do
  let (options, names) ← takeOptions "a" args
  if !options.isEmpty then
    Shell.modifyProcess fun p => { p with aliases := [] }
    return 0
  let mut status := 0
  for name in names do
    if (← Shell.process).aliases.contains name then
      Shell.modifyProcess fun p => { p with aliases := p.aliases.erase name }
    else
      Shell.writeError s!"unalias: {name} not found\n"
      status := 1
  return status

end CommandScript.SystemShell.Builtin
