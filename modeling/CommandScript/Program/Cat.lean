import CommandScript.Program.Basic

/-!
# The program `cat`

Writes files one after another. Options number the lines, show their ends, and show what cannot be
printed; they see the files as one text, so a line may begin in one file and end in the next.
-/

namespace CommandScript.Program.Cat

structure Options where
  number : Bool := false
  /-- Only lines that are not empty are numbered. -/
  numberFilled : Bool := false
  squeeze : Bool := false
  showEnds : Bool := false
  showTabs : Bool := false
  showOthers : Bool := false
  deriving DecidableEq, Repr, Inhabited

namespace Options

/-- Sets the option of a letter. -/
def set? (o : Options) (letter : Char) : Option Options :=
  match letter with
  | 'n' => some { o with number := true }
  | 'b' => some { o with number := true, numberFilled := true }
  | 's' => some { o with squeeze := true }
  | 'E' => some { o with showEnds := true }
  | 'T' => some { o with showTabs := true }
  | 'v' => some { o with showOthers := true }
  | 'e' => some { o with showEnds := true, showOthers := true }
  | 't' => some { o with showTabs := true, showOthers := true }
  | 'A' => some { o with showEnds := true, showTabs := true, showOthers := true }
  | 'u' => some o
  | _ => none

/-- The long names of options, and the letters that mean the same. -/
def longNames : List (String × Char) :=
  [("number-nonblank", 'b'), ("number", 'n'), ("squeeze-blank", 's'), ("show-nonprinting", 'v'),
    ("show-ends", 'E'), ("show-tabs", 'T'), ("show-all", 'A')]

/-- Sets the option of a long name, or of the start of just one. -/
def setLong (o : Options) (text : String) : Except String Options :=
  let name := String.ofList (text.toList.takeWhile (· != '='))
  let found := match longNames.find? fun entry => entry.1 == name with
    | some entry => [entry]
    | none => longNames.filter fun entry => name.toList.isPrefixOf entry.1.toList
  match found with
  | [] => .error s!"unrecognized option '--{text}'"
  | [(long, letter)] =>
    if text.toList.contains '=' then .error s!"option '--{long}' doesn't allow an argument"
    else .ok ((o.set? letter).getD o)
  | several =>
    let names := " ".intercalate (several.map fun entry => s!"'--{entry.1}'")
    .error s!"option '--{name}' is ambiguous; possibilities: {names}"

def setLetters (o : Options) : List Char → Except String Options
  | [] => .ok o
  | c :: cs =>
    match o.set? c with
    | some o => setLetters o cs
    | none => .error s!"invalid option -- '{c}'"

/-- Takes the options out of the arguments, wherever they stand before `--`. -/
def parse (o : Options) (files : List String) : List String → Except String (Options × List String)
  | [] => .ok (o, files.reverse)
  | "--" :: rest => .ok (o, files.reverse ++ rest)
  | arg :: rest =>
    match arg.toList with
    | '-' :: '-' :: long => do parse (← o.setLong (String.ofList long)) files rest
    | '-' :: c :: cs => do parse (← o.setLetters (c :: cs)) files rest
    | _ => parse o (arg :: files) rest

def isPlain (o : Options) : Bool := o == {}

end Options

/-- What is remembered between one character and the next. -/
structure Position where
  /-- The lines numbered so far. -/
  lines : Nat := 0
  atStart : Bool := true
  /-- Whether the last line was empty. -/
  afterEmpty : Bool := false
  /-- Whether a carriage return waits to see if it ends a line. -/
  heldReturn : Bool := false

/-- A byte in a form that can be printed. -/
def visible (c : Char) : List Char :=
  let low (n : Nat) : List Char :=
    if n < 32 then ['^', Char.ofNat (n + 64)] else if n = 127 then ['^', '?'] else [Char.ofNat n]
  if c.toNat < 128 then low c.toNat else 'M' :: '-' :: low (c.toNat - 128)

def showChar (o : Options) (c : Char) : List Char :=
  if c == '\t' then if o.showTabs then ['^', 'I'] else [c]
  else if o.showOthers then visible c
  else [c]

/-- A line number and the tab after it. -/
def numberText (n : Nat) : List Char :=
  let digits := (toString n).toList
  List.replicate (6 - digits.length) ' ' ++ digits ++ ['\t']

/-- The number of the line that begins here, if it gets one. -/
def startLine (o : Options) (p : Position) (filled : Bool) : List Char × Position :=
  if p.atStart && o.number && (filled || !o.numberFilled) then
    (numberText (p.lines + 1), { p with lines := p.lines + 1 })
  else ([], p)

/-- Writes one character. -/
def step (o : Options) (p : Position) (c : Char) : List Char × Position :=
  if c == '\n' then
    if p.atStart && p.afterEmpty && o.squeeze then ([], p)
    else
      let (front, q) := startLine o p false
      let ending := if p.heldReturn then ['^', 'M'] else []
      (front ++ ending ++ (if o.showEnds then ['$', '\n'] else ['\n']),
        { q with atStart := true, afterEmpty := p.atStart, heldReturn := false })
  else
    let held := if p.heldReturn then ['\r'] else []
    if c == '\r' && o.showEnds && !o.showOthers then
      let (front, q) := startLine o p true
      (front ++ held, { q with atStart := false, afterEmpty := false, heldReturn := true })
    else
      let (front, q) := startLine o p true
      (front ++ held ++ showChar o c,
        { q with atStart := false, afterEmpty := false, heldReturn := false })

/-- Writes a text. -/
def render (o : Options) (p : Position) (cs : List Char) : List Char × Position :=
  if o.isPlain then (cs, p)
  else
    let (out, p) := cs.foldl (fun (state : List Char × Position) c =>
      let (out, p) := step o state.2 c
      (out.reverse ++ state.1, p)) ([], p)
    (out.reverse, p)

/-- What is left to write at the end. -/
def finish (p : Position) : List Char := if p.heldReturn then ['\r'] else []

end CommandScript.Program.Cat
