import CommandScript.Program.Basic
import CommandScript.Program.Directive

/-!
# The program `printf`

Writes its arguments by a format, over and over until they are used up. An argument that should be
a number and is none is complained of, and what can be read of it is written; a directive that
makes no sense ends the program.
-/

namespace CommandScript.Program.Printf

/-- The state of a run. -/
structure Run where
  /-- The arguments still to be written. -/
  args : List String
  /-- What was written, last first. -/
  writes : List Write := []
  status : Nat := 0
  /-- Whether a field was too wide to be written. -/
  tooWide : Bool := false

/-- Why a run stops before its end. -/
inductive Stop where
  /-- An escape asks for it. -/
  | asked
  | complaint (text : String)

abbrev Printing := EStateM Stop Run

/-- The name under which the program complains. -/
abbrev Name := String

def put (text : List Char) : Printing Unit :=
  modify fun r => { r with writes := { text } :: r.writes }

def warn (name : Name) (text : String) : Printing Unit :=
  modify fun r =>
    { r with writes := { complaint := true, text := s!"{name}: {text}\n".toList } :: r.writes }

/-- Complains of an argument: the program will fail in the end. -/
def blame (name : Name) (text : String) : Printing Unit := do
  warn name text
  modify fun r => { r with status := 1 }

def die {α : Type} (text : String) : Printing α := throw (.complaint text)

/-- The next argument. -/
def nextArg? : Printing (Option String) := do
  match (← get).args with
  | [] => return none
  | arg :: args => modifyGet fun r => (some arg, { r with args })

/-! ## Numbers -/

/-- Complains of what is wrong with an argument that was read as a number. -/
def verify (name : Name) (arg : String) (found outOfRange : Bool) (rest : List Char) :
    Printing Unit := do
  if outOfRange then blame name s!"{quote arg}: Numerical result out of range"
  else if !rest.isEmpty then
    if found then blame name s!"{quote arg}: value not completely converted"
    else blame name s!"{quote arg}: expected a numeric value"

/-- The number of a character constant: a quote and a character. -/
def charConstant? (name : Name) (arg : String) : Printing (Option Nat) := do
  match arg.toList with
  | q :: c :: rest =>
    if q == '\'' || q == '"' then
      if !rest.isEmpty then
        let ignored := "character(s) following character constant have been ignored"
        warn name s!"warning: {String.ofList rest}: {ignored}"
      return some c.toNat
    return none
  | _ => return none

/-- Reads an integer argument and brings it into range. -/
def readInteger {α : Type} (name : Name) (arg : String) (zero : α) (ofChar : Nat → α)
    (clip : Numeral → α × Bool) : Printing α := do
  if let some c ← charConstant? name arg then return ofChar c
  match Numeral.read? false arg.toList with
  | none =>
    verify name arg false false arg.toList
    return zero
  | some n =>
    let (value, outOfRange) := clip n
    verify name arg true outOfRange n.rest
    return value

def readSigned (name : Name) (arg : String) : Printing Int :=
  readInteger name arg 0 (fun c => (c : Int)) Numeral.toSigned

def readUnsigned (name : Name) (arg : String) : Printing Nat :=
  readInteger name arg 0 id Numeral.toUnsigned

def readReal (name : Name) (arg : String) : Printing Binary := do
  if let some c ← charConstant? name arg then return .finite false c 0
  match Binary.read? .extended arg.toList with
  | none =>
    verify name arg false false arg.toList
    return .finite false 0 0
  | some r =>
    verify name arg true r.outOfRange r.rest
    return r.number

/-! ## Escapes -/

/-- A character by its number in a universal name. All that is not ASCII is written as its name. -/
def universal (letter : Char) (size : Nat) (n : Nat) : Printing Unit := do
  if 0xD800 ≤ n && n ≤ 0xDFFF then
    let digits := Nat.toDigits 16 n
    let digits := List.replicate (size - digits.length) '0' ++ digits
    die s!"invalid universal character name \\{String.ofList (letter :: digits)}"
  if n < 128 then put [Char.ofNat n]
  else
    let short := n < 0x10000
    let digits := (Nat.toDigits 16 n).map Char.toUpper
    let width := if short then 4 else 8
    let zeros := List.replicate (width - digits.length) '0'
    put ('\\' :: (if short then 'u' else 'U') :: (zeros ++ digits))

/-- Writes the escape at the start of a text, after its backslash, and gives what follows it. In an
argument a zero may stand before the digits of an octal escape. -/
def escape (inArgument : Bool) (cs : List Char) : Printing (List Char) := do
  match cs with
  | [] =>
    put ['\\']
    return []
  | c :: rest =>
    if c == 'x' then
      let digits := takeDigits 16 2 rest
      if digits.isEmpty then die "missing hexadecimal number in escape"
      put [byteOfDigits 16 digits]
      return rest.drop digits.length
    else if Integer.isDigitOf 8 c then
      let cs := if inArgument && c == '0' then rest else cs
      let digits := takeDigits 8 3 cs
      put [byteOfDigits 8 digits]
      return cs.drop digits.length
    else if c == 'c' then throw .asked
    else if c == '"' then
      put ['"']
      return rest
    else if c == 'u' || c == 'U' then
      let size := if c == 'u' then 4 else 8
      let digits := takeDigits 16 size rest
      if digits.length < size then die "missing hexadecimal number in escape"
      universal c size (Integer.ofDigits 16 digits)
      return rest.drop size
    else
      put (((simpleEscape? c).map ([·])).getD ['\\', c])
      return rest

/-- Writes an argument and resolves its escapes. -/
def escapedText : (fuel : Nat) → List Char → Printing Unit
  | 0, _ => pure ()
  | _, [] => pure ()
  | fuel + 1, '\\' :: cs => do escapedText fuel (← escape true cs)
  | fuel + 1, c :: cs => do
    put [c]
    escapedText fuel cs

/-! ## Directives -/

/-- The conversions that flags and a precision leave. -/
structure Allowed where
  chars : Bool := true
  texts : Bool := true
  decimals : Bool := true
  octals : Bool := true
  hexFractions : Bool := true
  fractions : Bool := true

namespace Allowed

def afterFlag (a : Allowed) (c : Char) : Allowed :=
  match c with
  | '\'' | 'I' => { a with chars := false, texts := false, octals := false, hexFractions := false }
  | '#' => { a with chars := false, texts := false, decimals := false }
  | '0' => { a with chars := false, texts := false }
  | _ => a

def permits (a : Allowed) (conversion : Char) : Bool :=
  match conversion with
  | 'd' | 'i' | 'u' => a.decimals
  | 'o' | 'x' | 'X' => a.octals
  | 'c' => a.chars
  | 's' => a.texts
  | 'a' | 'A' | 'e' | 'E' => a.hexFractions
  | 'f' | 'F' | 'g' | 'G' => a.fractions
  | _ => false

end Allowed

def isFlag (c : Char) : Bool :=
  c == '-' || c == '+' || c == ' ' || c == '#' || c == '0' || c == '\'' || c == 'I'

def isSizeMark (c : Char) : Bool :=
  c == 'l' || c == 'L' || c == 'h' || c == 'j' || c == 't' || c == 'z'

/-- A width or a precision that digits give, or an argument in place of a star. -/
def amount (name : Name) (what : String) (cs : List Char) : Printing (Option Int × List Char) := do
  match cs with
  | '*' :: rest =>
    match ← nextArg? with
    | none => return (some 0, rest)
    | some arg =>
      let n ← readSigned name arg
      if n > Directive.largest || (n < -Directive.largest - 1 && what == "field width") then
        die s!"invalid {what}: {quote arg}"
      return (some n, rest)
  | _ =>
    let digits := cs.takeWhile Char.isDigit
    let n : Option Int := if digits.isEmpty then none else some (Integer.ofDigits 10 digits)
    return (n, cs.drop digits.length)

/-- Writes one value. -/
def convert (name : Name) (d : Directive) (arg : String) : Printing Unit := do
  let field (text : Unit → List Char) : Printing Unit :=
    if d.tooWide then modify fun r => { r with tooWide := true } else put (text ())
  match d.conversion with
  | 's' => field fun _ => d.text arg.toList
  | 'c' => field fun _ => d.char (arg.toList.headD '\x00')
  | 'd' | 'i' =>
    let n ← readSigned name arg
    field fun _ => d.signed n
  | 'o' | 'u' | 'x' | 'X' =>
    let n ← readUnsigned name arg
    field fun _ => d.unsigned n
  | _ =>
    let x ← readReal name arg
    field fun _ => d.real ⟨64, 4⟩ x

/-- Writes the value of the directive at the start of a text, after its percent sign, and gives
what follows it. -/
def directive (name : Name) (cs : List Char) : Printing (List Char) := do
  match cs with
  | '%' :: rest =>
    put ['%']
    return rest
  | 'b' :: rest =>
    if let some arg ← nextArg? then escapedText arg.length arg.toList
    return rest
  | 'q' :: rest =>
    if let some arg ← nextArg? then put (shellQuoted true arg.toList)
    return rest
  | _ =>
    let flags := cs.takeWhile isFlag
    let allowed := flags.foldl Allowed.afterFlag {}
    let d := flags.foldl Directive.setFlag {}
    let (width, rest) ← amount name "field width" (cs.drop flags.length)
    let d := d.setWidth (width.getD 0)
    let (d, allowed, rest) ← match rest with
      | '.' :: rest => do
        let (precision, rest) ← amount name "precision" rest
        pure (d.setPrecision (precision.getD 0), { allowed with chars := false }, rest)
      | _ => pure (d, allowed, rest)
    let rest := rest.dropWhile isSizeMark
    match rest with
    | c :: after =>
      if !allowed.permits c then
        let shown := cs.take (cs.length - after.length)
        die s!"%{String.ofList shown}: invalid conversion specification"
      convert name { d with conversion := c } ((← nextArg?).getD "")
      return after
    | [] => die s!"%{String.ofList cs}: invalid conversion specification"

/-! ## Passes -/

/-- Passes over a format once. -/
def pass (name : Name) : (fuel : Nat) → List Char → Printing Unit
  | 0, _ => pure ()
  | _, [] => pure ()
  | fuel + 1, '%' :: cs => do pass name fuel (← directive name cs)
  | fuel + 1, '\\' :: cs => do pass name fuel (← escape false cs)
  | fuel + 1, c :: cs => do
    put [c]
    pass name fuel cs

/-- Passes over a format until the arguments are used up, or a pass uses none. -/
def passes (name : Name) (format : List Char) : (fuel : Nat) → Printing Unit
  | 0 => pure ()
  | fuel + 1 => do
    let before := (← get).args.length
    pass name format.length format
    let args := (← get).args
    if args.length < before && !args.isEmpty then passes name format fuel
    else if let arg :: _ := args then
      warn name s!"warning: ignoring excess arguments, starting with {quote arg}"

/-- The report of a run that ended with a status. -/
def report (name : Name) (r : Run) (status : Nat) : Report :=
  if r.tooWide then
    let complaint := Report.complaint s!"{name}: write error" 1
    { complaint with writes := r.writes.reverse ++ complaint.writes }
  else { writes := r.writes.reverse, status }

/-- Runs the program under a name. -/
def run (name : Name) (args : List String) : Report :=
  let args := match args with
    | "--" :: rest => rest
    | args => args
  match args with
  | [] => .complaint s!"{name}: missing operand\nTry '{name} --help' for more information." 1
  | format :: args =>
    match passes name format.toList (args.length + 1) { args } with
    | .ok () r => report name r r.status
    | .error .asked r => report name r 0
    | .error (.complaint text) r =>
      let complaint : Write := { complaint := true, text := s!"{name}: {text}\n".toList }
      report name { r with writes := complaint :: r.writes } 1

end CommandScript.Program.Printf
