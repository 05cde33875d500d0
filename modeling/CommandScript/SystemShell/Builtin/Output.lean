import CommandScript.Program.Basic
import CommandScript.Program.Directive
import CommandScript.SystemShell.Builtin.Basic

/-!
# Writing

The shell's own `echo` and `printf`. They know fewer escapes than the programs of these names, and
`echo` always resolves them.
-/

namespace CommandScript.SystemShell.Builtin

open CommandScript.Program (simpleEscape? takeDigits byteOfDigits)
open CommandScript.Program (Directive Binary Numeral Precision)

/-- The character of the escape at the start of a text, after its backslash, and what follows it. -/
def escape (cs : List Char) : Char × List Char :=
  match cs with
  | [] => ('\\', [])
  | c :: rest =>
    if Integer.isDigitOf 8 c then
      let digits := takeDigits 8 3 cs
      (byteOfDigits 8 digits, cs.drop digits.length)
    else
      match simpleEscape? c with
      | some d => (d, rest)
      | none => ('\\', cs)

/-- Resolves the escapes of an argument, and says whether `\c` ended it. -/
def unescapeWithin : (fuel : Nat) → List Char → List Char × Bool
  | 0, _ => ([], false)
  | _, [] => ([], false)
  | fuel + 1, '\\' :: cs =>
    match cs with
    | 'c' :: _ => ([], true)
    | _ =>
      let cs := match cs with
        | '0' :: d :: rest => if Integer.isDigitOf 8 d then d :: rest else cs
        | cs => cs
      let (c, rest) := escape cs
      let (more, ends) := unescapeWithin fuel rest
      (c :: more, ends)
  | fuel + 1, c :: cs =>
    let (more, ends) := unescapeWithin fuel cs
    (c :: more, ends)

def unescape (s : String) : List Char × Bool := unescapeWithin s.length s.toList

def putChars (cs : List Char) : Shell Unit := Shell.put (String.ofList cs)

/-! ## `echo` -/

/-- Writes words with a blank between them; `\c` ends all. -/
def echoWords (newline : Bool) : List String → Shell Unit
  | [] => if newline then Shell.put "\n" else return ()
  | word :: rest => do
    let (text, ends) := unescape word
    putChars text
    if ends then return ()
    if rest.isEmpty then
      if newline then Shell.put "\n"
    else
      Shell.put " "
      echoWords newline rest

def echo : Deed := fun _ _ args => do
  match args with
  | "-n" :: words => echoWords false words
  | words => echoWords true words
  return 0

/-! ## `printf` -/

/-- The state of a run: the arguments still to be written, and whether one was bad. -/
structure Formatting where
  args : List String
  status : Nat := 0

abbrev Printing := StateT Formatting Shell

def nextArg? : Printing (Option String) := do
  match (← get).args with
  | [] => return none
  | arg :: args => modifyGet fun f => (some arg, { f with args })

def say (text : List Char) : Printing Unit := (putChars text : Shell Unit)

def blame (message : String) : Printing Unit := do
  (Shell.complain message : Shell Unit)
  modify fun f => { f with status := 1 }

/-- Complains of an argument that is no number, or not only one. -/
def verify (arg : String) (found outOfRange : Bool) (rest : List Char) : Printing Unit := do
  if !rest.isEmpty then
    if found then blame s!"{arg}: not completely converted"
    else blame s!"{arg}: expected numeric value"
  else if outOfRange then blame s!"{arg}: Numerical result out of range"

/-- The number of a character constant. -/
def charConstant? (arg : String) : Option Nat :=
  match arg.toList with
  | q :: rest => if q == '\'' || q == '"' then some (rest.headD '\x00').toNat else none
  | [] => none

/-- Takes an argument that is an integer. -/
def nextInteger {α : Type} (zero : α) (ofChar : Nat → α) (clip : Numeral → α × Bool) :
    Printing α := do
  match ← nextArg? with
  | none => return zero
  | some arg =>
    if let some c := charConstant? arg then return ofChar c
    match Numeral.read? false arg.toList with
    | none =>
      verify arg false false arg.toList
      return zero
    | some n =>
      let (value, outOfRange) := clip n
      verify arg true outOfRange n.rest
      return value

def nextSigned : Printing Int := nextInteger 0 (fun c => (c : Int)) Numeral.toSigned

def nextUnsigned : Printing Nat := nextInteger 0 id Numeral.toUnsigned

def nextReal : Printing Binary := do
  match ← nextArg? with
  | none => return .finite false 0 0
  | some arg =>
    if let some c := charConstant? arg then return .finite false c 0
    match Binary.read? Precision.double arg.toList with
    | none =>
      verify arg false false arg.toList
      return .finite false 0 0
    | some r =>
      verify arg true r.outOfRange r.rest
      return r.number

/-- A width or a precision: digits, or a star for an argument. -/
def amount (cs : List Char) : Printing (Int × List Char) := do
  match cs with
  | '*' :: rest => return (Int32.ofInt (← nextSigned) |>.toInt, rest)
  | _ =>
    let digits := cs.takeWhile Char.isDigit
    return (Integer.ofDigits 10 digits, cs.drop digits.length)

def isFlag (c : Char) : Bool := c == '#' || c == '-' || c == '+' || c == ' ' || c == '0'

/-- Writes the value of a directive, and says whether the output ends with it. -/
def convert (d : Directive) (shown : String) : Printing Bool := do
  if d.tooWide then (Shell.fail "xvsnprintf failed" : Shell Unit)
  match d.conversion with
  | 'b' =>
    let (text, ends) := unescape ((← nextArg?).getD "")
    say (d.text text)
    return ends
  | 'c' => say (d.char (((← nextArg?).getD "").toList.headD '\x00'))
  | 's' => say (d.text ((← nextArg?).getD "").toList)
  | 'd' | 'i' => say (d.signed (← nextSigned))
  | 'o' | 'u' | 'x' | 'X' => say (d.unsigned (← nextUnsigned))
  | 'a' | 'A' | 'e' | 'E' | 'f' | 'F' | 'g' | 'G' => say (d.real ⟨53, 1⟩ (← nextReal))
  | _ => (Shell.fail s!"{shown}: invalid directive" : Shell Unit)
  return false

/-- Writes the value of the directive after a percent sign: what follows it, unless the output ends
with it. -/
def directive (cs : List Char) : Printing (Option (List Char)) := do
  let flags := cs.takeWhile isFlag
  let d := flags.foldl Directive.setFlag {}
  let (width, rest) ← amount (cs.drop flags.length)
  let d := d.setWidth width
  let (d, rest) ← match rest with
    | '.' :: rest => do
      let (precision, rest) ← amount rest
      pure (d.setPrecision precision, rest)
    | _ => pure (d, rest)
  match rest with
  | [] => (Shell.fail "missing format character" : Shell (Option (List Char)))
  | c :: after =>
    let shown := String.ofList ('%' :: cs.take (cs.length - after.length))
    let ends ← convert { d with conversion := c } shown
    return if ends then none else some after

/-- Passes over a format once, and says whether the output goes on. -/
def pass : (fuel : Nat) → List Char → Printing Bool
  | 0, _ => return true
  | _, [] => return true
  | fuel + 1, '%' :: '%' :: cs => do
    say ['%']
    pass fuel cs
  | fuel + 1, '%' :: cs => do
    match ← directive cs with
    | some rest => pass fuel rest
    | none => return false
  | fuel + 1, '\\' :: cs => do
    let (c, rest) := escape cs
    say [c]
    pass fuel rest
  | fuel + 1, c :: cs => do
    say [c]
    pass fuel cs

/-- Passes over a format until the arguments are used up, or a pass uses none. -/
def passes (format : List Char) : (fuel : Nat) → Printing Unit
  | 0 => return ()
  | fuel + 1 => do
    let before := (← get).args.length
    let more ← pass (2 * format.length) format
    let after := (← get).args.length
    if more && after < before && after != 0 then passes format fuel

def printf : Deed := fun _ _ args => do
  let (_, args) ← takeOptions "" args
  match args with
  | [] => Shell.fail "usage: printf format [arg ...]"
  | format :: args =>
    let (_, f) ← (passes format.toList (args.length + 1)).run { args }
    return f.status

end CommandScript.SystemShell.Builtin
