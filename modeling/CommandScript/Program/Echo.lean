import CommandScript.Program.Basic

/-!
# The program `echo`

Writes its arguments with a blank between them. Options decide whether a newline ends the output
and whether escapes are resolved.
-/

namespace CommandScript.Program.Echo

structure Options where
  newline : Bool := true
  escapes : Bool := false

/-- Takes the options off the arguments. An argument with any other letter is no option. -/
def takeOptions (o : Options) : List String → Options × List String
  | [] => (o, [])
  | arg :: rest =>
    match arg.toList with
    | '-' :: c :: cs =>
      if (c :: cs).all fun c => c == 'n' || c == 'e' || c == 'E' then
        takeOptions ((c :: cs).foldl (fun (o : Options) c =>
          match c with
          | 'n' => { o with newline := false }
          | 'e' => { o with escapes := true }
          | _ => { o with escapes := false }) o) rest
      else (o, arg :: rest)
    | _ => (o, arg :: rest)

/-- Resolves the escapes of at most `fuel` characters, and says whether `\c` ended the text. -/
def unescape : (fuel : Nat) → List Char → List Char × Bool
  | 0, _ => ([], false)
  | _, [] => ([], false)
  | fuel + 1, '\\' :: c :: rest =>
    let put (out : List Char) (rest : List Char) : List Char × Bool :=
      let (more, ends) := unescape fuel rest
      (out ++ more, ends)
    if c == 'c' then ([], true)
    else if c == '0' then
      let digits := takeDigits 8 3 rest
      put [byteOfDigits 8 digits] (rest.drop digits.length)
    else if Integer.isDigitOf 8 c then
      let digits := takeDigits 8 3 (c :: rest)
      put [byteOfDigits 8 digits] ((c :: rest).drop digits.length)
    else if c == 'x' && rest.head?.any (Integer.isDigitOf 16) then
      let digits := takeDigits 16 2 rest
      put [byteOfDigits 16 digits] (rest.drop digits.length)
    else
      match simpleEscape? c with
      | some b => put [b] rest
      | none => put ['\\', c] rest
  | fuel + 1, c :: rest =>
    let (more, ends) := unescape fuel rest
    (c :: more, ends)

def run (args : List String) : Report :=
  let (o, words) := takeOptions {} args
  let text := (" ".intercalate words).toList
  let (out, ends) := if o.escapes then unescape text.length text else (text, false)
  .output (if o.newline && !ends then out ++ ['\n'] else out)

end CommandScript.Program.Echo
