import CommandScript.Script.Substitution

/-!
# Commands

A command is a row of substituted words. Commands are built one at a time from the words of a
script: `Builder.next` takes words through the next separator and substitutes them in turn. A fault
in the middle of a command leaves the words after it to be built next; an unterminated word is the
last of its script.
-/

namespace CommandScript

structure Command where
  /-- The words; the first is the name. -/
  words : List Value
  /-- The text the command was built from, before substitution. -/
  source : String
  /-- The line on which it starts. -/
  line : Nat
  deriving Inhabited

/-- A command under construction. -/
structure Draft where
  words : List Value := []
  /-- The pieces of the word that has no blank after it yet. -/
  pieces : List Value := []
  /-- The source so far and its line, once there is a word. -/
  begun : Option (String × Nat) := none
  /-- The blanks since the last word. -/
  gap : String := ""
  deriving Inhabited

namespace Draft

/-- Ends the word in progress, if there is one. -/
def closeWord (d : Draft) : Draft :=
  if d.pieces.isEmpty then d else { d with words := d.words ++ [joinPieces d.pieces], pieces := [] }

/-- Ends the word in progress with blanks. -/
def space (d : Draft) (blanks : String) : Draft :=
  let d := d.closeWord
  { d with gap := d.gap ++ blanks }

/-- Adds a piece, read from `w`. -/
def push (d : Draft) (w : Word) (v : Value) : Draft :=
  let begun :=
    match d.begun with
    | some (source, line) => (source ++ d.gap ++ w.source, line)
    | none => (w.source, w.line)
  { d with pieces := d.pieces ++ [v], begun := some begun, gap := "" }

/-- The command, if any word was read. -/
def finish (d : Draft) : Option Command :=
  d.begun.map fun (source, line) => { words := d.closeWord.words, source, line }

end Draft

/-- What one step of building gives. -/
structure Built (σ : Type) where
  /-- A command, nothing at the end of the script, or what stopped the step. -/
  result : Except Stop (Option Command)
  /-- The words still to be read. -/
  rest : List Word
  state : σ

namespace Builder

variable {σ : Type}

/-- Continues the command `d` with the given words. -/
def nextFrom (sub : Substitutor σ) : Draft → List Word → σ → Built σ
  | d, [], s => ⟨.ok d.finish, [], s⟩
  | d, w :: rest, s =>
    match w.kind with
    | .eof => ⟨.ok d.finish, [], s⟩
    | .eol =>
      match d.finish with
      | some command => ⟨.ok (some command), rest, s⟩
      | none => nextFrom sub {} rest s
    | .blank => nextFrom sub (d.space w.source) rest s
    | .comment => nextFrom sub d rest s
    | .illegal => ⟨.error (.raised (.ofFault w.unterminated)), [], s⟩
    | _ =>
      match sub.word w s with
      | .ok v s => nextFrom sub (d.push w v) rest s
      | .error stop s => ⟨.error stop, rest, s⟩

/-- Builds the next command of a script. -/
def next (sub : Substitutor σ) (script : List Word) (s : σ) : Built σ := nextFrom sub {} script s

/-- Builds to the end of a script, going on after faults, in at most `fuel` steps. -/
def allWithin (sub : Substitutor σ) : Nat → List Word → σ → List (Except Stop Command) × σ
  | 0, _, s => ([], s)
  | fuel + 1, script, s =>
    let built := next sub script s
    match built.result with
    | .ok none => ([], built.state)
    | .ok (some command) =>
      (allWithin sub fuel built.rest built.state).map (.ok command :: ·) id
    | .error stop => (allWithin sub fuel built.rest built.state).map (.error stop :: ·) id

/-- Builds to the end of a script, going on after faults. Each step takes a word. -/
def all (sub : Substitutor σ) (script : String) (s : σ) : List (Except Stop Command) × σ :=
  let ws := words .command script
  allWithin sub (ws.length + 1) ws s

end Builder

end CommandScript
