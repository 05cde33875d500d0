import CommandScript.Action
import CommandScript.Name

/-!
# Substitution

Replacing the variable references and nested scripts of a text by values. What a variable or a
script stands for is asked of a `Substitutor`. A word made of one piece is the piece's value,
whatever its representation; several pieces are joined as text. Values are never read again.
-/

namespace CommandScript

structure Substitutor (σ : Type) where
  /-- The value of a variable; an index in the name has been substituted already. -/
  resolve : String → Action σ Value
  /-- The result of a nested script. -/
  execute : String → Action σ Value

/-- A word that nothing ends. -/
structure Unterminated where
  reason : String
  line : Nat
  column : Nat
  deriving DecidableEq, Repr

instance : Fault Unterminated where
  kind _ := .parsing
  message f := s!"{f.reason} at line {f.line} column {f.column}"

def Word.unterminated (w : Word) : Unterminated := ⟨w.text, w.line, w.column⟩

/-- The value that pieces side by side make. -/
def joinPieces : List Value → Value
  | [v] => v
  | vs => .string (String.join (vs.map Value.text))

namespace Substitutor

variable {σ : Type} (sub : Substitutor σ)

/-- The value of a variable reference, `text` giving the meaning of the index. -/
def variableWith (text : String → Action σ Value) (name : String) : Action σ Value :=
  match Name.splitIndex name with
  | (array, some index) => do
    let i ← text index
    sub.resolve (Name.element array i.text)
  | (_, none) => sub.resolve name

/-- The values of the words of quoted text, `reference` giving those of variables. -/
def pieces (reference : String → Action σ Value) : List Word → Action σ (List Value)
  | [] => pure []
  | w :: rest =>
    match w.kind with
    | .eof => pure []
    | .illegal => Action.fail w.unterminated
    | .varRef => do
      let v ← reference w.text
      return v :: (← pieces reference rest)
    | .script => do
      let v ← sub.execute w.text
      return v :: (← pieces reference rest)
    | _ => return .string w.text :: (← pieces reference rest)

/-- Substitutes in a text whose references are nested less than `fuel` deep. -/
def textWithin : Nat → String → Action σ Value
  | 0, _ => Action.halt .outOfFuel
  | fuel + 1, text =>
    return joinPieces (← sub.pieces (sub.variableWith (textWithin fuel)) (words .quoted text))

/-- Substitutes in a text, as in the content of a quoted string. An index is shorter than the text
it stands in, so the length bounds the nesting. -/
def text (t : String) : Action σ Value := sub.textWithin (t.length + 1) t

/-- The value of a variable reference, after substitution in its index. -/
def reference (name : String) : Action σ Value := sub.variableWith sub.text name

/-- The value of a word of a script. -/
def word (w : Word) : Action σ Value :=
  match w.kind with
  | .varRef => sub.reference w.text
  | .script => sub.execute w.text
  | .quote => sub.text w.text
  | _ => pure (.string w.text)

end Substitutor

end CommandScript
