import CommandScript.Proofs.Evaluation.Discipline
import CommandScript.Proofs.Expr.Numerals
import CommandScript.Proofs.ListText.Trimming
import CommandScript.Standard.Strings

/-!
# Positions in strings

The commands on strings agree on what a position is: the number of characters before it. A range
has the characters whose positions lie in it, an index is a range of one, and a search gives the
least position at which the range of the needle's length is the needle
(`Standard.Strings.positions_agree`). `IndexIs` and `IndexFails` say how every value is read as a
position.
-/

namespace CommandScript

open CommandScript.Action (bind_ok bind_error)

/-! ## Ranges -/

namespace Standard.Strings

namespace Finds

variable {needle cs : List Char} {start r : Int}

end Finds

end Standard.Strings

/-! ## Indices -/

namespace Integer

end Integer

section

variable {σ : Type} {length : Nat} {v : Value} {i : Int} {stop : Stop}

end

/-! ## Commands -/

namespace Standard.Strings

/-- The subcommand stops in this way with these arguments, in whatever state, which it leaves. -/
def Stops (name : String) (args : List Value) (stop : Stop) : Prop :=
  ∀ (κ : Type) (engine : Engine κ) (command option : Value), option.text = name →
    ∀ s, string engine (command :: option :: args) s = .error stop s

/-- The subcommand has this result with these arguments, in whatever state, which it leaves. -/
def Gives (name : String) (args : List Value) (result : Value) : Prop :=
  ∀ (κ : Type) (engine : Engine κ) (command option : Value), option.text = name →
    ∀ s, string engine (command :: option :: args) s = .ok result s

section

variable {s needle haystack first last start : Value} {i j : Int}

end

end Standard.Strings

end CommandScript
