import CommandScript.Script.Substitution
import CommandScript.Proofs.Word.Scanner

/-!
# Substitution without fuel

The index of a variable reference is shorter than the text the reference stands in, so the fuel
of `Substitutor.text` never runs out: a text is substituted by substituting its words
(`Substitutor.text_eq`), and what holds of a text whenever it holds of the indices in it holds of
every text (`Substitutor.text_induction`).
-/

namespace CommandScript

/-! ## Indices are shorter -/

theorem Lexeme.length_text_variableRef_lt {cs : List Char}
    (h : (variableRef ('$' :: cs)).kind = .varRef) :
    (variableRef ('$' :: cs)).text.length < (variableRef ('$' :: cs)).taken.length := by
  unfold variableRef at h ⊢
  split at h
  · dsimp only at h ⊢
    split at h
    · cases h
    · simp only [List.length_cons, List.length_append]
      omega
  · dsimp only at h ⊢
    split at h
    · cases h
    · split at h
      · simp
      · cases h
    · simp

theorem Scanner.length_text_quotedLexeme_lt {cs : List Char}
    (h : (quotedLexeme cs).kind = .varRef) :
    (quotedLexeme cs).text.length < cs.length := by
  cases cs with
  | nil => cases h
  | cons c cs =>
    have htiles := tiles_quotedLexeme c cs
    have hle : (quotedLexeme (c :: cs)).taken.length ≤ (c :: cs).length := by
      rw [← htiles.append, List.length_append, htiles.append]
      exact Nat.le_add_right _ _
    refine Nat.lt_of_lt_of_le ?_ hle
    unfold quotedLexeme at h ⊢
    dsimp only at h ⊢
    split
    · rename_i hc
      subst hc
      exact Lexeme.length_text_variableRef_lt h
    · rename_i hc
      rw [if_neg hc] at h
      split at h
      · unfold Lexeme.script Lexeme.delimited at h
        split at h <;> cases h
      · cases h

theorem Scanner.length_text_lt_of_mem {s : Scanner} {w : Word} (hw : w ∈ s.wordsIn .quoted)
    (hkind : w.kind = .varRef) : w.text.length < s.rest.length := by
  induction s using reading_induction .quoted with
  | last s heof =>
    rw [wordsIn_of_eof heof, List.mem_singleton] at hw
    rw [hw, heof] at hkind
    cases hkind
  | more s hne ih =>
    rw [wordsIn_of_ne_eof hne, List.mem_cons] at hw
    rcases hw with rfl | hw
    · show (String.ofList (quotedLexeme s.rest).text).length < s.rest.length
      rw [String.length_ofList]
      exact length_text_quotedLexeme_lt hkind
    · exact Nat.lt_trans (ih hw) (length_rest_next_lt hne)

theorem length_text_lt_of_mem_words {text : String} {w : Word} (hw : w ∈ words .quoted text)
    (hkind : w.kind = .varRef) : w.text.length < text.length := by
  rw [← Scanner.wordsIn_ofString] at hw
  exact Scanner.length_text_lt_of_mem hw hkind

theorem Name.length_index_lt {name array index : String}
    (h : splitIndex name = (array, some index)) : index.length < name.length := by
  unfold splitIndex at h
  dsimp only at h
  split at h
  · rename_i c after _ hdrop
    split at h
    · cases h
      have hsuffix := (List.dropWhile_suffix (l := name.toList) (· != '(')).length_le
      rw [hdrop, String.length_toList, List.length_cons] at hsuffix
      rw [String.length_ofList, List.length_dropLast]
      omega
    · cases h
  · cases h

namespace Substitutor

variable {σ : Type} (sub : Substitutor σ)

/-- Whatever holds of a text if it holds of the indices of its references holds of every text. -/
theorem text_induction {motive : String → Prop}
    (step : ∀ text, (∀ w ∈ words .quoted text, w.kind = .varRef →
      ∀ array index, Name.splitIndex w.text = (array, some index) → motive index) → motive text)
    (text : String) : motive text := by
  induction hn : text.length using Nat.strongRecOn generalizing text with
  | _ n ih =>
    refine step text fun w hw hkind array index hsplit => ih index.length ?_ index rfl
    have hword := length_text_lt_of_mem_words hw hkind
    have hindex := Name.length_index_lt hsplit
    omega

/-! ## Fuel -/

theorem variableWith_congr {text text' : String → Action σ Value} {name : String}
    (h : ∀ array index, Name.splitIndex name = (array, some index) → text index = text' index) :
    sub.variableWith text name = sub.variableWith text' name := by
  unfold variableWith
  split
  · rename_i array index hsplit
    rw [h array index hsplit]
  · rfl

theorem pieces_congr {reference reference' : String → Action σ Value} {ws : List Word}
    (h : ∀ w ∈ ws, w.kind = .varRef → reference w.text = reference' w.text) :
    sub.pieces reference ws = sub.pieces reference' ws := by
  induction ws with
  | nil => rfl
  | cons w ws ih =>
    have ih := ih fun w hw => h w (List.mem_cons_of_mem _ hw)
    unfold pieces
    rw [ih]
    split <;> try rfl
    rename_i hkind
    rw [h w List.mem_cons_self hkind]

theorem textWithin_eq {fuel fuel' : Nat} {text : String} (h : text.length < fuel)
    (h' : text.length < fuel') : sub.textWithin fuel text = sub.textWithin fuel' text := by
  induction text using text_induction generalizing fuel fuel' with
  | step text ih =>
    obtain ⟨fuel, rfl⟩ : ∃ n, fuel = n + 1 := ⟨fuel - 1, by omega⟩
    obtain ⟨fuel', rfl⟩ : ∃ n, fuel' = n + 1 := ⟨fuel' - 1, by omega⟩
    rw [textWithin, textWithin]
    rw [sub.pieces_congr fun w hw hkind => sub.variableWith_congr fun array index hsplit => ?_]
    have hword := length_text_lt_of_mem_words hw hkind
    have hindex := Name.length_index_lt hsplit
    exact ih w hw hkind array index hsplit (by omega) (by omega)

/-- A text stands for what its words stand for, joined. -/
theorem text_eq (t : String) :
    sub.text t = return joinPieces (← sub.pieces sub.reference (words .quoted t)) := by
  rw [text, textWithin]
  rw [sub.pieces_congr fun w hw hkind => sub.variableWith_congr fun array index hsplit => ?_]
  · rfl
  · have hword := length_text_lt_of_mem_words hw hkind
    have hindex := Name.length_index_lt hsplit
    exact sub.textWithin_eq (by omega) (Nat.lt_succ_self _)

end Substitutor

end CommandScript
