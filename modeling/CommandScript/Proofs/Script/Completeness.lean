import CommandScript.Proofs.Script.SinglePass
import CommandScript.Proofs.Word.Endings

/-!
# Completeness and building

`isComplete` reads the words of a script and does not look into them. Building does: it reads
quoted text and the indices of references again, in another mode. So a script builds without a
syntax error just if it is complete and nothing inside its quotes and indices is left open
(`Builder.no_syntax_error_iff`). What the reader of a quote has seen to is that brackets close; what
it passes over is references.
-/

namespace CommandScript

/-! ## Nothing left open -/

/-- No word of a quoted text is left open, and none in the indices of its references. -/
inductive ClosedText : String → Prop where
  | of_words {text : String} (legal : ∀ w ∈ words .quoted text, w.kind ≠ .illegal)
      (indices : ∀ w ∈ words .quoted text, w.kind = .varRef → ∀ array index,
        Name.splitIndex w.text = (array, some index) → ClosedText index) : ClosedText text

/-- Nothing is left open in the index of a variable name, if it has one. -/
def ClosedName (name : String) : Prop :=
  ∀ array index, Name.splitIndex name = (array, some index) → ClosedText index

theorem closedText_iff {text : String} :
    ClosedText text ↔
      ∀ w ∈ words .quoted text, w.kind ≠ .illegal ∧ (w.kind = .varRef → ClosedName w.text) :=
  ⟨fun ⟨legal, indices⟩ w hw => ⟨legal w hw, indices w hw⟩,
    fun h => .of_words (fun w hw => (h w hw).1) fun w hw => (h w hw).2⟩

/-- Nothing is left open inside a word of a script. -/
def Word.Closed (w : Word) : Prop :=
  (w.kind = .quote → ClosedText w.text) ∧ (w.kind = .varRef → ClosedName w.text)

/-! ## Substitution -/

namespace Substitutor

variable {σ α β : Type} {P Q : Prop}

/-- The action gives a value if `P` holds, and stops with a syntax error otherwise. -/
def FaultsUnless (P : Prop) (act : Action σ α) : Prop :=
  ∀ s, (P ∧ ∃ v s', act s = .ok v s') ∨
    (¬ P ∧ ∃ (f : Unterminated) (s' : σ), act s = .error (.raised (.ofFault f)) s')

namespace FaultsUnless

theorem of_ok {act : Action σ α} (h : ∀ s, ∃ v s', act s = .ok v s') (hP : P) :
    FaultsUnless P act := fun s => .inl ⟨hP, h s⟩

theorem pure (a : α) (hP : P) : FaultsUnless P (Pure.pure a : Action σ α) :=
  of_ok (fun s => ⟨a, s, rfl⟩) hP

theorem fail (f : Unterminated) (hP : ¬ P) : FaultsUnless P (Action.fail f : Action σ α) :=
  fun s => .inr ⟨hP, f, s, rfl⟩

theorem bind {x : Action σ α} {f : α → Action σ β} (hx : FaultsUnless P x)
    (hf : ∀ a, FaultsUnless Q (f a)) : FaultsUnless (P ∧ Q) (x >>= f) := by
  intro s
  have hrun : (x >>= f) s = EStateM.bind x f s := rfl
  rw [hrun, EStateM.bind]
  rcases hx s with ⟨hP, v, s', hv⟩ | ⟨hP, g, s', hg⟩
  · rw [hv]
    exact (hf v s').imp (fun h => ⟨⟨hP, h.1⟩, h.2⟩) fun h => ⟨fun hPQ => h.1 hPQ.2, h.2⟩
  · rw [hg]
    exact .inr ⟨fun h => hP h.1, g, s', rfl⟩

/-- What is done with the value does not fail. -/
theorem map {x : Action σ α} {f : α → β} (hx : FaultsUnless P x) :
    FaultsUnless P (do return f (← x)) := by
  have hbind := hx.bind fun a => FaultsUnless.pure (f a) trivial
  rwa [and_true] at hbind

theorem congr {act : Action σ α} (h : FaultsUnless P act) (hPQ : P ↔ Q) : FaultsUnless Q act := by
  rwa [propext hPQ] at h

end FaultsUnless

variable {sub : Substitutor σ} (hsub : sub.NeverFails)

include hsub

theorem faultsUnless_variableWith {text : String → Action σ Value} {name : String}
    (htext : ∀ array index, Name.splitIndex name = (array, some index) →
      FaultsUnless (ClosedText index) (text index)) :
    FaultsUnless (ClosedName name) (sub.variableWith text name) := by
  unfold variableWith
  split
  · rename_i array index hsplit
    have hbind := (htext array index hsplit).bind fun i =>
      FaultsUnless.of_ok (hsub.resolve (Name.element array i.text)) trivial
    refine hbind.congr ⟨fun h array' index' hsplit' => ?_, fun h => ⟨h array index hsplit, trivial⟩⟩
    cases hsplit.symm.trans hsplit'
    exact h.1
  · rename_i array hsplit
    exact .of_ok (hsub.resolve name) fun array' index' hsplit' => by
      cases hsplit.symm.trans hsplit'

/-- The pieces of quoted text, up to its end. -/
theorem faultsUnless_pieces {reference : String → Action σ Value} {ws : List Word} {last : Word}
    (hlast : last.kind = .eof) (hws : ∀ w ∈ ws, w.kind ≠ .eof)
    (href : ∀ w ∈ ws, w.kind = .varRef → FaultsUnless (ClosedName w.text) (reference w.text)) :
    FaultsUnless (∀ w ∈ ws, w.kind ≠ .illegal ∧ (w.kind = .varRef → ClosedName w.text))
      (sub.pieces reference (ws ++ [last])) := by
  induction ws with
  | nil =>
    rw [List.nil_append, pieces, hlast]
    exact .pure [] fun w hw => absurd hw List.not_mem_nil
  | cons w ws ih =>
    have ih := ih (fun w hw => hws w (List.mem_cons_of_mem _ hw))
      fun w hw => href w (List.mem_cons_of_mem _ hw)
    rw [List.cons_append, pieces]
    split
    · rename_i hkind
      exact absurd hkind (hws w List.mem_cons_self)
    · rename_i hkind
      exact .fail _ fun h => (h w List.mem_cons_self).1 hkind
    · rename_i hkind
      refine ((href w List.mem_cons_self hkind).bind fun v => ih.map).congr ?_
      simp [hkind]
    · rename_i hkind
      refine (FaultsUnless.bind (.of_ok (hsub.execute w.text) trivial) fun v => ih.map).congr ?_
      simp [hkind]
    · rename_i hillegal href hscript
      refine ih.map.congr ?_
      rw [List.forall_mem_cons]
      exact (and_iff_right ⟨hillegal, fun h => absurd h href⟩).symm

/-- Substitution in a text fails just if something in it is left open. -/
theorem faultsUnless_text (text : String) : FaultsUnless (ClosedText text) (sub.text text) := by
  induction text using text_induction with
  | step text ih =>
    obtain ⟨ws, last, hws, hlast, hnone⟩ := Scanner.wordsIn_eq_append .quoted (.ofString text)
    rw [Scanner.wordsIn_ofString] at hws
    have href : ∀ w ∈ ws, w.kind = .varRef →
        FaultsUnless (ClosedName w.text) (sub.reference w.text) :=
      fun w hw hkind => faultsUnless_variableWith hsub
        (ih w (hws ▸ List.mem_append_left _ hw) hkind)
    rw [text_eq, closedText_iff, hws]
    refine (faultsUnless_pieces hsub hlast hnone href).map.congr ?_
    rw [List.forall_mem_append, List.forall_mem_singleton]
    exact (and_iff_left (by simp [hlast])).symm

theorem faultsUnless_word (w : Word) : FaultsUnless w.Closed (sub.word w) := by
  unfold word
  split
  · rename_i hkind
    refine (faultsUnless_variableWith hsub fun _ index _ => faultsUnless_text hsub index).congr ?_
    simp [Word.Closed, hkind]
  · rename_i hkind
    exact .of_ok (hsub.execute w.text) (by simp [Word.Closed, hkind])
  · rename_i hkind
    refine (faultsUnless_text hsub w.text).congr ?_
    simp [Word.Closed, hkind]
  · rename_i href hscript hquote
    exact .pure _ ⟨fun h => absurd h hquote, fun h => absurd h href⟩

end Substitutor

/-! ## Inside a quote -/

namespace Lexeme

/-- The text is read to its end as the inside of a quote, from where some brackets are open. -/
def InQuote (text : List Char) : Prop :=
  ∃ depth after, quoted depth (text ++ '"' :: after) = .ok (text, after)

theorem eq_ok_of_map (front : List Char) {inner rest : List Char}
    {x : Except String (List Char × List Char)}
    (h : x.map (·.map (front ++ ·) id) = .ok (front ++ inner, rest)) : x = .ok (inner, rest) := by
  obtain ⟨found, rfl, hfound⟩ := exists_of_map_eq_ok h
  simpa [Prod.ext_iff] using hfound

theorem quoted_of_escape {depth : Nat} {c : Char} {cs inner rest : List Char}
    (h : quoted depth ('\\' :: c :: cs) = .ok ('\\' :: c :: inner, rest)) :
    quoted depth cs = .ok (inner, rest) := by
  rw [quoted] at h
  exact eq_ok_of_map ['\\', c] h

/-- Inside brackets only brackets count. -/
theorem quoted_of_cons_inside {depth : Nat} {c : Char} {cs inner rest : List Char} (hc : c ≠ '\\')
    (h : quoted (depth + 1) (c :: cs) = .ok (inner, rest)) :
    ∃ tail, inner = c :: tail ∧
      quoted (if c = '[' then depth + 2 else if c = ']' then depth else depth + 1) cs =
        .ok (tail, rest) := by
  have hmap : (quoted (if c = '[' then depth + 2 else if c = ']' then depth else depth + 1) cs).map
      (·.map (c :: ·) id) = .ok (inner, rest) := by
    rw [← h, quoted]
    · split
      · rfl
      split <;> rfl
    · exact fun heq => absurd heq hc
    · exact fun _ _ heq => absurd heq hc
  obtain ⟨found, hin, heq⟩ := exists_of_map_eq_ok hmap
  cases heq
  exact ⟨found.1, rfl, hin⟩

theorem quoted_of_cons {depth : Nat} {c : Char} {cs inner rest : List Char} (hc : c ≠ '\\')
    (h : quoted depth (c :: cs) = .ok (c :: inner, rest)) :
    ∃ depth', quoted depth' cs = .ok (inner, rest) := by
  cases depth with
  | zero =>
    rw [quoted] at h
    · split at h
      · cases h
      split at h
      · exact ⟨1, eq_ok_of_map [c] h⟩
      · exact ⟨0, eq_ok_of_map [c] h⟩
    · exact fun heq => absurd heq hc
    · exact fun _ _ heq => absurd heq hc
  | succ depth =>
    obtain ⟨tail, heq, h⟩ := quoted_of_cons_inside hc h
    cases heq
    exact ⟨_, h⟩

theorem quoted_of_bracket {depth : Nat} {cs inner rest : List Char}
    (h : quoted depth ('[' :: cs) = .ok ('[' :: inner, rest)) :
    quoted (depth + 1) cs = .ok (inner, rest) := by
  cases depth with
  | zero => exact eq_ok_of_map ['['] (by simpa [quoted] using h)
  | succ depth =>
    obtain ⟨tail, heq, h⟩ := quoted_of_cons_inside (by decide) h
    cases heq
    exact h

theorem InQuote.of_append {front rest : List Char} (hfront : escaping front = false)
    (h : InQuote (front ++ rest)) : InQuote rest := by
  obtain ⟨depth, after, h⟩ := h
  rw [List.append_assoc] at h
  fun_induction escaping front generalizing depth with
  | case1 => exact ⟨depth, after, h⟩
  | case2 => cases hfront
  | case3 c cs ih => exact ih hfront depth (quoted_of_escape h)
  | case4 c cs hlast hesc ih =>
    obtain ⟨depth', h⟩ := quoted_of_cons (ne_backslash hlast hesc) h
    exact ih hfront depth' h

/-- A bracket that opens inside a quote closes there. -/
theorem isSome_enclosed {depth outer : Nat} {cs after : List Char}
    (h : quoted (outer + depth + 1) (cs ++ '"' :: after) = .ok (cs, after)) :
    (enclosed '[' ']' depth cs).isSome = true := by
  fun_induction enclosed '[' ']' depth cs with
  | case1 depth =>
    obtain ⟨tail, heq, -⟩ := quoted_of_cons_inside (by decide) h
    cases heq
  | case2 depth =>
    rw [List.cons_append, List.nil_append, quoted] at h
    obtain ⟨found, -, heq⟩ := exists_of_map_eq_ok h
    cases heq
  | case3 depth c cs ih =>
    rw [Option.isSome_map]
    exact ih (quoted_of_escape h)
  | case4 depth cs hlast hesc ih =>
    obtain ⟨tail, heq, h⟩ := quoted_of_cons_inside (by decide) h
    cases heq
    rw [Option.isSome_map]
    exact ih h
  | case5 cs hlast hesc hopen => rfl
  | case6 cs depth hlast hesc hopen ih =>
    obtain ⟨tail, heq, h⟩ := quoted_of_cons_inside (by decide) h
    cases heq
    rw [Option.isSome_map]
    exact ih h
  | case7 depth c cs hlast hesc hopen hclose ih =>
    obtain ⟨tail, heq, h⟩ := quoted_of_cons_inside (ne_backslash hlast hesc) h
    cases heq
    rw [if_neg hopen, if_neg hclose] at h
    rw [Option.isSome_map]
    exact ih h

/-! What a word of quoted text takes does not end in a backslash that would escape the rest. -/

theorem escaping_name (cs : List Char) : escaping (nameRun cs).1 = false := by
  fun_induction nameRun cs with
  | case1 cs ih => exact ih
  | case2 c cs _ hname ih =>
    have hc : c ≠ '\\' := by
      rintro rfl
      exact absurd hname (by decide)
    rw [← ih]
    exact escaping_cons hc _
  | case3 | case4 => rfl

theorem escaping_taken_variableRef {cs : List Char} (h : (variableRef ('$' :: cs)).rest ≠ []) :
    escaping (variableRef ('$' :: cs)).taken = false := by
  have href := reference cs
  generalize variableRef ('$' :: cs) = lex at h href
  cases href with
  | openBrace | openIndex => exact absurd rfl h
  | alone => rfl
  | braced => exact escaping_append_cons ('$' :: '{' :: _) (by decide) []
  | plain _ hrun _ =>
    have hname := escaping_name cs
    rw [hrun] at hname
    exact (escaping_cons (by decide) _).trans hname
  | @element c name inner index rest =>
    have happend : '$' :: c :: (name ++ '(' :: (index ++ [')'])) =
        ('$' :: c :: (name ++ '(' :: index)) ++ [')'] := by simp
    dsimp only
    rw [happend]
    exact escaping_append_cons _ (by decide) []

theorem escaping_taken_script {cs : List Char} (h : (script ('[' :: cs)).rest ≠ []) :
    escaping (script ('[' :: cs)).taken = false := by
  unfold script delimited at h ⊢
  split at h
  · exact escaping_append_cons ('[' :: _) (by decide) []
  · exact absurd rfl h

theorem escaping_taken_literalRun {joining : Bool} {cs : List Char}
    (h : (literalRun Scanner.endsQuotedLiteral joining cs).rest ≠ []) :
    escaping (literalRun Scanner.endsQuotedLiteral joining cs).taken = false := by
  fun_induction literalRun Scanner.endsQuotedLiteral joining cs with
  | case1 | case3 | case8 => rfl
  | case2 => exact absurd rfl h
  | case4 joining cs _ ih | case5 joining c cs _ _ _ ih => exact ih h
  | case6 joining c cs hc he ih =>
    have hplain : c ≠ '\\' := by
      rintro rfl
      cases he
    have hends : Scanner.endsQuotedLiteral c = false := by
      cases hstop : Scanner.endsQuotedLiteral c with
      | false => rfl
      | true =>
        obtain rfl | rfl : c = '$' ∨ c = '[' := by simpa [Scanner.endsQuotedLiteral] using hstop
        all_goals cases he
    have hrun : literalRun Scanner.endsQuotedLiteral false (c :: cs) =
        (literalRun Scanner.endsQuotedLiteral false cs).after [c] [c] := by
      simp [literalRun, hplain, hends]
    have ih := ih h
    rw [hrun] at ih ⊢
    have htaken :
        escaping (c :: (literalRun Scanner.endsQuotedLiteral false cs).taken) = false := ih
    rw [escaping_cons hplain] at htaken
    exact htaken
  | case7 joining c cs hlast hesc _ ih | case9 joining c cs hlast hesc _ _ ih =>
    exact (escaping_cons (ne_backslash hlast hesc) _).trans (ih h)

end Lexeme

namespace Scanner

open Lexeme

/-- A word of the inside of a quote leaves the inside of a quote. -/
theorem inQuote_rest_quotedLexeme {cs : List Char} (h : InQuote cs) :
    InQuote (quotedLexeme cs).rest := by
  by_cases hrest : (quotedLexeme cs).rest = []
  · rw [hrest]
    exact ⟨0, [], rfl⟩
  cases cs with
  | nil => exact absurd rfl hrest
  | cons c cs =>
    rw [← (tiles_quotedLexeme c cs).append] at h
    refine h.of_append ?_
    unfold quotedLexeme at hrest ⊢
    dsimp only at hrest ⊢
    split
    · rename_i hc
      subst hc
      exact escaping_taken_variableRef hrest
    rename_i hdollar
    rw [if_neg hdollar] at hrest
    split
    · rename_i hc
      subst hc
      exact escaping_taken_script hrest
    · rename_i hbracket
      rw [if_neg hbracket] at hrest
      exact escaping_taken_literalRun hrest

/-- Inside a quote only references are left open. -/
theorem head?_of_illegal_quotedLexeme {cs : List Char} (h : InQuote cs)
    (hillegal : (quotedLexeme cs).kind = .illegal) : (quotedLexeme cs).taken.head? = some '$' := by
  cases cs with
  | nil => cases hillegal
  | cons c cs =>
    unfold quotedLexeme at hillegal ⊢
    dsimp only at hillegal ⊢
    split at hillegal
    · rename_i hc
      subst hc
      rw [if_pos rfl]
      have htiles := tiles_variableRef cs
      obtain ⟨d, taken, htaken⟩ := List.exists_cons_of_ne_nil htiles.taken_ne_nil
      have happend := htiles.append
      rw [htaken] at happend ⊢
      exact congrArg some (List.cons.inj happend).1
    split at hillegal
    · rename_i hc
      subst hc
      obtain ⟨depth, after, h⟩ := h
      have hclosed : (enclosed '[' ']' 0 cs).isSome = true := isSome_enclosed (quoted_of_bracket h)
      obtain ⟨found, hfound⟩ := Option.isSome_iff_exists.1 hclosed
      simp [script, delimited, hfound] at hillegal
    · cases hillegal

/-- The text of a quoted word of a script is the inside of a quote. -/
theorem inQuote_commandLexeme {start : Bool} {cs : List Char}
    (h : (commandLexeme start cs).kind = .quote) : InQuote (commandLexeme start cs).text := by
  rcases cs with _ | ⟨c, cs⟩
  · cases h
  obtain rfl := (begins_of_kind start c cs).2.2 h
  have hlex : commandLexeme start ('"' :: cs) = quote ('"' :: cs) := rfl
  rw [hlex] at h ⊢
  unfold quote at h ⊢
  split at h
  · rename_i inner rest hin
    have hcs : inner ++ '"' :: rest = cs := eq_of_quoted hin
    exact ⟨0, rest, hcs ▸ hin⟩
  · cases h

end Scanner

theorem head?_source_of_illegal {script : String} {w v : Word} (hw : w ∈ words .command script)
    (hkind : w.kind = .quote) (hv : v ∈ words .quoted w.text) (hillegal : v.kind = .illegal) :
    v.source.toList.head? = some '$' := by
  have hquote : Lexeme.InQuote w.text.toList := by
    rw [← Scanner.wordsIn_ofString] at hw
    refine Scanner.forall_mem_wordsIn (motive := fun _ => True)
      (P := fun w => w.kind = .quote → Lexeme.InQuote w.text.toList)
      (fun s _ => ⟨fun h => ?_, trivial⟩) trivial w hw hkind
    show Lexeme.InQuote (String.ofList (Scanner.commandLexeme s.atCommandStart s.rest).text).toList
    rw [String.toList_ofList]
    exact Scanner.inQuote_commandLexeme h
  rw [← Scanner.wordsIn_ofString] at hv
  refine Scanner.forall_mem_wordsIn (motive := fun s => Lexeme.InQuote s.rest)
    (P := fun v => v.kind = .illegal → v.source.toList.head? = some '$')
    (fun s h => ⟨fun hill => ?_, ?_⟩) hquote v hv hillegal
  · show (String.ofList (Scanner.quotedLexeme s.rest).taken).toList.head? = some '$'
    rw [String.toList_ofList]
    exact Scanner.head?_of_illegal_quotedLexeme h hill
  · exact Scanner.inQuote_rest_quotedLexeme h

/-! ## Building -/

namespace Builder

variable {σ : Type} {sub : Substitutor σ}

/-- The result is a syntax error. -/
def IsSyntaxError (result : Except Stop Command) : Prop :=
  ∃ e, result = .error (.raised e) ∧ e.kind? = some .parsing

theorem isSyntaxError_unterminated (f : Unterminated) :
    IsSyntaxError (.error (.raised (.ofFault f))) := ⟨_, rfl, rfl⟩

theorem not_isSyntaxError_ok (c : Command) : ¬ IsSyntaxError (.ok c) := by
  rintro ⟨e, h, -⟩
  cases h

theorem stream_no_syntax_error_iff (hsub : sub.NeverFails) {ws : List Word} {last : Word}
    (hlast : last.kind = .eof) (hws : ∀ w ∈ ws, w.kind ≠ .eof) (d : Draft) (s : σ) :
    (∀ r ∈ (stream sub d (ws ++ [last]) s).1, ¬ IsSyntaxError r) ↔
      ∀ w ∈ ws, w.kind ≠ .illegal ∧ w.Closed := by
  have hfinish : ∀ d : Draft, ∀ r ∈ d.finish.toList.map (.ok : Command → Except Stop Command),
      ¬ IsSyntaxError r := by
    intro d r hr
    obtain ⟨c, -, rfl⟩ := List.mem_map.1 hr
    exact not_isSyntaxError_ok c
  induction ws generalizing d s with
  | nil =>
    rw [List.nil_append, stream_eof hlast]
    simpa using hfinish d
  | cons w ws ih =>
    have ih := fun d s => ih (fun w hw => hws w (List.mem_cons_of_mem _ hw)) d s
    -- A word that is neither illegal nor a piece says nothing.
    have hskip : w.kind ≠ .illegal → w.kind.isPiece = false →
        ((∀ v ∈ w :: ws, v.kind ≠ .illegal ∧ v.Closed) ↔
          ∀ v ∈ ws, v.kind ≠ .illegal ∧ v.Closed) := by
      intro hillegal hpiece
      rw [List.forall_mem_cons]
      refine and_iff_right ⟨hillegal, fun h => ?_, fun h => ?_⟩ <;>
        simp [h, WordKind.isPiece] at hpiece
    rw [List.cons_append]
    rcases w.kind.role with h | h | h | h | h | h
    · exact absurd h (hws w List.mem_cons_self)
    · rw [hskip (by simp [h]) (by simp [h, WordKind.isPiece]), stream_eol h]
      refine Iff.trans ?_ (ih {} s)
      simp only [Prod.map, List.forall_mem_append]
      exact and_iff_right (hfinish d)
    · rw [hskip (by simp [h]) (by simp [h, WordKind.isPiece]), stream_blank h]
      exact ih _ s
    · rw [hskip (by simp [h]) (by simp [h, WordKind.isPiece]), stream_comment h]
      exact ih d s
    · rw [stream_illegal h]
      simp [h, isSyntaxError_unterminated]
    · rw [List.forall_mem_cons]
      rcases Substitutor.faultsUnless_word hsub w s with ⟨hclosed, v, s', hv⟩ | ⟨hopen, f, s', hf⟩
      · rw [stream_ok h hv]
        refine (ih _ s').trans ?_
        exact (and_iff_right ⟨WordKind.ne_illegal_of_isPiece h, hclosed⟩).symm
      · rw [stream_error h hf]
        simp [hopen, isSyntaxError_unterminated]

/-- A script builds without a syntax error just if it is complete and nothing is left open inside
its quotes and indices. Inside a quote that is closed only references can be. -/
theorem no_syntax_error_iff (hsub : sub.NeverFails) (script : String) (s : σ) :
    ((∀ r ∈ (all sub script s).1, ¬ IsSyntaxError r) ↔
      isComplete script = true ∧ ∀ w ∈ words .command script, w.Closed) ∧
    ∀ w ∈ words .command script, w.kind = .quote → ∀ v ∈ words .quoted w.text, v.kind = .illegal →
      v.source.toList.head? = some '$' := by
  refine ⟨?_, fun w hw hkind v hv hillegal => head?_source_of_illegal hw hkind hv hillegal⟩
  obtain ⟨ws, last, hws, hlast, hnone⟩ := Scanner.wordsIn_eq_append .command (.ofString script)
  rw [Scanner.wordsIn_ofString] at hws
  have hend : last.kind ≠ .illegal ∧ last.Closed := by simp [Word.Closed, hlast]
  have hcomplete : isComplete script = true ↔ ∀ w ∈ words .command script, w.kind ≠ .illegal := by
    simp [isComplete]
  rw [all_eq_stream, hcomplete, ← forall₂_and, hws, List.forall_mem_append,
    List.forall_mem_singleton, and_iff_left hend]
  exact stream_no_syntax_error_iff hsub hlast hnone {} s

theorem no_syntax_error_iff_nested :
    (constant (.string "v")).NeverFails ∧
      (∀ r ∈ (all (constant (.string "v")) "p \"[q \"$x\"] $y($z([i]))\"" ()).1,
        ¬ IsSyntaxError r) ∧
      isComplete "p \"[q \"$x\"] $y($z([i]))\"" = true ∧
      ∀ w ∈ words .command "p \"[q \"$x\"] $y($z([i]))\"", w.Closed := by
  have hbuilt : (all (constant (.string "v")) "p \"[q \"$x\"] $y($z([i]))\"" ()).1 =
      [.ok ⟨[.string "p", .string "v v"], "p \"[q \"$x\"] $y($z([i]))\"", 1⟩] := rfl
  have hclean : ∀ r ∈ (all (constant (.string "v")) "p \"[q \"$x\"] $y($z([i]))\"" ()).1,
      ¬ IsSyntaxError r := by
    rw [hbuilt, List.forall_mem_singleton]
    exact not_isSyntaxError_ok _
  exact ⟨neverFails_constant _, hclean,
    (no_syntax_error_iff (neverFails_constant _) _ ()).1.1 hclean⟩

/-- A reference left open in a quote, and a bracket left open in an index. -/
theorem complete_script_with_syntax_error :
    isComplete "set x \"$\x7ba\"" = true ∧ isComplete "set x $a([)" = true ∧
      (∃ r ∈ (all (constant {}) "set x \"$\x7ba\"" ()).1, IsSyntaxError r) ∧
      ∃ r ∈ (all (constant {}) "set x $a([)" ()).1, IsSyntaxError r := by
  exact ⟨by decide, by decide, ⟨_, List.mem_cons_self, _, rfl, rfl⟩,
    ⟨_, List.mem_cons_self, _, rfl, rfl⟩⟩

end Builder

end CommandScript
