import Mathlib.Data.List.Forall2
import CommandScript.Proofs.Script.Building
import CommandScript.Proofs.Script.Substitution

/-!
# Substitution is a single pass

The values that a substitutor answers with are put in place and never read again. So what a script
asks for, and the commands it is cut into, do not depend on the answers: two runs with substitutors
that never fail ask the same questions in the same order and give commands of the same shape
(`Builder.all_single_pass`). The questions can be read off the script (`Builder.questions`), all but
what is put into the index of an array element. A word is the value of its only piece, or the text
of its pieces side by side.

Two runs are compared under a `Coupling`, which says how their states and values are related and
with what they may stop.
-/

namespace CommandScript

open List (Forall₂)

/-- How two runs of a builder are related. -/
structure Coupling (σ τ : Type) where
  states : σ → τ → Prop
  values : Value → Value → Prop
  stops : Stop → Prop
  refl : ∀ v, values v v
  join : ∀ {vs ws}, Forall₂ values vs ws → values (joinPieces vs) (joinPieces ws)
  faults : ∀ f : Unterminated, stops (.raised (.ofFault f))

namespace Coupling

variable {σ τ α β α' β' : Type} {C : Coupling σ τ}

/-- Both actions give values, which are related by `V`, or both stop with the same. -/
inductive Ends (C : Coupling σ τ) (V : α → β → Prop) :
    EStateM.Result Stop σ α → EStateM.Result Stop τ β → Prop where
  | ok {a b s t} (hvalue : V a b) (hstate : C.states s t) : Ends C V (.ok a s) (.ok b t)
  | error {stop s t} (hstop : C.stops stop) (hstate : C.states s t) :
    Ends C V (.error stop s) (.error stop t)

/-- From related states both actions end alike. -/
def Related (C : Coupling σ τ) (V : α → β → Prop) (x : Action σ α) (y : Action τ β) : Prop :=
  ∀ s t, C.states s t → C.Ends V (x s) (y t)

theorem Related.pure {V : α → β → Prop} {a : α} {b : β} (h : V a b) :
    C.Related V (Pure.pure a) (Pure.pure b) :=
  fun _ _ hst => .ok h hst

theorem Related.fail (V : α → β → Prop) (f : Unterminated) :
    C.Related V (Action.fail f) (Action.fail f) :=
  fun _ _ hst => .error (C.faults f) hst

theorem Related.bind {V : α → β → Prop} {W : α' → β' → Prop} {x : Action σ α} {y : Action τ β}
    {f : α → Action σ α'} {g : β → Action τ β'} (hx : C.Related V x y)
    (hf : ∀ a b, V a b → C.Related W (f a) (g b)) : C.Related W (x >>= f) (y >>= g) := by
  intro s t hst
  show C.Ends W (EStateM.bind x f s) (EStateM.bind y g t)
  unfold EStateM.bind
  have hends := hx s t hst
  generalize x s = r, y t = r' at hends ⊢
  cases hends with
  | ok hvalue hstate => exact hf _ _ hvalue _ _ hstate
  | error hstop hstate => exact .error hstop hstate

/-! ## Words -/

/-- Two substitutors whose answers are related, also where an index was substituted. -/
structure Substitutors (C : Coupling σ τ) (sub : Substitutor σ) (sub' : Substitutor τ) : Prop where
  resolve : ∀ name, C.Related C.values (sub.resolve name) (sub'.resolve name)
  element : ∀ array i j, C.values i j → C.Related C.values
    (sub.resolve (Name.element array i.text)) (sub'.resolve (Name.element array j.text))
  execute : ∀ script, C.Related C.values (sub.execute script) (sub'.execute script)

namespace Substitutors

variable {sub : Substitutor σ} {sub' : Substitutor τ} (h : C.Substitutors sub sub')

include h

theorem pieces {reference : String → Action σ Value} {reference' : String → Action τ Value}
    {ws : List Word} (href : ∀ w ∈ ws, w.kind = .varRef →
      C.Related C.values (reference w.text) (reference' w.text)) :
    C.Related (Forall₂ C.values) (sub.pieces reference ws) (sub'.pieces reference' ws) := by
  induction ws with
  | nil => exact .pure .nil
  | cons w ws ih =>
    have ih := ih fun w hw => href w (List.mem_cons_of_mem _ hw)
    unfold Substitutor.pieces
    split
    · exact .pure .nil
    · exact .fail _ _
    · rename_i hkind
      exact (href w List.mem_cons_self hkind).bind fun v v' hv =>
        ih.bind fun vs vs' hvs => .pure (.cons hv hvs)
    · exact (h.execute _).bind fun v v' hv => ih.bind fun vs vs' hvs => .pure (.cons hv hvs)
    · exact ih.bind fun vs vs' hvs => .pure (.cons (C.refl _) hvs)

theorem text (t : String) : C.Related C.values (sub.text t) (sub'.text t) := by
  induction t using Substitutor.text_induction with
  | step t ih =>
    rw [Substitutor.text_eq, Substitutor.text_eq]
    refine (h.pieces fun w hw hkind => ?_).bind fun vs vs' hvs => .pure (C.join hvs)
    unfold Substitutor.reference Substitutor.variableWith
    split
    · rename_i array index hsplit
      exact (ih w hw hkind array index hsplit).bind fun i j hij => h.element array i j hij
    · exact h.resolve _

theorem reference (name : String) :
    C.Related C.values (sub.reference name) (sub'.reference name) := by
  unfold Substitutor.reference Substitutor.variableWith
  split
  · exact (h.text _).bind fun i j hij => h.element _ i j hij
  · exact h.resolve _

theorem word (w : Word) : C.Related C.values (sub.word w) (sub'.word w) := by
  unfold Substitutor.word
  split
  · exact h.reference _
  · exact h.execute _
  · exact h.text _
  · exact .pure (C.refl _)

end Substitutors

/-! ## Commands -/

/-- Commands from the same place with related words, or the same stop. -/
inductive Results (C : Coupling σ τ) : Except Stop Command → Except Stop Command → Prop where
  | ok {c c' : Command} (words : Forall₂ C.values c.words c'.words) (source : c.source = c'.source)
    (line : c.line = c'.line) : Results C (.ok c) (.ok c')
  | error {stop} (h : C.stops stop) : Results C (.error stop) (.error stop)

theorem eq_of_results (hvalues : ∀ v w, C.values v w → v = w) {rs rs' : List (Except Stop Command)}
    (h : Forall₂ C.Results rs rs') : rs = rs' := by
  induction h with
  | nil => rfl
  | cons hr _ ih =>
    rw [ih]
    cases hr with
    | @ok c c' words source line =>
      have hwords : c.words = c'.words := by
        rw [← List.forall₂_eq_eq_eq]
        exact words.imp hvalues
      obtain rfl : c = c' := by
        cases c
        cases c'
        simp_all
      rfl
    | error => rfl

structure Drafts (C : Coupling σ τ) (d d' : Draft) : Prop where
  words : Forall₂ C.values d.words d'.words
  pieces : Forall₂ C.values d.pieces d'.pieces
  begun : d.begun = d'.begun
  gap : d.gap = d'.gap

namespace Drafts

variable {d d' : Draft} (h : C.Drafts d d')

theorem empty : C.Drafts {} {} := ⟨.nil, .nil, rfl, rfl⟩

include h

theorem isEmpty_pieces : d.pieces.isEmpty = d'.pieces.isEmpty := by
  have hlength := h.pieces.length_eq
  rw [Bool.eq_iff_iff, List.isEmpty_iff_length_eq_zero, List.isEmpty_iff_length_eq_zero, hlength]

theorem closeWord : C.Drafts d.closeWord d'.closeWord := by
  unfold Draft.closeWord
  rw [h.isEmpty_pieces]
  split
  · exact h
  · exact ⟨List.rel_append h.words (.cons (C.join h.pieces) .nil), .nil, h.begun, h.gap⟩

theorem space (blanks : String) : C.Drafts (d.space blanks) (d'.space blanks) := by
  have hclosed := h.closeWord
  refine ⟨hclosed.words, hclosed.pieces, hclosed.begun, ?_⟩
  show d.closeWord.gap ++ blanks = d'.closeWord.gap ++ blanks
  rw [hclosed.gap]

theorem push (w : Word) {v v' : Value} (hv : C.values v v') :
    C.Drafts (d.push w v) (d'.push w v') := by
  refine ⟨h.words, List.rel_append h.pieces (.cons hv .nil), ?_, rfl⟩
  unfold Draft.push
  rw [h.begun, h.gap]

theorem finish : Forall₂ C.Results (d.finish.toList.map .ok) (d'.finish.toList.map .ok) := by
  have hclosed := h.closeWord
  unfold Draft.finish
  rw [h.begun]
  cases d'.begun with
  | none => exact .nil
  | some begun => exact .cons (.ok hclosed.words rfl rfl) .nil

end Drafts

theorem stream {sub : Substitutor σ} {sub' : Substitutor τ} (h : C.Substitutors sub sub')
    {d d' : Draft} (hd : C.Drafts d d') (ws : List Word) {s : σ} {t : τ} (hst : C.states s t) :
    Forall₂ C.Results (Builder.stream sub d ws s).1 (Builder.stream sub' d' ws t).1 ∧
      C.states (Builder.stream sub d ws s).2 (Builder.stream sub' d' ws t).2 := by
  induction ws generalizing d d' s t with
  | nil => exact ⟨hd.finish, hst⟩
  | cons w ws ih =>
    rcases w.kind.role with hk | hk | hk | hk | hk | hk
    · rw [Builder.stream_eof hk, Builder.stream_eof hk]
      exact ⟨hd.finish, hst⟩
    · rw [Builder.stream_eol hk, Builder.stream_eol hk]
      have ⟨hresults, hstates⟩ := ih .empty hst
      exact ⟨List.rel_append hd.finish hresults, hstates⟩
    · rw [Builder.stream_blank hk, Builder.stream_blank hk]
      exact ih (hd.space _) hst
    · rw [Builder.stream_comment hk, Builder.stream_comment hk]
      exact ih hd hst
    · rw [Builder.stream_illegal hk, Builder.stream_illegal hk]
      exact ⟨.cons (.error (C.faults _)) .nil, hst⟩
    · have hends := h.word w s t hst
      generalize hs : sub.word w s = r, ht : sub'.word w t = r' at hends
      cases hends with
      | ok hvalue hstate =>
        rw [Builder.stream_ok hk hs, Builder.stream_ok hk ht]
        exact ih (hd.push w hvalue) hstate
      | error hstop hstate =>
        rw [Builder.stream_error hk hs, Builder.stream_error hk ht]
        have ⟨hresults, hstates⟩ := ih .empty hstate
        exact ⟨.cons (.error hstop) hresults, hstates⟩

theorem all {sub : Substitutor σ} {sub' : Substitutor τ} (h : C.Substitutors sub sub')
    (script : String) {s : σ} {t : τ} (hst : C.states s t) :
    Forall₂ C.Results (Builder.all sub script s).1 (Builder.all sub' script t).1 ∧
      C.states (Builder.all sub script s).2 (Builder.all sub' script t).2 := by
  rw [Builder.all_eq_stream, Builder.all_eq_stream]
  exact stream h .empty _ hst

end Coupling

/-! ## Recorded questions -/

/-- A question to a substitutor. -/
inductive Call where
  | resolve (name : String)
  | execute (script : String)
  deriving DecidableEq, Repr

namespace Substitutor

variable {σ τ α : Type}

/-- Every question is answered. -/
structure NeverFails (sub : Substitutor σ) : Prop where
  resolve : ∀ name s, ∃ v s', sub.resolve name s = .ok v s'
  execute : ∀ script s, ∃ v s', sub.execute script s = .ok v s'

/-- Runs an action and adds to the record that it was called. -/
def logged (call : Call) (act : Action σ α) : Action (σ × List Call) α := fun state =>
  match act state.1 with
  | .ok v s => .ok v (s, state.2 ++ [call])
  | .error stop s => .error stop (s, state.2 ++ [call])

/-- The substitutor, with a record of the questions in its state. -/
def recorded (sub : Substitutor σ) : Substitutor (σ × List Call) where
  resolve name := logged (.resolve name) (sub.resolve name)
  execute script := logged (.execute script) (sub.execute script)

end Substitutor

namespace Coupling

variable {σ τ α : Type}

/-- A run and the same run with a record. -/
def recording (σ : Type) : Coupling σ (σ × List Call) where
  states s t := t.1 = s
  values := (· = ·)
  stops _ := True
  refl _ := rfl
  join h := by rw [List.forall₂_eq_eq_eq] at h; rw [h]
  faults _ := trivial

theorem related_logged (call : Call) (act : Action σ Value) :
    (recording σ).Related (· = ·) act (Substitutor.logged call act) := by
  intro s t hst
  unfold Substitutor.logged
  rw [show t.1 = s from hst]
  cases act s with
  | ok v s' => exact .ok rfl rfl
  | error stop s' => exact .error trivial rfl

theorem substitutors_recorded (sub : Substitutor σ) :
    (recording σ).Substitutors sub sub.recorded where
  resolve name := related_logged _ _
  element array i j hij := by
    rw [show i = j from hij]
    exact related_logged _ _
  execute script := related_logged _ _

/-- Any two runs that stop at unterminated words only. -/
def unfailing (σ τ : Type) : Coupling σ τ where
  states _ _ := True
  values _ _ := True
  stops stop := ∃ f : Unterminated, stop = .raised (.ofFault f)
  refl _ := trivial
  join _ := trivial
  faults f := ⟨f, rfl⟩

theorem related_unfailing {x : Action σ Value} {y : Action τ Value}
    (hx : ∀ s, ∃ v s', x s = .ok v s') (hy : ∀ t, ∃ v t', y t = .ok v t') :
    (unfailing σ τ).Related (unfailing σ τ).values x y := by
  intro s t _
  obtain ⟨v, s', hs⟩ := hx s
  obtain ⟨w, t', ht⟩ := hy t
  rw [hs, ht]
  exact .ok trivial trivial

theorem substitutors_unfailing {sub : Substitutor σ} {sub' : Substitutor τ} (h : sub.NeverFails)
    (h' : sub'.NeverFails) : (unfailing σ τ).Substitutors sub sub' where
  resolve name := related_unfailing (h.resolve name) (h'.resolve name)
  element _ _ _ _ := related_unfailing (h.resolve _) (h'.resolve _)
  execute script := related_unfailing (h.execute script) (h'.execute script)

end Coupling

/-! ## Questions as they are written -/

/-- A question as it is written in a script. -/
inductive Question where
  | named (name : String)
  | element (array index : String)
  | script (text : String)
  deriving DecidableEq, Repr

namespace Question

/-- A text stands in the place of a word: of literal text that text, of a substitution any. -/
def Fits (w : Word) (text : String) : Prop := w.kind = .varRef ∨ w.kind = .script ∨ text = w.text

/-- A text is an index with something in the place of its references and scripts. -/
def Fills (index filled : String) : Prop :=
  ∃ texts, Forall₂ Fits ((words .quoted index).takeWhile (·.kind != .eof)) texts ∧
    filled = String.join texts

/-- How a question is put to a substitutor. -/
inductive Asks : Question → Call → Prop where
  | named (name : String) : Asks (named name) (.resolve name)
  | element (array : String) {index filled : String} (h : Fills index filled) :
    Asks (element array index) (.resolve (Name.element array filled))
  | script (text : String) : Asks (script text) (.execute text)

/-- A question with no substitution in an index. -/
def IsLiteral : Question → Prop
  | element _ index => ∀ w ∈ words .quoted index, w.kind ≠ .varRef ∧ w.kind ≠ .script
  | _ => True

/-- A literal question is asked as it is. -/
theorem Asks.eq_of_literal {q : Question} {call call' : Call} (hliteral : q.IsLiteral)
    (h : q.Asks call) (h' : q.Asks call') : call = call' := by
  have hsame : ∀ {ws texts}, Forall₂ Fits ws texts →
      (∀ w ∈ ws, w.kind ≠ .varRef ∧ w.kind ≠ .script) → texts = ws.map Word.text := by
    intro ws texts hfits hws
    induction hfits with
    | nil => rfl
    | @cons w text ws texts hfit _ ih =>
      have hw := hws w List.mem_cons_self
      rw [List.map_cons, ih fun w h => hws w (List.mem_cons_of_mem _ h),
        (hfit.resolve_left hw.1).resolve_left hw.2]
  cases h with
  | named | script => cases h'; rfl
  | @element array index filled h =>
    cases h' with
    | element _ h' =>
      have hplain : ∀ w ∈ (words .quoted index).takeWhile (·.kind != .eof),
          w.kind ≠ .varRef ∧ w.kind ≠ .script :=
        fun w hw => hliteral w ((List.takeWhile_sublist _).subset hw)
      obtain ⟨_, hfits, rfl⟩ := h
      obtain ⟨_, hfits', rfl⟩ := h'
      rw [hsame hfits hplain, hsame hfits' hplain]

/-! ### Reading the questions off a script -/

/-- Puts a question down. -/
def note (q : Question) : Action (List Question) Unit := modify (· ++ [q])

/-- Puts down the questions of a variable reference, `text` those of its index. -/
def referenceWith (text : String → Action (List Question) Unit) (name : String) :
    Action (List Question) Unit :=
  match Name.splitIndex name with
  | (array, some index) => do
    text index
    note (.element array index)
  | (_, none) => note (.named name)

/-- Puts down the questions of the words of quoted text, up to one that is unterminated. -/
def pieces (reference : String → Action (List Question) Unit) :
    List Word → Action (List Question) Unit
  | [] => pure ()
  | w :: rest =>
    match w.kind with
    | .eof => pure ()
    | .illegal => Action.fail w.unterminated
    | .varRef => do
      reference w.text
      pieces reference rest
    | .script => do
      note (.script w.text)
      pieces reference rest
    | _ => pieces reference rest

def textWithin : Nat → String → Action (List Question) Unit
  | 0, _ => Action.halt .outOfFuel
  | fuel + 1, text => pieces (referenceWith (textWithin fuel)) (words .quoted text)

/-- Puts down the questions of quoted text, whose length bounds the nesting of its references. -/
def text (t : String) : Action (List Question) Unit := textWithin (t.length + 1) t

/-- Puts down the questions of a word of a script. -/
def word (w : Word) : Action (List Question) Unit :=
  match w.kind with
  | .varRef => referenceWith text w.text
  | .script => note (.script w.text)
  | .quote => text w.text
  | _ => pure ()

/-- Adds the questions of the words of a script, up to one that is unterminated. -/
def stream : List Word → List Question → List Question
  | [], asked => asked
  | w :: rest, asked =>
    match w.kind with
    | .eof | .illegal => asked
    | .eol | .blank | .comment => stream rest asked
    | _ =>
      match word w asked with
      | .ok _ asked | .error _ asked => stream rest asked

variable {σ : Type}

/-- The calls of a run are those that the questions call for. -/
def asking (σ : Type) : Coupling (σ × List Call) (List Question) where
  states s asked := Forall₂ Asks asked s.2
  values _ _ := True
  stops _ := True
  refl _ := trivial
  join _ := trivial
  faults _ := trivial

theorem related_note {q : Question} {call : Call} (hq : q.Asks call) {x : Action σ Value}
    (hx : ∀ s, ∃ v s', x s = .ok v s') :
    (asking σ).Related (fun _ _ => True) (Substitutor.logged call x) (note q) := by
  intro s asked hst
  obtain ⟨v, s', hs⟩ := hx s.1
  unfold Substitutor.logged
  rw [hs]
  exact .ok trivial (List.rel_append hst (.cons hq .nil))

theorem text_joinPieces (vs : List Value) :
    (joinPieces vs).text = String.join (vs.map Value.text) := by
  unfold joinPieces
  split
  · simp [String.join]
  · rfl

variable {sub : Substitutor σ} (h : sub.NeverFails)

include h

theorem related_pieces {reference : String → Action (σ × List Call) Value}
    {reference' : String → Action (List Question) Unit}
    (href : ∀ name, (asking σ).Related (fun _ _ => True) (reference name) (reference' name))
    (ws : List Word) :
    (asking σ).Related
      (fun vs _ => Forall₂ Fits (ws.takeWhile (·.kind != .eof)) (vs.map Value.text))
      (sub.recorded.pieces reference ws) (pieces reference' ws) := by
  induction ws with
  | nil => exact .pure .nil
  | cons w ws ih =>
    have hcons : ∀ {act : Action (σ × List Call) Value} {act' : Action (List Question) Unit},
        w.kind = .varRef ∨ w.kind = .script → (asking σ).Related (fun _ _ => True) act act' →
        (asking σ).Related
          (fun vs _ => Forall₂ Fits ((w :: ws).takeWhile (·.kind != .eof)) (vs.map Value.text))
          (do let v ← act; return v :: (← sub.recorded.pieces reference ws))
          (do act'; pieces reference' ws) := by
      intro act act' hkind hact
      rw [List.takeWhile_cons_of_pos (by rcases hkind with hk | hk <;> rw [hk] <;> rfl)]
      refine hact.bind fun v _ _ => ?_
      rw [← bind_pure (pieces reference' ws)]
      exact ih.bind fun vs _ hvs => .pure (.cons (or_assoc.1 (.inl hkind)) hvs)
    unfold Substitutor.pieces
    split
    · rename_i hkind
      rw [List.takeWhile_cons_of_neg (by rw [hkind]; decide)]
      simp only [pieces, hkind]
      exact .pure .nil
    · rename_i hkind
      simp only [pieces, hkind]
      exact .fail _ _
    · rename_i hkind
      simp only [pieces, hkind]
      exact hcons (.inl hkind) (href w.text)
    · rename_i hkind
      simp only [pieces, hkind]
      exact hcons (.inr hkind) (related_note (.script _) (h.execute _))
    · rename_i heof _ _ _
      have hrest : pieces reference' (w :: ws) = pieces reference' ws := by
        rw [pieces]
        split <;> first | rfl | contradiction
      rw [List.takeWhile_cons_of_pos (by simpa using heof), hrest,
        ← bind_pure (pieces reference' ws)]
      exact ih.bind fun vs _ hvs => .pure (.cons (.inr (.inr rfl)) hvs)

theorem related_referenceWith {text : String → Action (σ × List Call) Value}
    {text' : String → Action (List Question) Unit}
    (htext : ∀ t, (asking σ).Related (fun v _ => Fills t v.text) (text t) (text' t))
    (name : String) :
    (asking σ).Related (fun _ _ => True) (sub.recorded.variableWith text name)
      (referenceWith text' name) := by
  unfold Substitutor.variableWith
  split
  · rename_i array index hsplit
    simp only [referenceWith, hsplit]
    exact (htext index).bind fun i _ hi => related_note (.element array hi) (h.resolve _)
  · rename_i hsplit
    simp only [referenceWith, hsplit]
    exact related_note (.named name) (h.resolve name)

theorem related_textWithin (fuel : Nat) (t : String) :
    (asking σ).Related (fun v _ => Fills t v.text) (sub.recorded.textWithin fuel t)
      (textWithin fuel t) := by
  induction fuel generalizing t with
  | zero => exact fun s asked hst => .error trivial hst
  | succ fuel ih =>
    unfold Substitutor.textWithin textWithin
    rw [← bind_pure (pieces _ _)]
    refine (related_pieces h (related_referenceWith h ih) _).bind fun vs _ hvs => .pure ?_
    exact ⟨_, hvs, text_joinPieces vs⟩

theorem related_word (w : Word) :
    (asking σ).Related (fun _ _ => True) (sub.recorded.word w) (word w) := by
  have htext : ∀ t, (asking σ).Related (fun v _ => Fills t v.text) (sub.recorded.text t) (text t) :=
    fun t => related_textWithin h (t.length + 1) t
  unfold Substitutor.word
  split
  · rename_i hkind
    simp only [word, hkind]
    exact related_referenceWith h htext w.text
  · rename_i hkind
    simp only [word, hkind]
    exact related_note (.script _) (h.execute _)
  · rename_i hkind
    simp only [word, hkind]
    rw [← bind_pure (sub.recorded.text _), ← bind_pure (text _)]
    exact (htext w.text).bind fun _ _ _ => .pure trivial
  · have hnone : word w = pure () := by
      rw [word]
      split <;> first | rfl | contradiction
    rw [hnone]
    exact .pure trivial

/-- Building asks what is written, with more on record. -/
theorem asks_stream (d : Draft) (ws : List Word) {s : σ × List Call} {asked : List Question}
    (hst : Forall₂ Asks asked s.2) :
    Forall₂ Asks (stream ws asked) (Builder.stream sub.recorded d ws s).2.2 := by
  induction ws generalizing d s asked with
  | nil => exact hst
  | cons w ws ih =>
    rcases w.kind.role with hk | hk | hk | hk | hk | hk
    · rw [Builder.stream_eof hk, stream, hk]
      exact hst
    · rw [Builder.stream_eol hk, stream, hk]
      exact ih {} hst
    · rw [Builder.stream_blank hk, stream, hk]
      exact ih _ hst
    · rw [Builder.stream_comment hk, stream, hk]
      exact ih _ hst
    · rw [Builder.stream_illegal hk, stream, hk]
      exact hst
    · have hends := related_word h w s asked hst
      have hstream : stream (w :: ws) asked =
          match word w asked with
          | .ok _ asked | .error _ asked => stream ws asked := by
        rw [stream]
        split <;> simp_all [WordKind.isPiece]
      rw [hstream]
      generalize hs : sub.recorded.word w s = r, word w asked = r' at hends ⊢
      cases hends with
      | ok _ hstate =>
        rw [Builder.stream_ok hk hs]
        exact ih _ hstate
      | error _ hstate =>
        rw [Builder.stream_error hk hs]
        exact ih {} hstate

end Question

/-- The same question, up to what is substituted in the index of an array element. -/
def Call.Agree (call call' : Call) : Prop :=
  ∃ q : Question, q.Asks call ∧ q.Asks call' ∧ (q.IsLiteral → call = call')

namespace Builder

variable {σ τ α β : Type}

/-- The questions that building a script asks. -/
def calls (sub : Substitutor σ) (script : String) (s : σ) : List Call :=
  (all sub.recorded script (s, [])).2.2

/-- The questions that are written in a script. -/
def questions (script : String) : List Question := Question.stream (words .command script) []

/-- The record changes nothing else. -/
theorem all_recorded (sub : Substitutor σ) (script : String) (s : σ) :
    all sub.recorded script (s, []) =
      ((all sub script s).1, (all sub script s).2, calls sub script s) := by
  have ⟨hresults, hstate⟩ := Coupling.all (Coupling.substitutors_recorded sub) script
    (s := s) (t := (s, [])) rfl
  exact Prod.ext (Coupling.eq_of_results (fun _ _ => id) hresults).symm (Prod.ext hstate rfl)

/-! ## Words from pieces -/

theorem mapM_cons_ok {f : α → Action σ β} {a : α} {as : List α} {b : β} {bs : List β} {s t u : σ}
    (h : f a s = .ok b t) (hs : as.mapM f t = .ok bs u) : (a :: as).mapM f s = .ok (b :: bs) u := by
  rw [List.mapM_cons]
  simp only [bind, EStateM.bind, h, hs, pure, EStateM.pure]

theorem length_of_mapM {f : α → Action σ β} {as : List α} {bs : List β} {s t : σ}
    (h : as.mapM f s = .ok bs t) : as.length = bs.length := by
  induction as generalizing bs s with
  | nil =>
    rw [List.mapM_nil] at h
    cases h
    rfl
  | cons a as ih =>
    rw [List.mapM_cons] at h
    simp only [bind, EStateM.bind, pure, EStateM.pure] at h
    split at h
    · split at h
      · rename_i hrest
        cases h
        rw [List.length_cons, List.length_cons, ih hrest]
      · cases h
    · cases h

/-- Puts a group in front of others, if it has words. -/
def addGroup (group : List Word) (groups : List (List Word)) : List (List Word) :=
  if group.isEmpty then groups else group :: groups

/-- The words that go on a word in progress, and the groups of adjacent words that follow. -/
def splitGroups : List Word → List Word × List (List Word)
  | [] => ([], [])
  | w :: rest =>
    match w.kind with
    | .eof => ([], [])
    | .blank | .eol => ([], addGroup (splitGroups rest).1 (splitGroups rest).2)
    | .comment => splitGroups rest
    | _ => (w :: (splitGroups rest).1, (splitGroups rest).2)

/-- The groups of adjacent words. Each is the pieces of one word of a command. -/
def groups (ws : List Word) : List (List Word) := addGroup (splitGroups ws).1 (splitGroups ws).2

/-- What pieces with these values make: the only one itself, or the text of all of them. -/
structure Assembled (pieces : List Value) (word : Value) : Prop where
  only : ∀ v, pieces = [v] → word = v
  text : pieces.length ≠ 1 → word = .string (String.join (pieces.map Value.text))

theorem assembled_joinPieces (pieces : List Value) : Assembled pieces (joinPieces pieces) := by
  constructor
  · rintro v rfl
    rfl
  · intro hlength
    unfold joinPieces
    split
    · exact absurd rfl hlength
    · rfl

/-- The word that pending pieces make, if there are any. -/
def closed (pieces : List Value) : List Value :=
  if pieces.isEmpty then [] else [joinPieces pieces]

theorem words_closeWord (d : Draft) : d.closeWord.words = d.words ++ closed d.pieces := by
  unfold Draft.closeWord closed
  split <;> simp

theorem words_of_finish {d : Draft} {c : Command} (h : d.finish = some c) :
    c.words = d.words ++ closed d.pieces := by
  obtain ⟨begun, -, rfl⟩ := Option.map_eq_some_iff.mp h
  exact words_closeWord d

variable {sub : Substitutor σ}

/-- Substituting the groups, one of which was put in front. -/
theorem mapM_addGroup {group : List Word} {gs : List (List Word)} {vs : List Value}
    {values : List (List Value)} {s t u : σ} (hgroup : group.mapM sub.word s = .ok vs t)
    (hgs : gs.mapM (·.mapM sub.word) t = .ok values u) :
    ∃ values', (addGroup group gs).mapM (·.mapM sub.word) s = .ok values' u ∧
      values'.map joinPieces = closed vs ++ values.map joinPieces := by
  have hlength := length_of_mapM hgroup
  unfold addGroup closed
  cases group with
  | nil =>
    obtain rfl : vs = [] := List.length_eq_zero_iff.mp hlength.symm
    rw [List.mapM_nil] at hgroup
    cases hgroup
    exact ⟨values, hgs, rfl⟩
  | cons w group =>
    cases vs with
    | nil => cases hlength
    | cons v vs => exact ⟨_, mapM_cons_ok hgroup hgs, rfl⟩

/-- Substituting words gives `vs` for those that go on a word in progress and then `values` for the
groups after them. -/
def Gives (sub : Substitutor σ) (used : List Word) (s : σ) (vs : List Value)
    (values : List (List Value)) (s' : σ) : Prop :=
  ∃ t, (splitGroups used).1.mapM sub.word s = .ok vs t ∧
    (splitGroups used).2.mapM (·.mapM sub.word) t = .ok values s'

section

variable {w : Word} {used : List Word} {vs : List Value} {values : List (List Value)} {s s' : σ}

theorem gives_nil (s : σ) : Gives sub [] s [] [] s := ⟨s, rfl, rfl⟩

theorem gives_eof (hk : w.kind = .eof) (rest : List Word) (s : σ) :
    Gives sub (w :: rest) s [] [] s := by
  unfold Gives
  simp only [splitGroups, hk]
  exact gives_nil s

/-- What goes on no word in progress is a group of its own. -/
theorem Gives.groups (h : Gives sub used s vs values s') :
    ∃ values', (groups used).mapM (·.mapM sub.word) s = .ok values' s' ∧
      values'.map joinPieces = closed vs ++ values.map joinPieces := by
  obtain ⟨t, hvs, hvalues⟩ := h
  exact mapM_addGroup hvs hvalues

theorem Gives.separator (h : Gives sub used s vs values s') (hk : w.kind = .blank ∨ w.kind = .eol) :
    ∃ values', Gives sub (w :: used) s [] values' s' ∧
      values'.map joinPieces = closed vs ++ values.map joinPieces := by
  obtain ⟨values', hvalues', hjoined⟩ := h.groups
  refine ⟨values', ⟨s, ?_, ?_⟩, hjoined⟩
  · rcases hk with hk | hk <;> simp only [splitGroups, hk] <;> rfl
  · rcases hk with hk | hk <;> simp only [splitGroups, hk] <;> exact hvalues'

theorem Gives.comment (h : Gives sub used s vs values s') (hk : w.kind = .comment) :
    Gives sub (w :: used) s vs values s' := by
  unfold Gives
  simp only [splitGroups, hk]
  exact h

theorem Gives.piece {v : Value} {t : σ} (hv : sub.word w s = .ok v t)
    (h : Gives sub used t vs values s') (heof : w.kind ≠ .eof) (heol : w.kind ≠ .eol)
    (hblank : w.kind ≠ .blank) (hcomment : w.kind ≠ .comment) :
    Gives sub (w :: used) s (v :: vs) values s' := by
  obtain ⟨u, hvs, hvalues⟩ := h
  have hsplit : splitGroups (w :: used) = (w :: (splitGroups used).1, (splitGroups used).2) := by
    rw [splitGroups]
    split <;> first | rfl | contradiction
  unfold Gives
  rw [hsplit]
  exact ⟨u, mapM_cons_ok hv hvs, hvalues⟩

end

/-- Only a draft that has begun has words. -/
def Coherent (d : Draft) : Prop := d.begun = none → d.words = [] ∧ d.pieces = []

theorem pieces_closeWord (d : Draft) : d.closeWord.pieces = [] := by
  unfold Draft.closeWord
  split
  · exact List.isEmpty_iff.mp ‹_›
  · rfl

theorem Coherent.space {d : Draft} (hd : Coherent d) (source : String) :
    Coherent (d.space source) := by
  intro hnone
  obtain ⟨hwords, hpieces⟩ := hd ((begun_closeWord d).symm.trans hnone)
  refine ⟨?_, pieces_closeWord d⟩
  rw [show (d.space source).words = d.closeWord.words from rfl, words_closeWord, hwords, hpieces]
  rfl

/-- The words of a command are the words of its draft, the one in progress and what the groups of
adjacent words that were used give, substituted from left to right. -/
theorem words_of_nextFrom {d : Draft} (hd : Coherent d) {ws rest : List Word} {c : Command}
    {s s' : σ} (h : nextFrom sub d ws s = ⟨.ok (some c), rest, s'⟩) :
    ∃ used vs values, ws = used ++ rest ∧ Gives sub used s vs values s' ∧
      c.words = d.words ++ closed (d.pieces ++ vs) ++ values.map joinPieces := by
  fun_induction nextFrom sub d ws s with
  | case1 d s =>
    obtain ⟨hfinish, rfl, rfl⟩ : d.finish = some c ∧ [] = rest ∧ s = s' := by simpa using h
    exact ⟨[], [], [], rfl, gives_nil s, by simpa using words_of_finish hfinish⟩
  | case2 d w more s hk =>
    obtain ⟨hfinish, rfl, rfl⟩ : d.finish = some c ∧ [] = rest ∧ s = s' := by simpa using h
    exact ⟨w :: more, [], [], (List.append_nil _).symm, gives_eof hk more s,
      by simpa using words_of_finish hfinish⟩
  | case3 d w more s hk command hfinish =>
    cases h
    obtain ⟨values, hgives, hjoined⟩ := (gives_nil s').separator (.inr hk)
    refine ⟨[w], [], values, rfl, hgives, ?_⟩
    rw [hjoined]
    simpa [closed] using words_of_finish hfinish
  | case4 d w more s hk hfinish ih =>
    obtain ⟨used, vs, values, rfl, hgives, hwords⟩ := ih (fun _ => ⟨rfl, rfl⟩) h
    obtain ⟨values', hgives', hjoined⟩ := hgives.separator (.inr hk)
    obtain ⟨hnone, hpieces⟩ := hd (Option.map_eq_none_iff.mp hfinish)
    refine ⟨w :: used, [], values', rfl, hgives', ?_⟩
    simp only [hwords, hnone, hpieces, hjoined, List.nil_append]
    rfl
  | case5 d w more s hk ih =>
    have hspace : (d.space w.source).words = d.words ++ closed d.pieces := words_closeWord d
    have hclosed : (d.space w.source).pieces = [] := pieces_closeWord d
    obtain ⟨used, vs, values, rfl, hgives, hwords⟩ := ih (hd.space _) h
    obtain ⟨values', hgives', hjoined⟩ := hgives.separator (.inl hk)
    refine ⟨w :: used, [], values', rfl, hgives', ?_⟩
    rw [hwords, hspace, hclosed, hjoined, List.nil_append, List.append_nil, List.append_assoc]
  | case6 d w more s hk ih =>
    obtain ⟨used, vs, values, rfl, hgives, hwords⟩ := ih hd h
    exact ⟨w :: used, vs, values, rfl, hgives.comment hk, hwords⟩
  | case7 d w more s hk => cases h
  | case8 d w more s v s' hv heof heol hblank hcomment hillegal ih =>
    obtain ⟨used, vs, values, rfl, hgives, hwords⟩ := ih (fun h => by cases h) h
    refine ⟨w :: used, v :: vs, values, rfl, .piece hv hgives heof heol hblank hcomment, ?_⟩
    rw [hwords]
    simp [Draft.push]
  | case9 d w more s stop s' hv heof heol hblank hcomment hillegal => cases h

theorem words_of_next {ws rest : List Word} {c : Command} {s s' : σ}
    (h : next sub ws s = ⟨.ok (some c), rest, s'⟩) :
    ∃ used values, ws = used ++ rest ∧
      (groups used).mapM (·.mapM sub.word) s = .ok values s' ∧
      c.words = values.map joinPieces := by
  obtain ⟨used, vs, values, hws, hgives, hwords⟩ :=
    words_of_nextFrom (d := {}) (fun _ => ⟨rfl, rfl⟩) h
  obtain ⟨values', hvalues', hjoined⟩ := hgives.groups
  exact ⟨used, values', hws, hvalues', by rw [hwords, hjoined]; rfl⟩

/-! ## One pass -/

/-- Commands from the same place with as many words, or the same unterminated word. -/
inductive SameShape : Except Stop Command → Except Stop Command → Prop where
  | ok {c c' : Command} (words : c.words.length = c'.words.length) (source : c.source = c'.source)
    (line : c.line = c'.line) : SameShape (.ok c) (.ok c')
  | error (f : Unterminated) :
    SameShape (.error (.raised (.ofFault f))) (.error (.raised (.ofFault f)))

/-- Values are put in place: the words of a command come from the groups of adjacent words that it
was built from, and the value of a quoted text from the words of the text, each group substituted
from left to right and then assembled. -/
structure PutsInPlace (sub : Substitutor σ) : Prop where
  command : ∀ ws s c rest s', next sub ws s = ⟨.ok (some c), rest, s'⟩ →
    ∃ used values, ws = used ++ rest ∧ (groups used).mapM (·.mapM sub.word) s = .ok values s' ∧
      Forall₂ Assembled values c.words
  quoted : ∀ text s v s', sub.text text s = .ok v s' →
    ∃ values, sub.pieces sub.reference (words .quoted text) s = .ok values s' ∧ Assembled values v
  element : ∀ name array index s v s', Name.splitIndex name = (array, some index) →
    sub.reference name s = .ok v s' →
    ∃ i t, sub.text index s = .ok i t ∧ sub.resolve (Name.element array i.text) t = .ok v s'

theorem putsInPlace (sub : Substitutor σ) : PutsInPlace sub where
  command ws s c rest s' h := by
    obtain ⟨used, values, hws, hvalues, hwords⟩ := words_of_next h
    refine ⟨used, values, hws, hvalues, ?_⟩
    rw [hwords, List.forall₂_map_right_iff, List.forall₂_same]
    exact fun vs _ => assembled_joinPieces vs
  quoted text s v s' h := by
    rw [Substitutor.text_eq] at h
    simp only [bind, EStateM.bind, pure, EStateM.pure] at h
    split at h
    · rename_i values t hvalues
      cases h
      exact ⟨values, hvalues, assembled_joinPieces values⟩
    · cases h
  element name array index s v s' hsplit h := by
    unfold Substitutor.reference Substitutor.variableWith at h
    rw [hsplit] at h
    simp only [bind, EStateM.bind] at h
    split at h
    · rename_i i t hi
      exact ⟨i, t, hi, h⟩
    · cases h

/-- Building asks what is written in the script, and to put that on record changes nothing. -/
structure AsksAsWritten (sub : Substitutor σ) (script : String) (s : σ) : Prop where
  recorded : all sub.recorded script (s, []) =
    ((all sub script s).1, (all sub script s).2, calls sub script s)
  asks : Forall₂ Question.Asks (questions script) (calls sub script s)

theorem asksAsWritten {sub : Substitutor σ} (h : sub.NeverFails) (script : String) (s : σ) :
    AsksAsWritten sub script s where
  recorded := all_recorded sub script s
  asks := by
    unfold calls
    rw [all_eq_stream]
    exact Question.asks_stream h {} _ .nil

/-- Calls that the same questions call for agree. -/
theorem agree_of_asks {qs : List Question} {cs cs' : List Call} (h : Forall₂ Question.Asks qs cs)
    (h' : Forall₂ Question.Asks qs cs') : Forall₂ Call.Agree cs cs' := by
  induction h generalizing cs' with
  | nil => cases h'; exact .nil
  | cons hq _ ih =>
    cases h' with
    | cons hq' h' => exact .cons ⟨_, hq, hq', fun hq'' => hq.eq_of_literal hq'' hq'⟩ (ih h')

theorem sameShape_of_results {r r' : Except Stop Command}
    (h : (Coupling.unfailing σ τ).Results r r') : SameShape r r' := by
  cases h with
  | ok words source line => exact .ok words.length_eq source line
  | error hstop =>
    obtain ⟨f, rfl⟩ := hstop
    exact .error f

/-- Substitution is a single pass: two runs of a script whose substitutors never fail give commands
of the same shape and ask the same questions, those written in the script, and values are put in
place as they are. -/
theorem all_single_pass {sub : Substitutor σ} {sub' : Substitutor τ} (h : sub.NeverFails)
    (h' : sub'.NeverFails) (script : String) (s : σ) (t : τ) :
    Forall₂ SameShape (all sub script s).1 (all sub' script t).1 ∧
      Forall₂ Call.Agree (calls sub script s) (calls sub' script t) ∧
      AsksAsWritten sub script s ∧ AsksAsWritten sub' script t ∧
      PutsInPlace sub ∧ PutsInPlace sub' := by
  have ⟨hresults, _⟩ := Coupling.all (Coupling.substitutors_unfailing h h') script
    (s := s) (t := t) trivial
  have hasks := asksAsWritten h script s
  have hasks' := asksAsWritten h' script t
  exact ⟨hresults.imp fun _ _ => sameShape_of_results, agree_of_asks hasks.asks hasks'.asks, hasks,
    hasks', putsInPlace sub, putsInPlace sub'⟩

/-- A substitutor that answers every question with the same value. -/
def constant (v : Value) : Substitutor Unit where
  resolve _ := pure v
  execute _ := pure v

theorem neverFails_constant (v : Value) : (constant v).NeverFails :=
  ⟨fun _ s => ⟨v, s, rfl⟩, fun _ s => ⟨v, s, rfl⟩⟩

theorem all_single_pass_injection :
    (constant (.string "a b")).NeverFails ∧ (constant (.string "]; [$x")).NeverFails ∧
      questions "p $x($i) \"[q] $y(1)\"" =
        [.named "i", .element "x" "$i", .script "q", .element "y" "1"] ∧
      calls (constant (.string "a b")) "p $x($i) \"[q] $y(1)\"" () =
        [.resolve "i", .resolve "x(a b)", .execute "q", .resolve "y(1)"] ∧
      Forall₂ Call.Agree (calls (constant (.string "a b")) "p $x($i) \"[q] $y(1)\"" ())
        (calls (constant (.string "]; [$x")) "p $x($i) \"[q] $y(1)\"" ()) :=
  ⟨neverFails_constant _, neverFails_constant _, by decide +kernel, by decide +kernel,
    (all_single_pass (neverFails_constant _) (neverFails_constant _) _ () ()).2.1⟩

end Builder

end CommandScript
