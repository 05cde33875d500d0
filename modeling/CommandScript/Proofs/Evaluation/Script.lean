import CommandScript.Expr.Eval
import CommandScript.Proofs.Evaluation.Discipline
import CommandScript.Script.Command

/-!
# Substitution under a discipline

Substitutors that agree on variables and nested scripts give the same words, the same commands and
the same values of expressions, and keep to the discipline while they do.
-/

namespace CommandScript.Action.Discipline

variable {σ : Type} {D : Discipline σ} {room : Nat} {sub sub' : Substitutor σ}

/-- Two substitutors do the same and keep to the discipline. -/
structure AgreeSubstitutor (D : Discipline σ) (room : Nat) (sub sub' : Substitutor σ) : Prop where
  resolve : ∀ name, D.Agree room (sub.resolve name) (sub'.resolve name)
  execute : ∀ script, D.Agree room (sub.execute script) (sub'.execute script)

namespace AgreeSubstitutor

/-! ## Words -/

theorem variableWith (h : D.AgreeSubstitutor room sub sub') {text text' : String → Action σ Value}
    (htext : ∀ t, D.Agree room (text t) (text' t)) (name : String) :
    D.Agree room (sub.variableWith text name) (sub'.variableWith text' name) := by
  unfold Substitutor.variableWith
  split
  · exact (htext _).bind fun _ _ => h.resolve _
  · exact h.resolve _

theorem pieces (h : D.AgreeSubstitutor room sub sub')
    {reference reference' : String → Action σ Value}
    (href : ∀ name, D.Agree room (reference name) (reference' name)) (ws : List Word) :
    D.Agree room (sub.pieces reference ws) (sub'.pieces reference' ws) := by
  have hcons : ∀ {v : Value} {vs : List Value}, D.values.Has v → D.values.All vs →
      D.values.All (v :: vs) := fun hv hvs => List.forall_mem_cons.2 ⟨hv, hvs⟩
  induction ws with
  | nil => exact Agree.pure fun _ hv => by cases hv
  | cons w rest ih =>
    unfold Substitutor.pieces
    split
    · exact Agree.pure fun _ hv => by cases hv
    · exact Agree.fail _
    · exact (href _).bind fun v hv => ih.return fun vs hvs => hcons hv hvs
    · exact (h.execute _).bind fun v hv => ih.return fun vs hvs => hcons hv hvs
    · exact ih.return fun vs hvs => hcons (.string _) hvs

theorem textWithin (h : D.AgreeSubstitutor room sub sub') (fuel : Nat) (t : String) :
    D.Agree room (sub.textWithin fuel t) (sub'.textWithin fuel t) := by
  induction fuel generalizing t with
  | zero => exact Agree.halt _
  | succ fuel ih => exact (h.pieces (h.variableWith ih) _).return fun _ hvs => .joinPieces hvs

theorem text (h : D.AgreeSubstitutor room sub sub') (t : String) :
    D.Agree room (sub.text t) (sub'.text t) := h.textWithin _ t

theorem reference (h : D.AgreeSubstitutor room sub sub') (name : String) :
    D.Agree room (sub.reference name) (sub'.reference name) := h.variableWith h.text name

theorem word (h : D.AgreeSubstitutor room sub sub') (w : Word) :
    D.Agree room (sub.word w) (sub'.word w) := by
  unfold Substitutor.word
  split
  · exact h.reference _
  · exact h.execute _
  · exact h.text _
  · exact Agree.pure (.string _)

/-! ## Expressions -/

theorem toOperand {ε : Type} [Fault ε] {x y : Action σ Value} (h : D.Agree room x y)
    (convert : Value → Except ε Operand) :
    D.Agree room (do Action.ofExcept (convert (← x))) (do Action.ofExcept (convert (← y))) :=
  h.bind fun _ _ => Agree.ofExcept fun _ _ => trivial

mutual

theorem eval (h : D.AgreeSubstitutor room sub sub') (e : Expr) :
    D.Agree room (e.eval sub) (e.eval sub') := by
  unfold Expr.eval
  match e with
  | .literal _ => exact Agree.pure trivial
  | .varRef _ => exact toOperand (h.reference _) _
  | .script _ => exact toOperand (h.execute _) _
  | .quote _ => exact toOperand (h.text _) _
  | .block _ => exact Agree.ofExcept fun _ _ => trivial
  | .unary _ arg => exact (h.eval arg).bind fun _ _ => Agree.ofExcept fun _ _ => trivial
  | .binary _ left right =>
    refine (h.eval left).bind fun _ _ => (h.eval right).bind fun _ _ => ?_
    exact Agree.ofExcept fun _ _ => trivial
  | .and left right =>
    refine (h.eval left).bind fun _ _ => Agree.ite _ ?_ (Agree.pure trivial)
    exact (h.eval right).return fun _ _ => trivial
  | .or left right =>
    refine (h.eval left).bind fun _ _ => Agree.ite _ (Agree.pure trivial) ?_
    exact (h.eval right).return fun _ _ => trivial
  | .ternary condition yes no =>
    exact (h.eval condition).bind fun _ _ => Agree.ite _ (h.eval yes) (h.eval no)
  | .call _ args => exact (h.evalAll args).bind fun _ _ => Agree.ofExcept fun _ _ => trivial

theorem evalAll (h : D.AgreeSubstitutor room sub sub') (args : List Expr) :
    D.Agree room (Expr.evalAll sub args) (Expr.evalAll sub' args) := by
  unfold Expr.evalAll
  match args with
  | [] => exact Agree.pure fun _ _ => trivial
  | e :: rest => exact (h.eval e).bind fun _ _ => (h.evalAll rest).return fun _ _ _ _ => trivial

end

theorem evalText (h : D.AgreeSubstitutor room sub sub') (t : String) :
    D.Agree room (Expr.evalText sub t) (Expr.evalText sub' t) :=
  .ofExcept_bind fun e _ => h.eval e

/-! ## Commands -/

/-- The words and pieces of a command under construction are of the kind. -/
structure DraftHas (K : Value.Kind) (d : Draft) : Prop where
  words : K.All d.words
  pieces : K.All d.pieces

namespace DraftHas

variable {K : Value.Kind} {d : Draft}

theorem empty : DraftHas K {} := ⟨fun _ hv => (by cases hv), fun _ hv => (by cases hv)⟩

theorem closeWord (h : DraftHas K d) : DraftHas K d.closeWord := by
  unfold Draft.closeWord
  split
  · exact h
  · refine ⟨fun v hv => ?_, fun _ hv => by cases hv⟩
    rcases List.mem_append.1 hv with hv | hv
    · exact h.words v hv
    · cases List.mem_singleton.1 hv
      exact .joinPieces h.pieces

theorem space (h : DraftHas K d) (blanks : String) : DraftHas K (d.space blanks) :=
  ⟨h.closeWord.words, h.closeWord.pieces⟩

theorem push (h : DraftHas K d) (w : Word) {v : Value} (hv : K.Has v) :
    DraftHas K (d.push w v) := by
  refine ⟨h.words, fun u hu => ?_⟩
  rcases List.mem_append.1 hu with hu | hu
  · exact h.pieces u hu
  · cases List.mem_singleton.1 hu
    exact hv

theorem finish (h : DraftHas K d) {c : Command} (hc : d.finish = some c) : K.All c.words := by
  obtain ⟨begun, _, rfl⟩ := Option.map_eq_some_iff.1 hc
  exact h.closeWord.words

end DraftHas

/-- How the building of a command may end. -/
def BuiltEnds (D : Discipline σ) (room : Nat) (s : σ) (built : Built σ) : Prop :=
  match built.result with
  | .ok command? =>
    D.Allows s built.state ∧ ∀ command, command? = some command → D.values.All command.words
  | .error stop => D.Ends room s (.error stop built.state : EStateM.Result Stop σ Value)

theorem BuiltEnds.of_moves {s t : σ} (ht : D.moves s t) {built : Built σ}
    (h : BuiltEnds D room t built) : BuiltEnds D room s built := by
  unfold BuiltEnds at h ⊢
  split at h
  · exact ⟨h.1.of_moves ht, h.2⟩
  · exact Ends.of_moves ht h

theorem nextFrom (h : D.AgreeSubstitutor room sub sub') {d : Draft} (hd : DraftHas D.values d)
    (ws : List Word) {s : σ} (hs : D.inv s) :
    Builder.nextFrom sub d ws s = Builder.nextFrom sub' d ws s ∧
      BuiltEnds D room s (Builder.nextFrom sub d ws s) := by
  induction ws generalizing d s with
  | nil => exact ⟨rfl, .refl hs, fun _ hc => hd.finish hc⟩
  | cons w rest ih =>
    unfold Builder.nextFrom
    split
    · exact ⟨rfl, .refl hs, fun _ hc => hd.finish hc⟩
    · split
      · rename_i command hcommand
        exact ⟨rfl, .refl hs, fun _ hc => by cases hc; exact hd.finish hcommand⟩
      · exact ih .empty hs
    · exact ih (hd.space _) hs
    · exact ih hd hs
    · exact ⟨rfl, .refl hs, .ofFault _⟩
    · obtain ⟨heq, hends⟩ := h.word w s hs
      rw [← heq]
      cases hw : sub.word w s with
      | ok v t =>
        rw [hw] at hends
        obtain ⟨hnext, hbuilt⟩ := ih (hd.push w hends.2) hends.1.1
        exact ⟨hnext, hbuilt.of_moves hends.1.2⟩
      | error stop t =>
        rw [hw] at hends
        refine ⟨rfl, ?_⟩
        cases stop <;> exact hends

end AgreeSubstitutor

end CommandScript.Action.Discipline
