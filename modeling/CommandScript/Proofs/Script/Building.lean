import CommandScript.Script.Command

/-!
# Building word by word

`Builder.all` builds command after command, each from the words that the one before it left.
`Builder.stream` goes through the words once, with the command under construction at hand, and
gives what it completes; the two agree (`Builder.allWithin_eq_stream`). A separator splits the
stream in two (`Builder.stream_append_eol`).
-/

namespace CommandScript

/-- A word of this kind is substituted and becomes part of a command. -/
def WordKind.isPiece : WordKind → Bool
  | .eof | .eol | .blank | .comment | .illegal => false
  | _ => true

theorem WordKind.role (k : WordKind) :
    k = .eof ∨ k = .eol ∨ k = .blank ∨ k = .comment ∨ k = .illegal ∨ k.isPiece = true := by
  cases k <;> simp [isPiece]

theorem WordKind.ne_illegal_of_isPiece {k : WordKind} (h : k.isPiece = true) : k ≠ .illegal := by
  rintro rfl
  cases h

theorem WordKind.isPiece_of_ne {k : WordKind} (heof : k ≠ .eof) (heol : k ≠ .eol)
    (hblank : k ≠ .blank) (hcomment : k ≠ .comment) (hillegal : k ≠ .illegal) :
    k.isPiece = true := by
  rcases k.role with h | h | h | h | h | h
  all_goals first | exact h | contradiction

namespace Builder

variable {σ : Type} {sub : Substitutor σ} {d : Draft} {w : Word} {rest : List Word} {s : σ}

/-! ## One step -/

theorem length_rest_nextFrom_le (sub : Substitutor σ) (d : Draft) (ws : List Word) (s : σ) :
    (nextFrom sub d ws s).rest.length ≤ ws.length := by
  fun_induction nextFrom sub d ws s <;> simp_all <;> omega

theorem length_rest_next_lt (sub : Substitutor σ) (w : Word) (ws : List Word) (s : σ) :
    (next sub (w :: ws) s).rest.length < (w :: ws).length := by
  have hle := fun d s => length_rest_nextFrom_le sub d ws s
  unfold next nextFrom
  split <;> try split
  all_goals simp only [List.length_cons, List.length_nil]
  all_goals first | omega | exact Nat.lt_succ_of_le (hle _ _)

theorem begun_closeWord (d : Draft) : d.closeWord.begun = d.begun := by
  unfold Draft.closeWord
  split <;> rfl

/-! ## The stream -/

/-- What building gives from the words that follow the draft `d`. -/
def stream (sub : Substitutor σ) : Draft → List Word → σ → List (Except Stop Command) × σ
  | d, [], s => (d.finish.toList.map .ok, s)
  | d, w :: rest, s =>
    match w.kind with
    | .eof => (d.finish.toList.map .ok, s)
    | .eol => (stream sub {} rest s).map (d.finish.toList.map .ok ++ ·) id
    | .blank => stream sub (d.space w.source) rest s
    | .comment => stream sub d rest s
    | .illegal => ([.error (.raised (.ofFault w.unterminated))], s)
    | _ =>
      match sub.word w s with
      | .ok v s => stream sub (d.push w v) rest s
      | .error stop s => (stream sub {} rest s).map (.error stop :: ·) id

theorem stream_eof (h : w.kind = .eof) :
    stream sub d (w :: rest) s = (d.finish.toList.map .ok, s) := by
  rw [stream, h]

theorem stream_eol (h : w.kind = .eol) :
    stream sub d (w :: rest) s = (stream sub {} rest s).map (d.finish.toList.map .ok ++ ·) id := by
  rw [stream, h]

theorem stream_blank (h : w.kind = .blank) :
    stream sub d (w :: rest) s = stream sub (d.space w.source) rest s := by
  rw [stream, h]

theorem stream_comment (h : w.kind = .comment) :
    stream sub d (w :: rest) s = stream sub d rest s := by
  rw [stream, h]

theorem stream_illegal (h : w.kind = .illegal) :
    stream sub d (w :: rest) s = ([.error (.raised (.ofFault w.unterminated))], s) := by
  rw [stream, h]

theorem stream_ok (h : w.kind.isPiece = true) {v : Value} {s' : σ} (hv : sub.word w s = .ok v s') :
    stream sub d (w :: rest) s = stream sub (d.push w v) rest s' := by
  rw [stream]
  split <;> simp_all [WordKind.isPiece]

theorem stream_error (h : w.kind.isPiece = true) {stop : Stop} {s' : σ}
    (hv : sub.word w s = .error stop s') :
    stream sub d (w :: rest) s = (stream sub {} rest s').map (.error stop :: ·) id := by
  rw [stream]
  split <;> simp_all [WordKind.isPiece]

/-- The stream that begins with what a step gave and goes on with the words it left. -/
def resume (sub : Substitutor σ) (built : Built σ) : List (Except Stop Command) × σ :=
  match built.result with
  | .ok none => ([], built.state)
  | .ok (some command) => (stream sub {} built.rest built.state).map (.ok command :: ·) id
  | .error stop => (stream sub {} built.rest built.state).map (.error stop :: ·) id

theorem resume_finish (sub : Substitutor σ) (d : Draft) (s : σ) :
    resume sub ⟨.ok d.finish, [], s⟩ = (d.finish.toList.map .ok, s) := by
  unfold resume
  cases d.finish with
  | none => rfl
  | some command => rfl

theorem stream_eq_resume (sub : Substitutor σ) (d : Draft) (ws : List Word) (s : σ) :
    stream sub d ws s = resume sub (nextFrom sub d ws s) := by
  fun_induction nextFrom sub d ws s with
  | case1 d s => exact (resume_finish sub d s).symm
  | case2 d w rest s h => rw [stream_eof h, resume_finish]
  | case3 d w rest s h command hfinish =>
    rw [stream_eol h, hfinish]
    rfl
  | case4 d w rest s h hfinish ih =>
    rw [stream_eol h, hfinish, ← ih]
    rfl
  | case5 d w rest s h ih => rw [stream_blank h, ih]
  | case6 d w rest s h ih => rw [stream_comment h, ih]
  | case7 d w rest s h =>
    rw [stream_illegal h]
    rfl
  | case8 d w rest s v s' hv heof heol hblank hcomment hillegal ih =>
    rw [stream_ok (WordKind.isPiece_of_ne heof heol hblank hcomment hillegal) hv, ih]
  | case9 d w rest s stop s' hv heof heol hblank hcomment hillegal =>
    rw [stream_error (WordKind.isPiece_of_ne heof heol hblank hcomment hillegal) hv]
    rfl

theorem allWithin_eq_stream {fuel : Nat} {ws : List Word} (h : ws.length < fuel) (s : σ) :
    allWithin sub fuel ws s = stream sub {} ws s := by
  induction fuel generalizing ws s with
  | zero => cases h
  | succ fuel ih =>
    rw [allWithin, stream_eq_resume]
    cases ws with
    | nil => rfl
    | cons w ws =>
      have hlt := length_rest_next_lt sub w ws s
      have hrest : (next sub (w :: ws) s).rest.length < fuel := by omega
      rw [ih hrest]
      rfl

theorem all_eq_stream (sub : Substitutor σ) (script : String) (s : σ) :
    all sub script s = stream sub {} (words .command script) s :=
  allWithin_eq_stream (Nat.lt_succ_self _) s

/-! ## Separators -/

theorem stream_append_eol {sep last : Word} (hsep : sep.kind = .eol) (hlast : last.kind = .eof)
    {ws : List Word} (hws : ∀ w ∈ ws, w.kind ≠ .eof ∧ w.kind ≠ .illegal) (d : Draft)
    (more : List Word) (s : σ) :
    stream sub d (ws ++ sep :: more) s =
      (stream sub {} more (stream sub d (ws ++ [last]) s).2).map
        ((stream sub d (ws ++ [last]) s).1 ++ ·) id := by
  induction ws generalizing d s with
  | nil =>
    rw [List.nil_append, List.nil_append, stream_eol hsep, stream_eof hlast]
  | cons w ws ih =>
    have hw := hws w List.mem_cons_self
    have ih := fun d s => ih (fun w hmem => hws w (List.mem_cons_of_mem _ hmem)) d s
    rw [List.cons_append, List.cons_append]
    rcases w.kind.role with h | h | h | h | h | h
    · exact absurd h hw.1
    · rw [stream_eol h, stream_eol h, ih]
      simp [Prod.map, List.append_assoc]
    · rw [stream_blank h, stream_blank h, ih]
    · rw [stream_comment h, stream_comment h, ih]
    · exact absurd h hw.2
    · cases hv : sub.word w s with
      | ok v s' => rw [stream_ok h hv, stream_ok h hv, ih]
      | error stop s' =>
        rw [stream_error h hv, stream_error h hv, ih]
        simp [Prod.map]

end Builder

end CommandScript
