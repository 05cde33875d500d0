import CommandScript.Proofs.Script.Locality
import CommandScript.Proofs.Script.Newline
import CommandScript.Proofs.Script.Origins
import CommandScript.Proofs.Script.SinglePass

/-!
# The source of a command

A command keeps the text it was built from, from its first word to its last: a stretch of the script
(`Builder.source_standsIn`). Building that text on its own gives the command again, if its values do
not depend on a state (`Takes.rebuilds`): a word is read as it was where the text ends behind it
(`Scanner.ReadsTo.replace`).

There is one exception. A fault in the middle of a line leaves the words after it to be built as a
command of their own, and `#` does not begin a comment there, but it does where the source begins
(`Builder.source_rebuilds_iff`).
-/

namespace CommandScript

open Scanner

variable {σ : Type}

/-! ## Answers without a state -/

/-- The substitutor that looks its answers up. -/
def Substitutor.table (vars scripts : String → Value) : Substitutor Unit where
  resolve name := pure (vars name)
  execute script := pure (scripts script)

/-- Every question is answered, and the answer does not depend on the state. -/
structure Substitutor.Answers (sub : Substitutor σ) (vars scripts : String → Value) :
    Prop where
  resolve : ∀ name s, ∃ t, sub.resolve name s = .ok (vars name) t
  execute : ∀ script s, ∃ t, sub.execute script s = .ok (scripts script) t

/-- Two runs that give the same, whatever their states. -/
def Coupling.agreeing (σ τ : Type) : Coupling σ τ where
  states _ _ := True
  values := (· = ·)
  stops _ := True
  refl _ := rfl
  join := (recording σ).join
  faults _ := trivial

namespace Substitutor.Answers

variable {sub : Substitutor σ} {vars scripts : String → Value}

theorem related {v : Value} {act : Action σ Value} (h : ∀ s, ∃ t, act s = .ok v t) :
    (Coupling.agreeing σ Unit).Related (· = ·) act (pure v) := by
  intro s t _
  obtain ⟨s', hs⟩ := h s
  rw [hs]
  exact .ok rfl trivial

variable (h : sub.Answers vars scripts)

include h

theorem substitutors : (Coupling.agreeing σ Unit).Substitutors sub (table vars scripts) where
  resolve name := related (h.resolve name)
  element array i j hij := by
    rw [show i = j from hij]
    exact related (h.resolve _)
  execute script := related (h.execute script)

theorem all_eq (script : String) (s : σ) :
    (Builder.all sub script s).1 = (Builder.all (table vars scripts) script ()).1 :=
  Coupling.eq_of_results (fun _ _ => id) (Coupling.all h.substitutors script trivial).1

theorem outcome_eq (script : String) (s : σ) :
    (Builder.outcome sub script s).1 = (Builder.outcome (table vars scripts) script ()).1 :=
  congrArg (List.map (Except.map Command.content)) (h.all_eq script s)

end Substitutor.Answers

/-! ## Drafts and the words they take -/

/-- The words are blanks and pieces, and with them the draft `d` becomes `d'`. -/
inductive Takes (sub : Substitutor Unit) : Draft → List Word → Draft → Prop where
  | nil (d : Draft) : Takes sub d [] d
  | blank {d d' : Draft} {w : Word} {ws : List Word} (hkind : w.kind = .blank)
    (h : Takes sub (d.space w.source) ws d') : Takes sub d (w :: ws) d'
  | piece {d d' : Draft} {w : Word} {ws : List Word} {v : Value} (hkind : w.kind.isPiece = true)
    (hv : sub.word w () = .ok v ()) (h : Takes sub (d.push w v) ws d') : Takes sub d (w :: ws) d'

namespace Takes

variable {sub : Substitutor Unit} {d d' d'' : Draft} {w : Word} {ws vs : List Word}

theorem append (h : Takes sub d ws d') (h' : Takes sub d' vs d'') :
    Takes sub d (ws ++ vs) d'' := by
  induction h with
  | nil => exact h'
  | blank hkind _ ih => exact .blank hkind (ih h')
  | piece hkind hv _ ih => exact .piece hkind hv (ih h')

theorem stream_append (h : Takes sub d ws d') (more : List Word) :
    Builder.stream sub d (ws ++ more) () = Builder.stream sub d' more () := by
  induction h with
  | nil => rfl
  | blank hkind _ ih => rw [List.cons_append, Builder.stream_blank hkind, ih]
  | piece hkind hv _ ih => rw [List.cons_append, Builder.stream_ok hkind hv, ih]

theorem ne_illegal (h : Takes sub d ws d') : ∀ w ∈ ws, w.kind ≠ .illegal := by
  induction h with
  | nil => exact fun _ hw => absurd hw List.not_mem_nil
  | blank hkind _ ih => exact List.forall_mem_cons.2 ⟨by rw [hkind]; exact WordKind.noConfusion, ih⟩
  | piece hkind _ _ ih => exact List.forall_mem_cons.2 ⟨WordKind.ne_illegal_of_isPiece hkind, ih⟩

/-- A draft that has begun takes the words up to the last piece into its source; the blanks after
that do not matter to the command. -/
theorem exists_core (h : Takes sub d ws d') {source : String} {line : Nat}
    (hd : d.begun = some (source, line)) :
    ∃ core blanks last, ws = core ++ blanks ∧ Takes sub d core last ∧ d'.finish = last.finish ∧
      (core = [] ∧ last = d ∨
        last.begun = some (source ++ d.gap ++ String.ofList (sources core), line)) := by
  induction h generalizing source with
  | nil d => exact ⟨[], [], d, rfl, .nil d, rfl, .inl ⟨rfl, rfl⟩⟩
  | @blank d d' w ws hkind h ih =>
    have hspace : (d.space w.source).begun = some (source, line) :=
      (Builder.begun_closeWord d).trans hd
    obtain ⟨core, blanks, last, rfl, htakes, hfinish, ⟨rfl, rfl⟩ | hbegun⟩ := ih hspace
    · exact ⟨[], w :: blanks, d, rfl, .nil d, hfinish.trans (d.finish_space _), .inl ⟨rfl, rfl⟩⟩
    · refine ⟨w :: core, blanks, last, rfl, .blank hkind htakes, hfinish, .inr ?_⟩
      rw [hbegun, Draft.gap_space]
      simp [sources, String.append_assoc]
  | @piece d d' w ws v hkind hv h ih =>
    have hpush : (d.push w v).begun = some (source ++ d.gap ++ w.source, line) := by
      rw [Draft.push, hd]
    obtain ⟨core, blanks, last, rfl, htakes, hfinish, hcore⟩ := ih hpush
    refine ⟨w :: core, blanks, last, rfl, .piece hkind hv htakes, hfinish, .inr ?_⟩
    rcases hcore with ⟨rfl, rfl⟩ | hbegun
    · rw [hpush]
      simp [sources]
    · rw [hbegun]
      simp [sources, Draft.push, String.append_assoc]

end Takes

/-! ## Reading a source again -/

namespace Scanner

variable {start stop : Bool} {cs rest : List Char} {w : Word} {ws vs : List Word}

namespace ReadsTo

theorem left (h : ReadsTo start cs (ws ++ vs) stop rest) :
    ∃ stop' rest', ReadsTo start cs ws stop' rest' := by
  induction ws generalizing start cs with
  | nil => exact ⟨start, cs, .done start cs⟩
  | cons w ws ih =>
    rw [List.cons_append] at h
    cases h with
    | cons hne hlex h =>
      obtain ⟨stop', rest', h'⟩ := ih h
      exact ⟨stop', rest', .cons hne hlex h'⟩

theorem head?_sources (h : ReadsTo start cs (w :: ws) stop rest) :
    (sources (w :: ws)).head? = cs.head? := by
  cases h with
  | @cons _ _ _ _ _ lex hne hlex h =>
    obtain ⟨c, cs, rfl⟩ := List.exists_cons_of_ne_nil hne
    have htiles := tiles_commandLexeme start c cs
    rw [hlex] at htiles
    obtain ⟨d, ds, htaken⟩ := List.exists_cons_of_ne_nil htiles.taken_ne_nil
    rw [sources_cons_word, ← htiles.append, htaken]
    rfl

/-- A word that is no comment does not begin with `#` where a command can begin. -/
theorem head?_ne (h : ReadsTo true cs (w :: ws) stop rest) (hw : w.kind.isPiece = true) :
    cs.head? ≠ some '#' := by
  intro hhead
  obtain ⟨cs, rfl⟩ := List.head?_eq_some_iff.1 hhead
  cases h with
  | cons hne hlex h =>
    subst hlex
    cases hw

/-- Only for `#` does it matter to a word whether a command can begin with it. -/
theorem atStart (h : ReadsTo start cs (w :: ws) stop rest) (hw : w.kind.isPiece = true)
    (hhead : cs.head? ≠ some '#') : ReadsTo true cs (w :: ws) stop rest := by
  cases h with
  | @cons _ _ _ _ _ lex hne hlex h =>
    obtain ⟨c, cs, rfl⟩ := List.exists_cons_of_ne_nil hne
    have hc : c ≠ '#' := fun hc => hhead (congrArg some hc)
    have hsame : commandLexeme true (c :: cs) = lex := by
      rw [← hlex]
      simp [commandLexeme, hc]
    have hkind : lex.kind.isPiece = true := hw
    refine .cons hne hsame ?_
    rw [startAfter_of_isPiece hkind] at h ⊢
    exact h

end ReadsTo

end Scanner

open Builder

variable {sub : Substitutor Unit}

/-- The words that a draft has taken from its first piece on, up to its last piece, are its
source. -/
theorem Takes.exists_source {w : Word} {ws : List Word} {d : Draft} (hw : w.kind.isPiece = true)
    (h : Takes sub {} (w :: ws) d) :
    ∃ core blanks last, ws = core ++ blanks ∧ Takes sub {} (w :: core) last ∧
      d.finish = last.finish ∧
      last.begun = some (String.ofList (sources (w :: core)), w.line) := by
  cases h with
  | blank hkind => rw [hkind] at hw; cases hw
  | piece hkind hv h =>
    obtain ⟨core, blanks, last, rfl, htakes, hfinish, hcore⟩ := h.exists_core rfl
    refine ⟨core, blanks, last, rfl, .piece hw hv htakes, hfinish, ?_⟩
    rcases hcore with ⟨rfl, rfl⟩ | hbegun
    · simp [Draft.push, sources]
    · rw [hbegun]
      simp [Draft.push, sources]

/-- The text of words that were read and taken from the first piece on builds the same command. -/
theorem Takes.rebuilds {start stop : Bool} {cs rest : List Char} {w : Word} {ws : List Word}
    {d : Draft} (hread : ReadsTo start cs (w :: ws) stop rest) (hw : w.kind.isPiece = true)
    (h : Takes sub {} (w :: ws) d) :
    ∃ c, d.finish = some c ∧ c.source.toList.head? = cs.head? ∧
      (cs.head? ≠ some '#' → (outcome sub c.source ()).1 = [.ok c.content]) := by
  obtain ⟨core, blanks, last, rfl, htakes, hfinish, hbegun⟩ := h.exists_source hw
  rw [← List.cons_append] at hread
  obtain ⟨stop', rest', hread⟩ := hread.left
  have hlast : last.finish =
      some ⟨last.closeWord.words, String.ofList (sources (w :: core)), w.line⟩ := by
    rw [Draft.finish, hbegun]
    rfl
  refine ⟨_, hfinish.trans hlast, ?_, fun hhead => ?_⟩
  · rw [String.toList_ofList, hread.head?_sources]
  · -- Nothing follows the words now, and they are read from the start of a command.
    have hagain := (hread.atStart hw hhead).replace (.inl rfl : Lexeme.Replaces [] rest')
    rw [List.append_nil] at hagain
    have hwords : reading true (sources (w :: core)) = w :: core ++ reading stop' [] :=
      hagain.reading_eq
    have hcomplete : isComplete (String.ofList (sources (w :: core))) = true := by
      rw [isComplete_iff_reading, String.toList_ofList, hwords, List.forall_mem_append]
      exact ⟨htakes.ne_illegal, by simp [reading_nil, Lexeme.word, Lexeme.verbatim]⟩
    rw [outcome_eq_reading hcomplete, String.toList_ofList, hwords, htakes.stream_append,
      reading_nil, stream_eof rfl, hlast]
    rfl

/-! ## Every command of a script -/

/-- Each command is built again from its source, unless that begins with `#`, which only happens
right after an error; `faulted` tells if there was one just before. -/
inductive Faithful (sub : Substitutor Unit) : Bool → List (Except Stop Command) → Prop where
  | nil (faulted : Bool) : Faithful sub faulted []
  | error {faulted : Bool} {stop : Stop} {rs : List (Except Stop Command)}
    (h : Faithful sub true rs) : Faithful sub faulted (.error stop :: rs)
  | ok {faulted : Bool} {c : Command} {rs : List (Except Stop Command)}
    (hcomment : c.source.toList.head? = some '#' → faulted = true)
    (hrebuilt : c.source.toList.head? ≠ some '#' →
      (outcome sub c.source ()).1 = [.ok c.content])
    (h : Faithful sub false rs) : Faithful sub faulted (.ok c :: rs)

theorem Faithful.of_append {faulted : Bool} {front back : List (Except Stop Command)} {c : Command}
    (h : Faithful sub faulted (front ++ .ok c :: back)) :
    (c.source.toList.head? ≠ some '#' → (outcome sub c.source ()).1 = [.ok c.content]) ∧
      (c.source.toList.head? = some '#' →
        front = [] ∧ faulted = true ∨ ∃ stop, front.getLast? = some (.error stop)) := by
  induction front generalizing faulted with
  | nil =>
    cases h with
    | ok hcomment hrebuilt h => exact ⟨hrebuilt, fun hhead => .inl ⟨rfl, hcomment hhead⟩⟩
  | cons r front ih =>
    -- What comes last of a longer row is what comes last after the first, if there is more.
    obtain ⟨faulted', h', hr⟩ : ∃ faulted', Faithful sub faulted' (front ++ .ok c :: back) ∧
        (faulted' = true → ∃ stop, r = .error stop) := by
      cases h with
      | error h => exact ⟨true, h, fun _ => ⟨_, rfl⟩⟩
      | ok _ _ h => exact ⟨false, h, Bool.noConfusion⟩
    obtain ⟨hrebuilt, hcomment⟩ := ih h'
    refine ⟨hrebuilt, fun hhead => .inr ?_⟩
    rcases hcomment hhead with ⟨rfl, hfaulted⟩ | ⟨stop, hlast⟩
    · obtain ⟨stop, rfl⟩ := hr hfaulted
      exact ⟨stop, rfl⟩
    · exact ⟨stop, by rw [List.getLast?_cons, hlast]; rfl⟩

/-- What is known of the draft when the scanner stands at `s`. One that has begun has taken the
words since its first; and a command can begin here unless an error or a comment came just
before. -/
inductive Ready (sub : Substitutor Unit) (faulted : Bool) (s : Scanner) : Draft → Prop where
  | fresh (gap : String) (h : faulted = true ∨ s.atCommandStart = true ∨
      ∀ c ∈ s.rest.head?, c = '\n') : Ready sub faulted s { gap }
  | begun {start : Bool} {cs : List Char} {w : Word} {ws : List Word} {d : Draft}
    (horigin : faulted = true ∨ start = true)
    (hread : ReadsTo start cs (w :: ws) s.atCommandStart s.rest)
    (hstart : s.atCommandStart = false) (hw : w.kind.isPiece = true)
    (htakes : Takes sub {} (w :: ws) d.unplaced) : Ready sub faulted s d

namespace Ready

variable {faulted : Bool} {s : Scanner} {d : Draft}

theorem of_start (faulted : Bool) (h : s.atCommandStart = true) : Ready sub faulted s {} :=
  .fresh "" (.inr (.inl h))

theorem finish (h : Ready sub faulted s d) {rs : List (Except Stop Command)}
    (hrs : ∀ faulted, Faithful sub faulted rs) :
    Faithful sub faulted (d.finish.toList.map .ok ++ rs) := by
  cases h with
  | fresh => exact hrs faulted
  | begun horigin hread hstart hw htakes =>
    obtain ⟨c, hfinish, hsource, hrebuilt⟩ := htakes.rebuilds hread hw
    have hcontent := d.content_finish_unplaced
    rw [hfinish, Option.map_some, eq_comm, Option.map_eq_some_iff] at hcontent
    obtain ⟨c', hfinish', hsame⟩ := hcontent
    have hsource' : c'.source = c.source := congrArg Prod.snd hsame
    rw [hfinish']
    refine .ok (fun hhead => ?_) (fun hhead => ?_) (hrs false)
    · rw [hsource', hsource] at hhead
      refine horigin.resolve_right ?_
      rintro rfl
      exact hread.head?_ne hw hhead
    · rw [hsource', hsource] at hhead
      rw [hsource', hsame, hrebuilt hhead]

/-! ### One word -/

/-- The next word is read after those before it. -/
theorem readsTo_next {start : Bool} {cs : List Char} {ws : List Word}
    (h : ReadsTo start cs ws s.atCommandStart s.rest)
    (hne : (s.next .command).1.kind ≠ .eof) :
    ReadsTo start cs (ws ++ [(s.next .command).1.unplaced]) (s.next .command).2.atCommandStart
      (s.next .command).2.rest := by
  have hrest : s.rest ≠ [] := fun hrest => hne ((kind_next_eq_eof_iff s .command).2 hrest)
  rw [atCommandStart_next hne]
  exact h.concat hrest

theorem kind_of_lineEnd {start : Bool} {cs : List Char} (h : ∀ c ∈ cs.head?, c = '\n') :
    (commandLexeme start cs).kind = .eof ∨ (commandLexeme start cs).kind = .eol := by
  cases cs with
  | nil => exact .inl rfl
  | cons c cs =>
    obtain rfl := h c rfl
    exact .inr rfl

theorem eol (hkind : (s.next .command).1.kind = .eol) (faulted : Bool) :
    Ready sub faulted (s.next .command).2 {} := by
  refine of_start faulted ?_
  have hlex : (commandLexeme s.atCommandStart s.rest).kind = .eol := hkind
  rw [atCommandStart_next (by rw [hkind]; exact WordKind.noConfusion), hlex]
  rfl

/-- A draft that has not begun stands where a command can begin, or after an error, if the next
word does not end the line. -/
theorem atStart_of_fresh
    (h : faulted = true ∨ s.atCommandStart = true ∨ ∀ c ∈ s.rest.head?, c = '\n')
    (heof : (s.next .command).1.kind ≠ .eof) (heol : (s.next .command).1.kind ≠ .eol) :
    faulted = true ∨ s.atCommandStart = true := by
  rcases h with h | h | h
  · exact .inl h
  · exact .inr h
  · exact ((kind_of_lineEnd h).elim heof heol).elim

theorem space (h : Ready sub faulted s d) (hkind : (s.next .command).1.kind = .blank) :
    Ready sub faulted (s.next .command).2 (d.space (s.next .command).1.source) := by
  have hlex : (commandLexeme s.atCommandStart s.rest).kind = .blank := hkind
  have heof : (s.next .command).1.kind ≠ .eof := by rw [hkind]; exact WordKind.noConfusion
  have heol : (s.next .command).1.kind ≠ .eol := by rw [hkind]; exact WordKind.noConfusion
  have hsame : (s.next .command).2.atCommandStart = s.atCommandStart := by
    rw [atCommandStart_next heof, hlex]
    rfl
  cases h with
  | fresh gap h =>
    refine .fresh (gap ++ _) ((atStart_of_fresh h heof heol).imp_right fun h => .inl ?_)
    rw [hsame, h]
  | begun horigin hread hstart hw htakes =>
    refine .begun horigin (readsTo_next hread heof) (hsame.trans hstart) hw ?_
    rw [← Draft.space_unplaced]
    exact htakes.append (.blank hkind (.nil _))

theorem comment (h : Ready sub faulted s d) (hkind : (s.next .command).1.kind = .comment) :
    Ready sub faulted (s.next .command).2 d := by
  have hlex : (commandLexeme s.atCommandStart s.rest).kind = .comment := hkind
  obtain ⟨hstart, hrest⟩ := comment_of_kind hlex
  cases h with
  | fresh gap h => exact .fresh gap (.inr (.inr hrest))
  | begun _ _ hstart' => rw [hstart] at hstart'; cases hstart'

theorem push (h : Ready sub faulted s d) (hkind : (s.next .command).1.kind.isPiece = true)
    {v : Value} (hv : sub.word (s.next .command).1 () = .ok v ()) :
    Ready sub faulted (s.next .command).2 (d.push (s.next .command).1 v) := by
  have hlex : (commandLexeme s.atCommandStart s.rest).kind.isPiece = true := hkind
  have heof : (s.next .command).1.kind ≠ .eof := by
    intro heof
    rw [heof] at hkind
    cases hkind
  have heol : (s.next .command).1.kind ≠ .eol := by
    intro heol
    rw [heol] at hkind
    cases hkind
  have hstart' : (s.next .command).2.atCommandStart = false := by
    rw [atCommandStart_next heof, startAfter_of_isPiece hlex]
  cases h with
  | fresh gap h =>
    refine .begun (atStart_of_fresh h heof heol) (readsTo_next (.done _ _) heof) hstart' hkind ?_
    exact .piece hkind hv (.nil _)
  | begun horigin hread hstart hw htakes =>
    refine .begun horigin (readsTo_next hread heof) hstart' hw ?_
    rw [← Draft.push_unplaced]
    exact htakes.append (.piece hkind hv (.nil _))

/-! ### All words -/

theorem faithful (h : Ready sub faulted s d) :
    Faithful sub faulted (stream sub d (s.wordsIn .command) ()).1 := by
  induction s using reading_induction .command generalizing faulted d with
  | last s heof =>
    rw [wordsIn_of_eof heof, stream_eof heof]
    simpa using h.finish fun faulted => .nil faulted
  | more s hne ih =>
    rw [wordsIn_of_ne_eof hne]
    rcases (s.next .command).1.kind.role with hk | hk | hk | hk | hk | hk
    · exact absurd hk hne
    · rw [stream_eol hk]
      exact h.finish fun faulted => ih (eol hk faulted)
    · rw [stream_blank hk]
      exact ih (h.space hk)
    · rw [stream_comment hk]
      exact ih (h.comment hk)
    · rw [stream_illegal hk]
      exact .error (.nil true)
    · cases hv : sub.word (s.next .command).1 () with
      | ok v s' =>
        rw [stream_ok hk hv]
        exact ih (h.push hk hv)
      | error stop s' =>
        rw [stream_error hk hv]
        exact .error (ih (.fresh "" (.inl rfl)))

end Ready

namespace Builder

/-- A command is built again from its source, unless that begins with `#`, and then an error came
right before. -/
theorem rebuilds_or_faulted {script : String} {front back : List (Except Stop Command)}
    {c : Command} (h : (all sub script ()).1 = front ++ .ok c :: back) :
    (c.source.toList.head? ≠ some '#' → (outcome sub c.source ()).1 = [.ok c.content]) ∧
      (c.source.toList.head? = some '#' → ∃ stop, front.getLast? = some (.error stop)) := by
  have hfaithful : Faithful sub false (all sub script ()).1 := by
    rw [all_eq_stream]
    exact (Ready.of_start false rfl).faithful
  rw [h] at hfaithful
  obtain ⟨hrebuilt, hcomment⟩ := hfaithful.of_append
  exact ⟨hrebuilt, fun hhead => (hcomment hhead).resolve_left fun hnone => Bool.noConfusion hnone.2⟩

/-- The source of a command is a stretch of the script. Building it on its own gives that command
and nothing else, just if it does not begin with `#`; and it begins with `#` only where an error
came right before. -/
theorem source_rebuilds_iff {sub : Substitutor σ} {vars scripts : String → Value}
    (hsub : sub.Answers vars scripts) {script : String} {s : σ}
    {front back : List (Except Stop Command)} {c : Command}
    (h : (all sub script s).1 = front ++ .ok c :: back) (t : σ) :
    ((outcome sub c.source t).1 = [.ok c.content] ↔ c.source.toList.head? ≠ some '#') ∧
      (c.source.toList.head? = some '#' → ∃ stop, front.getLast? = some (.error stop)) ∧
      c.StandsIn script := by
  have hstands : c.StandsIn script := source_standsIn (by rw [h]; exact List.mem_append_cons_self)
  rw [hsub.all_eq] at h
  rw [hsub.outcome_eq]
  obtain ⟨hrebuilt, hcomment⟩ := rebuilds_or_faulted h
  refine ⟨⟨fun hone hhead => ?_, hrebuilt⟩, hcomment, hstands⟩
  -- Were it built again, it would be the first command of a script, with no error before it.
  obtain ⟨r, hall, hr⟩ := List.map_eq_singleton_iff.1 hone
  cases r with
  | error stop => cases hr
  | ok c' =>
    have hfirst : (all (.table vars scripts) c.source ()).1 = [] ++ Except.ok c' :: [] := hall
    have hsource : c'.source = c.source := congrArg Prod.snd (Except.ok.inj hr)
    rw [← hsource] at hhead
    obtain ⟨stop, hnone⟩ := (rebuilds_or_faulted hfirst).2 hhead
    cases hnone

theorem answers_echo : echo.Answers .string .string :=
  ⟨fun _ s => ⟨s + 1, rfl⟩, fun _ s => ⟨s + 1, rfl⟩⟩

theorem source_rebuilds_iff_second :
    (all echo "a#b;# c\n p $y  # \t;d" 0).1 =
        [.ok ⟨[.string "a#b"], "a#b", 1⟩] ++
          .ok ⟨[.string "p", .string "y", .string "#"], "p $y  #", 2⟩ ::
            [.ok ⟨[.string "d"], "d", 2⟩] ∧
      (outcome echo "p $y  #" 7).1 =
        [.ok ([.string "p", .string "y", .string "#"], "p $y  #")] := by
  refine ⟨?hall, (source_rebuilds_iff answers_echo ?hall 7).1.2 (by decide)⟩
  rfl

/-- The fault in the quoted text leaves `#b` to be built, which is a comment on its own. -/
theorem source_after_fault_is_comment :
    (all echo "\"$\x7ba\" #b" 0).1 =
        [.error (.raised (.ofFault
            (⟨"missing close-brace for variable name", 1, 1⟩ : Unterminated))),
          .ok ⟨[.string "#b"], "#b", 1⟩] ∧
      (outcome echo "#b" 0).1 = [] :=
  ⟨rfl, rfl⟩

end Builder

end CommandScript
