import CommandScript.Proofs.Links.Acyclic
import CommandScript.Proofs.Table.Merge

/-!
# Arguments and parameters

A call is matched with the parameters from the left: each takes an argument while there are some and
its default after that, and a last parameter called `args` takes all that are left, as a list.
`Procedure.Matches` says so by the parameters one after another, `Procedure.given?` and
`Procedure.Fits` by their positions.

* `Procedure.exists_matches_iff`: which numbers of arguments can be matched.
* `Procedure.Matches.getElem?`: what each position is given.
* `Procedure.arguments_bound`: the variables of a call, and what comes of one that does not fit.
-/

namespace CommandScript.Procedure

variable {p : Parameter} {ps rest : List Parameter} {args : List Value} {v : Value}
  {entries : List (String × Value)}

/-! ## By position -/

/-- Whether the parameter at a position takes the arguments that are left. -/
def takesRest (ps : List Parameter) (i : Nat) : Bool :=
  i + 1 == ps.length && ps[i]?.any fun p => p.name == "args"

/-- What the parameter at a position is bound to. -/
def given? (ps : List Parameter) (args : List Value) (i : Nat) : Option Value :=
  if takesRest ps i then some (.list (args.drop i))
  else args[i]?.or (ps[i]?.bind Parameter.default)

/-- A call with `n` arguments has one for each parameter that needs one, and no more than there are
parameters to take them. -/
structure Fits (ps : List Parameter) (n : Nat) : Prop where
  needed (i : Nat) (p : Parameter) : ps[i]? = some p → n ≤ i → takesRest ps i = false →
    p.default.isSome = true
  room : (∃ i, takesRest ps i = true) ∨ n ≤ ps.length

theorem takesRest_zero (p : Parameter) (rest : List Parameter) :
    takesRest (p :: rest) 0 = (rest.isEmpty && p.name == "args") := by
  cases rest <;> simp [takesRest]

theorem takesRest_succ (p : Parameter) (rest : List Parameter) (i : Nat) :
    takesRest (p :: rest) (i + 1) = takesRest rest i := by
  simp [takesRest]

theorem given?_succ (p : Parameter) (rest : List Parameter) (args : List Value) (i : Nat) :
    given? (p :: rest) args (i + 1) = given? rest args.tail i := by
  cases args <;> simp [given?, takesRest_succ]

theorem fits_nil {n : Nat} : Fits [] n ↔ n = 0 := by
  constructor
  · intro h
    rcases h.room with ⟨i, hi⟩ | hle
    · simp [takesRest] at hi
    · exact Nat.le_zero.1 hle
  · rintro rfl
    exact ⟨fun i p hp => by simp at hp, .inr (Nat.le_refl 0)⟩

theorem fits_of_takesRest (h : takesRest (p :: rest) 0 = true) (n : Nat) : Fits (p :: rest) n := by
  refine ⟨fun i q hq _ hi => ?_, .inl ⟨0, h⟩⟩
  cases i with
  | zero => rw [h] at hi; cases hi
  | succ i =>
    have hlast : 0 + 1 = (p :: rest).length := by
      rw [takesRest, Bool.and_eq_true, beq_iff_eq] at h
      exact h.1
    have hi := (List.getElem?_eq_some_iff.1 hq).1
    omega

theorem fits_cons (h : takesRest (p :: rest) 0 = false) {n : Nat} :
    Fits (p :: rest) n ↔ (n = 0 → p.default.isSome = true) ∧ Fits rest (n - 1) := by
  constructor
  · rintro ⟨hneeded, hroom⟩
    refine ⟨fun hn => hneeded 0 p rfl (by omega) h, fun i q hq hi hrest => ?_, ?_⟩
    · exact hneeded (i + 1) q hq (by omega) (by rwa [takesRest_succ])
    · rcases hroom with ⟨i, hi⟩ | hle
      · cases i with
        | zero => rw [h] at hi; cases hi
        | succ i => exact .inl ⟨i, by rwa [takesRest_succ] at hi⟩
      · rw [List.length_cons] at hle
        exact .inr (by omega)
  · rintro ⟨hfirst, hneeded, hroom⟩
    refine ⟨fun i q hq hi hrest => ?_, ?_⟩
    · cases i with
      | zero =>
        cases hq
        exact hfirst (by omega)
      | succ i => exact hneeded i q hq (by omega) (by rwa [takesRest_succ] at hrest)
    · rcases hroom with ⟨i, hi⟩ | hle
      · exact .inl ⟨i + 1, by rwa [takesRest_succ]⟩
      · rw [List.length_cons]
        exact .inr (by omega)

/-! ## One after another -/

/-- The entries that the arguments of a call make, matched with the parameters from the left. -/
inductive Matches : List Parameter → List Value → List (String × Value) → Prop
  | done : Matches [] [] []
  | rest {p : Parameter} {ps : List Parameter} (args : List Value) :
      takesRest (p :: ps) 0 = true → Matches (p :: ps) args [("args", .list args)]
  | next {p : Parameter} {ps : List Parameter} {v : Value} {args : List Value}
      {entries : List (String × Value)} : takesRest (p :: ps) 0 = false →
      args.head?.or p.default = some v → Matches ps args.tail entries →
      Matches (p :: ps) args ((p.name, v) :: entries)

theorem takesRest_zero_iff : takesRest (p :: ps) 0 = true ↔ ps = [] ∧ p.name = "args" := by
  rw [takesRest_zero, Bool.and_eq_true, List.isEmpty_iff, beq_iff_eq]

theorem matches_of_takesRest (h : takesRest (p :: ps) 0 = true) :
    Matches (p :: ps) args entries ↔ entries = [("args", .list args)] := by
  constructor
  · intro hmatches
    cases hmatches with
    | rest => rfl
    | next hfalse => rw [h] at hfalse; cases hfalse
  · rintro rfl
    exact .rest args h

theorem matches_cons (h : takesRest (p :: ps) 0 = false) :
    Matches (p :: ps) args entries ↔
      ∃ v rest, args.head?.or p.default = some v ∧ Matches ps args.tail rest ∧
        entries = (p.name, v) :: rest := by
  constructor
  · intro hmatches
    cases hmatches with
    | rest _ htrue => rw [h] at htrue; cases htrue
    | next _ hv hmatches => exact ⟨_, _, hv, hmatches, rfl⟩
  · rintro ⟨v, rest, hv, hmatches, rfl⟩
    exact .next h hv hmatches

theorem bindInto_cons (locals : Table Value) (h : takesRest (p :: ps) 0 = false) :
    bindInto locals (p :: ps) args =
      (args.head?.or p.default).bind fun v => bindInto (locals.insert p.name v) ps args.tail := by
  rw [takesRest_zero] at h
  rw [bindInto.eq_def]
  dsimp only
  rw [if_neg (by simp [h])]
  cases args with
  | cons v args => rfl
  | nil => cases p.default <;> rfl

/-- Binding enters what is matched. -/
theorem bindInto_eq_some_iff {locals bound : Table Value} :
    bindInto locals ps args = some bound ↔
      ∃ entries, Matches ps args entries ∧ bound = locals.merge entries := by
  induction ps generalizing locals args with
  | nil =>
    constructor
    · intro h
      cases args with
      | nil => cases h; exact ⟨[], .done, rfl⟩
      | cons v args => cases h
    · rintro ⟨_, ⟨⟩, rfl⟩
      rfl
  | cons p ps ih =>
    cases hrest : takesRest (p :: ps) 0 with
    | true =>
      obtain ⟨rfl, hname⟩ := takesRest_zero_iff.1 hrest
      have hbind : bindInto locals [p] args = some (locals.insert "args" (.list args)) := by
        rw [bindInto.eq_def]
        simp [hname]
      simp only [hbind, matches_of_takesRest hrest, exists_eq_left, Option.some.injEq, eq_comm]
      rfl
    | false =>
      rw [bindInto_cons locals hrest, Option.bind_eq_some_iff]
      simp only [matches_cons hrest, ih]
      constructor
      · rintro ⟨v, hv, rest, hmatches, rfl⟩
        exact ⟨_, ⟨v, rest, hv, hmatches, rfl⟩, rfl⟩
      · rintro ⟨_, ⟨v, rest, hv, hmatches, rfl⟩, rfl⟩
        exact ⟨v, hv, rest, hmatches, rfl⟩

theorem Matches.length (h : Matches ps args entries) : entries.length = ps.length := by
  induction h with
  | done => rfl
  | rest args hrest => rw [(takesRest_zero_iff.1 hrest).1]; rfl
  | next _ _ _ ih => rw [List.length_cons, List.length_cons, ih]

/-- What is entered for a parameter is what its position is given. -/
theorem Matches.getElem? (h : Matches ps args entries) (i : Nat) :
    entries[i]? = ps[i]?.bind fun p => (given? ps args i).map fun v => (p.name, v) := by
  induction h generalizing i with
  | done => rfl
  | rest args hrest =>
    obtain ⟨rfl, hname⟩ := takesRest_zero_iff.1 hrest
    cases i with
    | zero => simp [given?, hrest, hname]
    | succ i => rfl
  | next hrest hv _ ih =>
    cases i with
    | zero => simp [given?, hrest, ← List.head?_eq_getElem?, hv]
    | succ i =>
      rw [given?_succ]
      exact ih i

theorem exists_matches_iff : (∃ entries, Matches ps args entries) ↔ Fits ps args.length := by
  induction ps generalizing args with
  | nil =>
    rw [fits_nil, List.length_eq_zero_iff]
    constructor
    · rintro ⟨_, ⟨⟩⟩
      rfl
    · rintro rfl
      exact ⟨_, .done⟩
  | cons p ps ih =>
    cases hrest : takesRest (p :: ps) 0 with
    | true => exact ⟨fun _ => fits_of_takesRest hrest _, fun _ => ⟨_, .rest args hrest⟩⟩
    | false =>
      have hfirst : (∃ v, args.head?.or p.default = some v) ↔
          (args.length = 0 → p.default.isSome = true) := by
        cases args with
        | nil => simp [Option.isSome_iff_exists]
        | cons v args => simp
      rw [fits_cons hrest, ← List.length_tail, ← ih, ← hfirst]
      simp only [matches_cons hrest]
      constructor
      · rintro ⟨_, v, rest, hv, hmatches, -⟩
        exact ⟨⟨v, hv⟩, rest, hmatches⟩
      · rintro ⟨⟨v, hv⟩, rest, hmatches⟩
        exact ⟨_, v, rest, hv, hmatches, rfl⟩

/-! ## Calls -/

/-- The variables of a call are built up from what is matched. -/
theorem bind_eq_ok_iff {p : Procedure} {name : String} {locals : Table Value} :
    p.bind name args = .ok locals ↔
      ∃ entries, Matches p.parameters args entries ∧ locals = .ofList entries := by
  unfold bind
  simp only [Table.ofList_eq_merge, ← bindInto_eq_some_iff]
  cases bindInto [] p.parameters args <;> simp

/-- A variable of a call has what the last parameter of its name is given. -/
theorem Matches.get?_ofList (h : Matches ps args entries) {name : String} :
    Table.get? (.ofList entries) name = some v ↔
      ∃ (i : Nat) (p : Parameter), ps[i]? = some p ∧ p.name = name ∧ given? ps args i = some v ∧
        ∀ (j : Nat) (q : Parameter), i < j → ps[j]? = some q → q.name ≠ name := by
  have hentry : ∀ (i : Nat) (p : Parameter), ps[i]? = some p →
      ∃ v, given? ps args i = some v ∧ entries[i]? = some (p.name, v) := by
    intro i p hp
    have hi : i < entries.length := h.length ▸ (List.getElem?_eq_some_iff.1 hp).1
    have hget := h.getElem? i
    rw [hp, List.getElem?_eq_getElem hi] at hget
    obtain ⟨v, hv, heq⟩ := Option.map_eq_some_iff.1 hget.symm
    exact ⟨v, hv, by rw [List.getElem?_eq_getElem hi, heq]⟩
  rw [Table.get?_ofList_eq_some_iff]
  constructor
  · rintro ⟨i, hi, hbehind⟩
    have hget := h.getElem? i
    rw [hi] at hget
    obtain ⟨p, hp, hget⟩ := Option.bind_eq_some_iff.1 hget.symm
    obtain ⟨w, hw, heq⟩ := Option.map_eq_some_iff.1 hget
    cases heq
    refine ⟨i, p, hp, rfl, hw, fun j q hj hq => ?_⟩
    obtain ⟨_, _, hq⟩ := hentry j q hq
    exact hbehind j _ hj hq
  · rintro ⟨i, p, hp, rfl, hv, hbehind⟩
    obtain ⟨w, hw, hi⟩ := hentry i p hp
    rw [hv] at hw
    cases hw
    refine ⟨i, hi, fun j e hj he => ?_⟩
    have hget := h.getElem? j
    rw [he] at hget
    obtain ⟨q, hq, hget⟩ := Option.bind_eq_some_iff.1 hget.symm
    obtain ⟨_, _, rfl⟩ := Option.map_eq_some_iff.1 hget
    exact hbehind j q hj hq

/-- **Arguments are bound by position.** A call binds its arguments if and only if it fits: every
parameter beyond the arguments has a default, but for a last one called `args`, and without such a
one there are no more arguments than parameters. Then the variables are those of the parameters,
none twice: each has what the last parameter of that name is given, the argument in its place, its
default where there is none, or for a last `args` the list of all that are left. Else the call fails
for the number of its arguments, and with the state as it was. -/
theorem arguments_bound {κ : Type} (engine : Engine κ) (p : Procedure) (words : List Value)
    (s : State κ) :
    ((∃ locals, p.bind (words.headD {}).text words.tail = .ok locals) ↔
      Fits p.parameters words.tail.length) ∧
    (∀ locals, p.bind (words.headD {}).text words.tail = .ok locals →
      (Table.names locals).Nodup ∧
      ∀ name v, locals.get? name = some v ↔
        ∃ (i : Nat) (q : Parameter), p.parameters[i]? = some q ∧ q.name = name ∧
          given? p.parameters words.tail i = some v ∧
          ∀ (j : Nat) (r : Parameter), i < j → p.parameters[j]? = some r → r.name ≠ name) ∧
    (¬ Fits p.parameters words.tail.length →
      ∃ fault, p.bind (words.headD {}).text words.tail = .error fault ∧
        (Exception.ofFault fault).kind? = some .argumentCount ∧
        engine.call p words s = .error (.raised (.ofFault fault)) s) := by
  have hiff : (∃ locals, p.bind (words.headD {}).text words.tail = .ok locals) ↔
      Fits p.parameters words.tail.length := by
    rw [← exists_matches_iff]
    constructor
    · rintro ⟨locals, h⟩
      obtain ⟨entries, hmatches, -⟩ := bind_eq_ok_iff.1 h
      exact ⟨entries, hmatches⟩
    · rintro ⟨entries, hmatches⟩
      exact ⟨_, bind_eq_ok_iff.2 ⟨entries, hmatches, rfl⟩⟩
  refine ⟨hiff, fun locals h => ?_, fun h => ?_⟩
  · obtain ⟨entries, hmatches, rfl⟩ := bind_eq_ok_iff.1 h
    exact ⟨nodup_bind h, fun name v => hmatches.get?_ofList⟩
  · cases hbind : p.bind (words.headD {}).text words.tail with
    | ok locals => exact absurd (hiff.1 ⟨locals, hbind⟩) h
    | error fault =>
      refine ⟨fault, rfl, rfl, ?_⟩
      unfold Engine.call
      rw [hbind]
      rfl

example :
    let p : Procedure :=
      { parameters := [{ name := "args" }, { name := "b", default := some (.string "2") },
          { name := "args" }]
        body := {}, namespaceId := NamespaceTree.root }
    ((p.bind "p" [.string "1"]).toOption.map (Table.mapEntries Value.text) =
        some [("args", ""), ("b", "2")]) ∧
      ((p.bind "p" [.string "1", .string "3", .string "x", .string "y"]).toOption.map
        (Table.mapEntries Value.text) = some [("args", "x y"), ("b", "3")]) ∧
      (p.bind "p" []).toOption.isNone := by
  decide +kernel

end CommandScript.Procedure
