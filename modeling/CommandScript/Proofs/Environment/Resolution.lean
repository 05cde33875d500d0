import CommandScript.Proofs.Links.Bounds

/-!
# Following names

`Environment.locate` follows links until it comes to a place where none stands. Here that is taken
apart into single turns. A `Lead` is what there is to look up: a name, the depth it is seen from and
the element that is meant. `Environment.turn` looks it up once, and `Environment.Follows` says that
a number of links lead from one lead to another.

* `Environment.Follows.search`: looking up a lead comes down to looking up where it leads.
* `Environment.exists_follows`: a place that was found is at the end of such a way.
-/

namespace CommandScript

/-- A name without index as seen from a depth, and the element of it that is meant, if any. -/
structure Lead where
  name : String
  index : Option String
  depth : Nat
  deriving DecidableEq, Repr

/-- The lead that a variable name gives at a depth. -/
def Lead.ofName (name : String) (depth : Nat) : Lead where
  name := (Name.splitIndex name).1
  index := (Name.splitIndex name).2
  depth := depth

/-- What looking up a lead gives. -/
inductive Turn where
  /-- A place where no link stands, whether a variable does or not. -/
  | place (slot : Slot) (key : String)
  | onward (lead : Lead)
  | noNamespace
  /-- An element of what is an element itself. -/
  | notArray
  deriving DecidableEq, Repr

/-- Where the search ends at a turn; `further` goes on with it. -/
def Turn.resume (whole : String) (index : Option String)
    (further : Lead → Except VariableFault Location) : Turn → Except VariableFault Location
  | place slot key => .ok ⟨slot, key, index⟩
  | onward lead => further lead
  | noNamespace => .error (.noNamespace whole)
  | notArray => .error (.notArray .reach whole)

/-- The search ends here. -/
def Turn.isEnd : Turn → Bool
  | onward _ => false
  | _ => true

/-- The lead that a link gives to whoever wants an element, or none, of what it is found under. -/
def Turn.ofLink (target : String) (index : Option String) (depth : Nat) : Turn :=
  match Name.splitIndex target, index with
  | (_, some _), some _ => .notArray
  | (base, some i), none => .onward ⟨base, some i, depth⟩
  | (base, none), index => .onward ⟨base, index, depth⟩

namespace Environment

variable {κ : Type} {env env' : Environment κ} {lead next last : Lead} {slot : Slot} {key : String}

/-- Looks up a lead. -/
def turn (env : Environment κ) (lead : Lead) : Turn :=
  match env.slotOf? lead.name lead.depth with
  | none => .noNamespace
  | some (slot, key) =>
    match (env.scope slot).get? key with
    | some (.link target depth) => .ofLink target lead.index (min depth env.depth)
    | _ => .place slot key

/-- A number of links lead from one lead to another. -/
inductive Follows (env : Environment κ) : Nat → Lead → Lead → Prop
  | refl (lead : Lead) : Follows env 0 lead lead
  | step {n : Nat} {lead next last : Lead} : env.turn lead = .onward next →
      Follows env n next last → Follows env (n + 1) lead last

/-- Follows at most `hops` names from a lead. -/
def search (env : Environment κ) (whole : String) (hops : Nat) (lead : Lead) :
    Except VariableFault Location :=
  env.locateWithin whole hops lead.name lead.index lead.depth

theorem locate_eq_search (env : Environment κ) (name : String) :
    env.locate name = env.search name maxLinks (.ofName name env.depth) := rfl

theorem search_succ (env : Environment κ) (whole : String) (hops : Nat) (lead : Lead) :
    env.search whole (hops + 1) lead =
      (env.turn lead).resume whole lead.index (env.search whole hops) := by
  unfold search turn
  rw [locateWithin]
  cases env.slotOf? lead.name lead.depth with
  | none => rfl
  | some found =>
    obtain ⟨slot, key⟩ := found
    dsimp only
    cases hget : (env.scope slot).get? key with
    | none => rfl
    | some v =>
      cases v with
      | link target depth =>
        dsimp only
        unfold Turn.ofLink
        obtain ⟨base, i⟩ := Name.splitIndex target
        obtain ⟨name, index, from'⟩ := lead
        cases i <;> cases index <;> rfl
      | _ => rfl

/-! ## Ways -/

theorem Follows.search {n : Nat} (h : env.Follows n lead last) (whole : String) (hops : Nat) :
    env.search whole (n + hops) lead = env.search whole hops last := by
  induction h with
  | refl lead => rw [Nat.zero_add]
  | step hturn _ ih => rw [Nat.add_right_comm, search_succ, hturn, Turn.resume, ih]

/-- With one hop more than there are links the search ends where the links end. -/
theorem Follows.search_end {n : Nat} (h : env.Follows n lead last)
    (hend : (env.turn last).isEnd = true) (whole : String) {hops : Nat} (hhops : n < hops) :
    env.search whole hops lead =
      (env.turn last).resume whole last.index fun _ => .error (.tooManyLinks whole) := by
  obtain ⟨k, rfl⟩ : ∃ k, hops = n + (k + 1) := ⟨hops - n - 1, by omega⟩
  rw [h.search, search_succ]
  cases hturn : env.turn last with
  | onward lead => rw [hturn] at hend; cases hend
  | _ => rfl

theorem exists_follows {whole : String} {hops : Nat} {l : Location}
    (h : env.search whole hops lead = .ok l) :
    ∃ n last, n < hops ∧ env.Follows n lead last ∧ env.turn last = .place l.slot l.name ∧
      last.index = l.index := by
  induction hops generalizing lead with
  | zero => cases h
  | succ hops ih =>
    rw [search_succ] at h
    cases hturn : env.turn lead with
    | place slot key =>
      rw [hturn] at h
      cases h
      exact ⟨0, lead, Nat.succ_pos hops, .refl lead, hturn, rfl⟩
    | onward next =>
      rw [hturn] at h
      obtain ⟨n, last, hn, hfollows, hplace, hindex⟩ := ih h
      exact ⟨n + 1, last, Nat.succ_lt_succ hn, .step hturn hfollows, hplace, hindex⟩
    | noNamespace => rw [hturn] at h; cases h
    | notArray => rw [hturn] at h; cases h

/-! ## Turns -/

theorem turn_of_slotOf? (hslot : env.slotOf? lead.name lead.depth = some (slot, key)) :
    (∃ target depth, (env.scope slot).get? key = some (.link target depth) ∧
      env.turn lead = .ofLink target lead.index (min depth env.depth)) ∨
    (∀ target depth, (env.scope slot).get? key ≠ some (.link target depth)) ∧
      env.turn lead = .place slot key := by
  unfold turn
  rw [hslot]
  dsimp only
  split
  · rename_i target depth hget
    exact .inl ⟨target, depth, hget, rfl⟩
  · rename_i hnot
    exact .inr ⟨hnot, rfl⟩

theorem ofLink_ne_place (target : String) (index : Option String) (depth : Nat) :
    Turn.ofLink target index depth ≠ .place slot key := by
  unfold Turn.ofLink
  split <;> exact fun h => by cases h

/-- A lead that leads onward has been looked up at a link. -/
theorem link_of_onward (h : env.turn lead = .onward next) :
    ∃ slot key target depth, env.slotOf? lead.name lead.depth = some (slot, key) ∧
      (env.scope slot).get? key = some (.link target depth) ∧
        Turn.ofLink target lead.index (min depth env.depth) = .onward next := by
  cases hslot : env.slotOf? lead.name lead.depth with
  | none =>
    unfold turn at h
    rw [hslot] at h
    cases h
  | some found =>
    obtain ⟨slot, key⟩ := found
    rcases turn_of_slotOf? hslot with ⟨target, depth, hget, hturn⟩ | ⟨_, hturn⟩
    · exact ⟨slot, key, target, depth, rfl, hget, hturn ▸ h⟩
    · rw [hturn] at h
      cases h

/-- A lead that ends at a place has been looked up where no link stands. -/
theorem slotOf?_of_place (h : env.turn lead = .place slot key) :
    env.slotOf? lead.name lead.depth = some (slot, key) ∧
      ∀ target depth, (env.scope slot).get? key ≠ some (.link target depth) := by
  cases hslot : env.slotOf? lead.name lead.depth with
  | none =>
    unfold turn at h
    rw [hslot] at h
    cases h
  | some found =>
    obtain ⟨slot', key'⟩ := found
    rcases turn_of_slotOf? hslot with ⟨target, depth, _, hturn⟩ | ⟨hnot, hturn⟩
    · exact absurd (hturn.symm.trans h) (ofLink_ne_place _ _ _)
    · rw [hturn] at h
      cases h
      exact ⟨rfl, hnot⟩

theorem depth_of_onward (h : env.turn lead = .onward next) : next.depth ≤ env.depth := by
  obtain ⟨slot, key, target, depth, _, _, hlink⟩ := link_of_onward h
  unfold Turn.ofLink at hlink
  split at hlink <;> cases hlink <;> exact Nat.min_le_right _ _

theorem Follows.depth_le {n : Nat} (h : env.Follows n lead last) (hdepth : lead.depth ≤ env.depth) :
    last.depth ≤ env.depth := by
  induction h with
  | refl lead => exact hdepth
  | step hturn _ ih => exact ih (depth_of_onward hturn)

/-- The way to its end goes through every lead that it passes. -/
theorem Follows.rest {n m : Nat} {passed : Lead} (h : env.Follows n lead last)
    (hend : (env.turn last).isEnd = true) (hpassed : env.Follows m lead passed) :
    ∃ k, env.Follows k passed last := by
  induction hpassed generalizing n with
  | refl lead => exact ⟨n, h⟩
  | step hturn _ ih =>
    cases h with
    | refl => rw [hturn] at hend; cases hend
    | step hturn' hrest =>
      cases hturn.symm.trans hturn'
      exact ih hrest

/-- An index that was taken on is kept. -/
theorem Follows.index_eq {n : Nat} (h : env.Follows n lead last) :
    lead.index = none ∨ last.index = lead.index := by
  induction h with
  | refl lead => exact .inr rfl
  | @step n lead next last hturn _ ih =>
    obtain ⟨slot, key, target, depth, _, _, hlink⟩ := link_of_onward hturn
    unfold Turn.ofLink at hlink
    split at hlink
    · cases hlink
    · rename_i hnone
      exact .inl hnone
    · cases hlink
      exact ih

theorem slotOf?_within (h : env.slotOf? lead.name lead.depth = some (slot, key))
    (hdepth : lead.depth ≤ env.depth) : slot.Within env.depth := by
  cases slot with
  | frame d => exact Nat.le_trans (slotOf?_le h) hdepth
  | inNamespace id => trivial

/-! ## Locations -/

/-- A location is where a way of fewer than `maxLinks` links from the name ends. -/
theorem exists_follows_of_locate {name : String} {l : Location} (h : env.locate name = .ok l) :
    ∃ n last, n < maxLinks ∧ env.Follows n (.ofName name env.depth) last ∧
      last.depth ≤ env.depth ∧ env.turn last = .place l.slot l.name ∧ last.index = l.index := by
  rw [locate_eq_search] at h
  obtain ⟨n, last, hn, hfollows, hplace, hindex⟩ := exists_follows h
  exact ⟨n, last, hn, hfollows, hfollows.depth_le (Nat.le_refl _), hplace, hindex⟩

theorem within_of_locate {name : String} {l : Location} (h : env.locate name = .ok l) :
    l.slot.Within env.depth := by
  obtain ⟨_, last, _, _, hdepth, hplace, _⟩ := exists_follows_of_locate h
  exact slotOf?_within (slotOf?_of_place hplace).1 hdepth

end Environment

end CommandScript
