import CommandScript.Proofs.Environment.Resolution
import CommandScript.Proofs.Evaluation.Interp

/-!
# The variable store

Setting a variable may change a variable of any frame below, make one in the current frame or in a
namespace, go through links, or put an element into an array. All of these are an assignment to the
place that the name was found to mean. What has to be shown is that other names are not led
elsewhere by it. An entry that was there before changes nothing in the search for names; a new one
could stand in the way to a variable of a lower frame, but only if the place is seen again above
that frame. With procedures alone on the stack it is not, since only the global frame shares its
variables.

* `Environment.Hides`: a new entry would stand between a lead and what it leads to.
* `Environment.read_set_iff`, `Environment.read_set_of_entry_ne`: reading after setting.
* `variables_set_apart`: the laws of the store, for the action that sets a variable.
-/

namespace CommandScript

namespace Environment

variable {κ : Type} {env env' : Environment κ} {slot slot' : Slot} {key key' name : String}
  {lead next last : Lead} {l : Location} {depth : Nat}

/-! ## Assignments and the search for names -/

/-- An entry made at a place would hide from a lead the one that its name is found at: the place is
seen in a frame above that one. -/
def Hides (env : Environment κ) (slot : Slot) (key : String) (lead : Lead) : Prop :=
  lead.name = key ∧ (Name.splitQualified key).1 = none ∧
    ∃ d e, env.owner? key lead.depth = some e ∧ e < d ∧ d ≤ lead.depth ∧
      env.home (.frame d) = env.home slot

theorem contains_assign (w : Value) (hslot : slot.Within env.depth)
    (hslot' : slot'.Within env.depth) :
    ((env.assign slot key w).scope slot').contains key' = true ↔
      (env.home slot' = env.home slot ∧ key' = key) ∨ (env.scope slot').contains key' = true := by
  unfold Table.contains
  rw [get?_assign w hslot hslot']
  split
  · rename_i hsame
    simp [hsame]
  · rename_i hother
    simp [hother]

theorem depth_assign (env : Environment κ) (slot : Slot) (key : String) (w : Value) :
    (env.assign slot key w).depth = env.depth := depth_modifyScope env slot _

theorem unlinked_of_locate (hl : env.locate name = .ok l) (target : String) (d : Nat) :
    (env.scope l.slot).get? l.name ≠ some (.link target d) := held?_ne_link hl target d

theorem slotOf?_qualified {qualifiers tail : String}
    (hname : Name.splitQualified name = (some qualifiers, tail)) (depth : Nat) :
    env.slotOf? name depth =
      if qualifiers.isEmpty then some (.inNamespace NamespaceTree.root, tail)
      else (env.namespaces.find (env.stack.frame depth).namespaceId qualifiers).map fun id =>
        (.inNamespace id, tail) := by
  unfold slotOf?
  rw [hname]

/-- Which namespace a qualified name leads to does not depend on variables. -/
theorem slotOf?_modifyScope (f : Table Value → Table Value) (hdepth : depth ≤ env.depth)
    (hname : (Name.splitQualified name).1 ≠ none) :
    (env.modifyScope slot f).slotOf? name depth = env.slotOf? name depth := by
  cases hsplit : Name.splitQualified name with
  | mk qualifiers tail =>
    cases qualifiers with
    | none => exact absurd (congrArg Prod.fst hsplit) hname
    | some qualifiers =>
      rw [slotOf?_qualified hsplit, slotOf?_qualified hsplit, find_modifyScope,
        namespaceId_modifyScope env slot f hdepth]

/-- After an assignment a name has the owner it had, unless that is what was assigned. -/
theorem owner?_of_assign {v : Value} {d : Nat} (hslot : slot.Within env.depth)
    (hdepth : depth ≤ env.depth) (h : (env.assign slot key v).owner? name depth = some d)
    (hne : ¬ (env.home (.frame d) = env.home slot ∧ name = key)) :
    env.owner? name depth = some d := by
  rw [owner?_eq_some_iff] at h ⊢
  obtain ⟨hle, hcontains, hnearest⟩ := h
  have hassign : ∀ i ≤ depth, ((env.assign slot key v).scope (.frame i)).contains name = true ↔
      (env.home (.frame i) = env.home slot ∧ name = key) ∨
        (env.scope (.frame i)).contains name = true :=
    fun i hi => contains_assign v hslot (Slot.within_frame (Nat.le_trans hi hdepth))
  refine ⟨hle, ((hassign d hle).1 hcontains).resolve_left hne, fun i hi hile => ?_⟩
  rw [Bool.eq_false_iff]
  intro hold
  exact Bool.eq_false_iff.1 (hnearest i hi hile) ((hassign i hile).2 (.inr hold))

theorem owner?_none_of_assign {v : Value} (hslot : slot.Within env.depth)
    (hdepth : depth ≤ env.depth) (h : (env.assign slot key v).owner? name depth = none) :
    env.owner? name depth = none := by
  cases howner : env.owner? name depth with
  | none => rfl
  | some d =>
    obtain ⟨hle, hcontains, _⟩ := owner?_eq_some_iff.1 howner
    have hafter := not_contains_of_owner?_none h hle
    rw [(contains_assign v hslot (Slot.within_frame (Nat.le_trans hle hdepth))).2
      (.inr hcontains)] at hafter
    cases hafter

/-- After an assignment a lead is found where it was, and nothing is hidden from it; or it is found
at what was assigned, instead of an entry that this hides, or of none. -/
theorem slotOf?_assign (key : String) (v : Value) (hslot : slot.Within env.depth)
    (hdepth : lead.depth ≤ env.depth)
    (h : env.slotOf? lead.name lead.depth = some (slot', key')) :
    (¬ env.Hides slot key lead ∧
      (env.assign slot key v).slotOf? lead.name lead.depth = some (slot', key')) ∨
    ∃ slot'', (env.assign slot key v).slotOf? lead.name lead.depth = some (slot'', key) ∧
      slot''.Within env.depth ∧ env.home slot'' = env.home slot ∧
        (env.Hides slot key lead ∨ (env.scope slot').contains key' = false) := by
  by_cases hplain : (Name.splitQualified lead.name).1 = none
  · rw [slotOf?_plain hplain] at h ⊢
    cases h
    have hcontains : ∀ d ≤ lead.depth,
        ((env.assign slot key v).scope (.frame d)).contains lead.name = true ↔
          (env.home (.frame d) = env.home slot ∧ lead.name = key) ∨
            (env.scope (.frame d)).contains lead.name = true :=
      fun d hd => contains_assign v hslot (Slot.within_frame (Nat.le_trans hd hdepth))
    cases howner : (env.assign slot key v).owner? lead.name lead.depth with
    | none =>
      have hold := owner?_none_of_assign hslot hdepth howner
      refine .inl ⟨?_, by rw [hold]⟩
      rintro ⟨rfl, _, _, _, hsome, _⟩
      rw [hold] at hsome
      cases hsome
    | some d =>
      obtain ⟨hd, _, hnearest⟩ := owner?_eq_some_iff.1 howner
      have hfree : env.owner? lead.name lead.depth = some d → ¬ env.Hides slot key lead := by
        rintro hold ⟨rfl, _, d', e, hsome, hlt, hle, hhome⟩
        cases hold.symm.trans hsome
        have hnot := hnearest d' hlt hle
        rw [(hcontains d' hle).2 (.inl ⟨hhome, rfl⟩)] at hnot
        cases hnot
      by_cases hsame : env.home (.frame d) = env.home slot ∧ lead.name = key
      · obtain ⟨hhome, rfl⟩ := hsame
        have hwithin : (Slot.frame d).Within env.depth := Nat.le_trans hd hdepth
        cases hold : env.owner? lead.name lead.depth with
        | none =>
          exact .inr ⟨.frame d, rfl, hwithin, hhome,
            .inr (not_contains_of_owner?_none hold (Nat.le_refl _))⟩
        | some e =>
          have hthere := owner?_eq_some_iff.1 hold
          rcases Nat.lt_trichotomy e d with hlt | rfl | hlt
          · exact .inr ⟨.frame d, rfl, hwithin, hhome,
              .inl ⟨rfl, hplain, d, e, hold, hlt, hd, hhome⟩⟩
          · exact .inl ⟨hfree hold, rfl⟩
          · have hnot := hnearest e hlt hthere.1
            rw [(hcontains e hthere.1).2 (.inr hthere.2.1)] at hnot
            cases hnot
      · have hold := owner?_of_assign hslot hdepth howner hsame
        exact .inl ⟨hfree hold, by rw [hold]⟩
  · exact .inl ⟨fun hhides => hplain (hhides.1 ▸ hhides.2.1),
      (slotOf?_modifyScope _ hdepth hplain).trans h⟩

section

variable {w : Value} (hl : env.locate name = .ok l) (hw : ∀ target d, w ≠ .link target d)

include hl hw

/-- After the assignment of a value to where a name was found, a lead turns as it did, and nothing
is hidden from it; or it ends at what was assigned, where an entry was hidden or there was none. -/
theorem turn_assign (hdepth : lead.depth ≤ env.depth) (hlead : env.turn lead ≠ .noNamespace) :
    (¬ env.Hides l.slot l.name lead ∧
      (env.assign l.slot l.name w).turn lead = env.turn lead) ∨
    ∃ slot, (env.assign l.slot l.name w).turn lead = .place slot l.name ∧
      slot.Within env.depth ∧ env.home slot = env.home l.slot ∧
      (env.Hides l.slot l.name lead ∨
        ∃ slot' key', env.turn lead = .place slot' key' ∧
          (env.scope slot').contains key' = false) := by
  have hwithin := within_of_locate hl
  cases hfound : env.slotOf? lead.name lead.depth with
  | none => exact absurd (by rw [turn, hfound]) hlead
  | some found =>
    obtain ⟨slot', key'⟩ := found
    have hwithin' := slotOf?_within hfound hdepth
    rcases slotOf?_assign l.name w hwithin hdepth hfound with
      ⟨hfree, hsame⟩ | ⟨slot, hnew, hslot, hhome, hinstead⟩
    · refine .inl ⟨hfree, ?_⟩
      by_cases hhit : env.home slot' = env.home l.slot ∧ key' = l.name
      · -- Neither what is assigned nor what stood there is a link.
        have hnot : ∀ target d, (env.scope slot').get? key' ≠ some (.link target d) := by
          rw [scope_eq_of_home hhit.1, hhit.2]
          exact unlinked_of_locate hl
        rcases turn_of_slotOf? hsame with ⟨target, d, hget, _⟩ | ⟨_, hnew⟩
        · rw [get?_assign w hwithin hwithin', if_pos hhit] at hget
          exact absurd (Option.some.inj hget) (hw target d)
        · rcases turn_of_slotOf? hfound with ⟨target, d, hget, _⟩ | ⟨_, hold⟩
          · exact absurd hget (hnot target d)
          · exact hnew.trans hold.symm
      · unfold turn
        rw [hsame, hfound]
        dsimp only
        rw [get?_assign w hwithin hwithin', if_neg hhit, depth_assign]
    · refine .inr ⟨slot, ?_, hslot, hhome,
        hinstead.imp_right fun habsent => ⟨slot', key', ?_, habsent⟩⟩
      · rcases turn_of_slotOf? hnew with ⟨target, d, hget, _⟩ | ⟨_, hturn⟩
        · rw [get?_assign w hwithin hslot, if_pos ⟨hhome, rfl⟩] at hget
          exact absurd (Option.some.inj hget) (hw target d)
        · exact hturn
      · rcases turn_of_slotOf? hfound with ⟨target, d, hget, _⟩ | ⟨_, hturn⟩
        · rw [Table.contains, hget] at habsent
          cases habsent
        · exact hturn

/-- The way to a place, after the assignment of a value to where a name was found: nothing is hidden
on it and it is the same, or it ends where it first comes to what was assigned. -/
theorem Follows.assign {n : Nat} (h : env.Follows n lead last) (hdepth : lead.depth ≤ env.depth)
    (hplace : env.turn last = .place slot' key') :
    ((∀ m passed, env.Follows m lead passed → ¬ env.Hides l.slot l.name passed) ∧
      (env.assign l.slot l.name w).Follows n lead last ∧
      (env.assign l.slot l.name w).turn last = .place slot' key') ∨
    ∃ m first slot, m ≤ n ∧ (env.assign l.slot l.name w).Follows m lead first ∧
      (env.assign l.slot l.name w).turn first = .place slot l.name ∧ slot.Within env.depth ∧
      env.home slot = env.home l.slot ∧ env.Follows m lead first ∧
      (∀ k passed, env.Follows k lead passed → env.Hides l.slot l.name passed →
        ∃ j, env.Follows j first passed) ∧
      (env.Hides l.slot l.name first ∨
        first = last ∧ (env.scope slot').contains key' = false) := by
  induction h with
  | refl lead =>
    rcases turn_assign hl hw hdepth (by rw [hplace]; exact fun h => by cases h) with
      ⟨hfree, hsame⟩ | ⟨slot, hturn, hslot, hhome, hinstead⟩
    · refine .inl ⟨fun m passed hm => ?_, .refl lead, hsame.trans hplace⟩
      cases hm with
      | refl => exact hfree
      | step hturn => cases hplace.symm.trans hturn
    · refine .inr ⟨0, lead, slot, Nat.le_refl 0, .refl lead, hturn, hslot, hhome, .refl lead,
        fun k passed hk _ => ⟨k, hk⟩, hinstead.imp_right ?_⟩
      rintro ⟨_, _, hplace', habsent⟩
      cases hplace.symm.trans hplace'
      exact ⟨rfl, habsent⟩
  | @step n lead next last hturn _ ih =>
    rcases turn_assign hl hw hdepth (by rw [hturn]; exact fun h => by cases h) with
      ⟨hfree, hsame⟩ | ⟨slot, hnew, hslot, hhome, hinstead⟩
    · have hturn' := hsame.trans hturn
      rcases ih (depth_of_onward hturn) hplace with ⟨hclear, hrest, hend⟩ |
        ⟨m, first, slot, hm, hnew, hend, hslot, hhome, hold, hlater, hinstead⟩
      · refine .inl ⟨fun m passed hm => ?_, .step hturn' hrest, hend⟩
        cases hm with
        | refl => exact hfree
        | step hstep hrest =>
          cases hturn.symm.trans hstep
          exact hclear _ _ hrest
      · refine .inr ⟨m + 1, first, slot, Nat.succ_le_succ hm, .step hturn' hnew, hend, hslot, hhome,
          .step hturn hold, fun k passed hk hhides => ?_, hinstead⟩
        cases hk with
        | refl => exact absurd hhides hfree
        | step hstep hrest =>
          cases hturn.symm.trans hstep
          exact hlater _ _ hrest hhides
    · refine .inr ⟨0, lead, slot, Nat.zero_le _, .refl lead, hnew, hslot, hhome, .refl lead,
        fun k passed hk _ => ⟨k, hk⟩, .inl (hinstead.resolve_right ?_)⟩
      rintro ⟨_, _, hplace', _⟩
      cases hturn.symm.trans hplace'

/-- A name that means an entry means it also after the assignment, where nothing was hidden on the
way to it. -/
theorem locate_assign_of_held {other : String} {m : Location} (hm : env.locate other = .ok m)
    (hheld : (env.held? m).isSome = true)
    (hclear : ∀ n passed, env.Follows n (.ofName other env.depth) passed →
      ¬ env.Hides l.slot l.name passed) :
    (env.assign l.slot l.name w).locate other = .ok m := by
  obtain ⟨n, last, hn, hfollows, _, hplace, hindex⟩ := exists_follows_of_locate hm
  rcases hfollows.assign hl hw (Nat.le_refl _) hplace with ⟨_, hnew, hend⟩ |
    ⟨k, first, _, _, _, _, _, _, hold, _, hhides | ⟨_, habsent⟩⟩
  · rw [locate_eq_search, depth_assign, hnew.search_end (by rw [hend]; rfl) other hn, hend,
      Turn.resume, hindex]
  · exact absurd hhides (hclear k first hold)
  · rw [show (env.scope m.slot).contains m.name = true from hheld] at habsent
    cases habsent

/-- The name itself comes to what was assigned, with the element in mind that it had come there for
unless something was hidden that had led to the element. -/
theorem exists_locate_assign :
    ∃ m, (env.assign l.slot l.name w).locate name = .ok m ∧
      (env.assign l.slot l.name w).held? m = some w ∧ (m.index = none ∨ m.index = l.index) ∧
      (m.index = l.index ↔
        ∀ n lead, env.Follows n (.ofName name env.depth) lead → env.Hides l.slot l.name lead →
          lead.index = l.index) := by
  have hwithin := within_of_locate hl
  obtain ⟨n, last, hn, hfollows, _, hplace, hindex⟩ := exists_follows_of_locate hl
  rcases hfollows.assign hl hw (Nat.le_refl _) hplace with ⟨hclear, hnew, hend⟩ |
    ⟨m, first, slot, hm, hnew, hend, hslot, hhome, hold, hlater, hinstead⟩
  · refine ⟨l, ?_, ?_, .inr rfl, iff_of_true rfl fun n lead hlead hhides =>
      absurd hhides (hclear n lead hlead)⟩
    · rw [locate_eq_search, depth_assign, hnew.search_end (by rw [hend]; rfl) name hn, hend,
        Turn.resume, hindex]
    · rw [held?, get?_assign w hwithin hwithin, if_pos ⟨rfl, rfl⟩]
  · have hstops : (env.turn last).isEnd = true := by rw [hplace]; rfl
    obtain ⟨_, hlast⟩ := hfollows.rest hstops hold
    refine ⟨⟨slot, l.name, first.index⟩, ?_, ?_, ?_, fun hsame k lead hlead hhides => ?_,
      fun hsame => ?_⟩
    · rw [locate_eq_search, depth_assign,
        hnew.search_end (by rw [hend]; rfl) name (Nat.lt_of_le_of_lt hm hn), hend, Turn.resume]
    · rw [held?, get?_assign w hwithin hslot, if_pos ⟨hhome, rfl⟩]
    · exact hlast.index_eq.imp_right fun h => h.symm.trans hindex
    · -- An index is taken on once, and here it was there at both ends or at none.
      obtain ⟨_, hbefore⟩ := hlater k lead hlead hhides
      obtain ⟨_, hafter⟩ := hfollows.rest hstops hlead
      have hsame : first.index = l.index := hsame
      rcases hbefore.index_eq with hnone | hkept
      · rcases hafter.index_eq with hnone' | hkept
        · rw [hnone', ← hsame, hnone]
        · exact hkept.symm.trans hindex
      · exact hkept.trans hsame
    · rcases hinstead with hhides | ⟨rfl, _⟩
      · exact hsame m first hold hhides
      · exact hindex

end

/-! ## Entries that hide nothing -/

/-- All frames but the global one are calls of procedures. -/
def OnlyProcedures (env : Environment κ) : Prop :=
  ∀ d, 0 < d → d ≤ env.depth → (env.stack.frame d).isOwn = true

theorem home_of_isOwn {d : Nat} (h : (env.stack.frame d).isOwn = true) :
    env.home (.frame d) = .frame d := by
  rcases env.home_frame d with ⟨_, _, hhome, _⟩ | ⟨_, hshared, _, _⟩
  · exact hhome
  · rw [Frame.isOwn, hshared] at h
    cases h

theorem eq_frame_of_home {d : Nat} (h : env.home slot = .frame d) : slot = .frame d := by
  cases slot with
  | frame e =>
    rcases env.home_frame e with ⟨_, _, hhome, _⟩ | ⟨_, _, hhome, _⟩
    · exact hhome.symm.trans h
    · rw [hhome] at h
      cases h
  | inNamespace id => cases h

theorem OnlyProcedures.not_hides (h : env.OnlyProcedures) (hl : env.locate name = .ok l)
    (lead : Lead) (hdepth : lead.depth ≤ env.depth) : ¬ env.Hides l.slot l.name lead := by
  rintro ⟨_, _, d, e, howner, hlt, hle, hhome⟩
  -- The frame is the slot itself, so the name was looked for in it and, in vain, below it.
  rw [home_of_isOwn (h d (Nat.zero_lt_of_lt hlt) (Nat.le_trans hle hdepth))] at hhome
  have hslot := eq_frame_of_home hhome.symm
  obtain ⟨_, hcontains, hnearest⟩ := owner?_eq_some_iff.1 howner
  obtain ⟨_, last, _, _, _, hplace, _⟩ := exists_follows_of_locate hl
  rw [hslot] at hplace
  obtain ⟨_, hname, howner'⟩ := owner?_of_slotOf? (slotOf?_of_place hplace).1
  rcases howner' with howner' | ⟨hnone, rfl⟩
  · have hthere := (owner?_eq_some_iff.1 howner').2.1
    rw [← hname, hnearest d hlt hle] at hthere
    cases hthere
  · rw [hname, not_contains_of_owner?_none hnone (Nat.le_of_lt hlt)] at hcontains
    cases hcontains

/-! ## Reading and setting -/

/-- A variable that holds something shows a value to whoever wants it or an element of it. -/
inductive Shows (v : Value) : (index : Option String) → (held : Option Value) → Prop
  | whole (h : ∀ entries, v ≠ .array entries) : Shows v none (some v)
  | element {i : String} {entries : Table Value} (h : entries.get? i = some v) :
      Shows v (some i) (some (.array entries))

theorem read_eq_ok_iff {v : Value} :
    env.read name = .ok v ↔ ∃ l, env.locate name = .ok l ∧ Shows v l.index (env.held? l) := by
  unfold read
  cases hl : env.locate name with
  | error fault =>
    constructor
    · intro h
      cases h
    · rintro ⟨l, h, _⟩
      cases h
  | ok l =>
    have hread : (∃ l', Except.ok l = (.ok l' : Except VariableFault _) ∧
        Shows v l'.index (env.held? l')) ↔ Shows v l.index (env.held? l) :=
      ⟨fun ⟨_, heq, hshows⟩ => by cases heq; exact hshows, fun hshows => ⟨l, rfl, hshows⟩⟩
    rw [hread]
    simp only [bind, Except.bind]
    generalize env.held? l = held
    generalize l.index = index
    split
    · exact ⟨(fun h => by cases h), fun h => by cases h⟩
    · rename_i entries i
      cases hget : Table.get? entries i with
      | none =>
        refine ⟨(fun h => by cases h), fun h => ?_⟩
        cases h with
        | element h => rw [hget] at h; cases h
      | some u =>
        constructor
        · intro h
          cases h
          exact .element hget
        · intro h
          cases h with
          | element h => rw [hget] at h; cases h; rfl
    · rename_i entries
      refine ⟨(fun h => by cases h), fun h => ?_⟩
      cases h with
      | whole h => exact absurd rfl (h entries)
    · rename_i u i hnot
      refine ⟨(fun h => by cases h), fun h => ?_⟩
      cases h with
      | element h => exact absurd rfl (hnot _)
    · rename_i u hnot
      constructor
      · intro h
        cases h
        exact .whole hnot
      · intro h
        cases h
        rfl

theorem Shows.isSome {v : Value} {index : Option String} {held : Option Value}
    (h : Shows v index held) : held.isSome = true := by
  cases h <;> rfl

namespace Stores

variable {v w u : Value} {index : Option String} {held : Option Value}

theorem ne_link (h : Stores v index held w) (hv : ∀ target d, v ≠ .link target d) (target : String)
    (d : Nat) : w ≠ .link target d := by
  cases h with
  | whole _ => exact hv target d
  | element i entries => exact fun h => by cases h
  | first i => exact fun h => by cases h

/-- What has an element is an array. -/
theorem exists_array {i : String} (h : Stores v (some i) held w) :
    ∃ entries, w = .array entries := by
  cases h with
  | element i entries => exact ⟨_, rfl⟩
  | first i => exact ⟨_, rfl⟩

theorem shows_self (h : Stores v index held w) (hv : ∀ entries, v ≠ .array entries) :
    Shows v index (some w) := by
  cases h with
  | whole _ => exact .whole hv
  | element i entries => exact .element (Table.get?_insert_self entries i v)
  | first i => exact .element (Table.get?_insert_self [] i v)

/-- Whoever wants another element is shown what was shown before. -/
theorem shows_other (h : Stores v index held w) {other : Option String} (hne : other ≠ index)
    (hu : Shows u other held) : Shows u other (some w) := by
  cases hu with
  | whole _ =>
    cases h with
    | whole _ => exact absurd rfl hne
    | element i entries => rename_i harray; exact absurd rfl (harray entries)
  | element hget =>
    cases h with
    | whole hnot => exact absurd rfl (hnot _)
    | element i entries =>
      rename_i j _
      have hij : i ≠ j := fun heq => hne (congrArg some heq.symm)
      exact .element ((Table.get?_insert_of_ne v hij).trans hget)

end Stores

/-! ## The laws -/

section

variable {v : Value}

/-- What was stored, if it is shown at all to whoever wants the whole variable, is the whole. -/
theorem Stores.index_of_shows_whole {w : Value} {index : Option String} {held : Option Value}
    (h : Stores v index held w) (harray : ∀ entries, v ≠ .array entries)
    (hshows : Shows v none (some w)) : index = none := by
  have hwhole : v = w := by cases hshows; rfl
  cases h with
  | whole _ => rfl
  | element i entries => exact absurd hwhole (harray _)
  | first i => exact absurd hwhole (harray _)

/-- A variable that was set reads as it was set, unless the entry that was made for an element hides
from a lead to the whole variable what led to the element. -/
theorem read_set_iff (hv : ∀ target d, v ≠ .link target d) (harray : ∀ entries, v ≠ .array entries)
    (h : env.set name v = .ok env') (hl : env.locate name = .ok l) :
    env'.read name = .ok v ↔
      ∀ n lead, env.Follows n (.ofName name env.depth) lead → env.Hides l.slot l.name lead →
        lead.index = l.index := by
  obtain ⟨l', w, hl', hstores, rfl⟩ := exists_of_set h
  cases hl.symm.trans hl'
  obtain ⟨m, hm, hheld, hwhole, hsame⟩ := exists_locate_assign hl (hstores.ne_link hv)
  rw [← hsame, read_eq_ok_iff, hm]
  constructor
  · rintro ⟨_, heq, hshows⟩
    cases heq
    rw [hheld] at hshows
    rcases hwhole with hnone | hindex
    · rw [hnone] at hshows ⊢
      exact (hstores.index_of_shows_whole harray hshows).symm
    · exact hindex
  · intro hindex
    refine ⟨m, rfl, ?_⟩
    rw [hheld, hindex]
    exact hstores.shows_self harray

/-- The storage entry that a name means: the table that holds it, the variable and the element. -/
def entry (env : Environment κ) (name : String) : Except VariableFault Location :=
  (env.locate name).map fun l => { l with slot := env.home l.slot }

/-- Names of other entries read as before, where no entry comes in the way to them. -/
theorem read_set_of_entry_ne (hv : ∀ target d, v ≠ .link target d)
    (h : env.set name v = .ok env') (hl : env.locate name = .ok l) {other : String}
    (hclear : ∀ n lead, env.Follows n (.ofName other env.depth) lead →
      ¬ env.Hides l.slot l.name lead)
    {u : Value} (hu : env.read other = .ok u)
    (hne : env.entry other ≠ env.entry name) : env'.read other = .ok u := by
  obtain ⟨l', w, hl', hstores, rfl⟩ := exists_of_set h
  cases hl.symm.trans hl'
  obtain ⟨m, hm, hshows⟩ := read_eq_ok_iff.1 hu
  refine read_eq_ok_iff.2
    ⟨m, locate_assign_of_held hl (hstores.ne_link hv) hm hshows.isSome hclear, ?_⟩
  unfold held?
  rw [get?_assign w (within_of_locate hl) (within_of_locate hm)]
  split
  · -- The same variable: then another element of it.
    rename_i hsame
    have hheld : env.held? m = env.held? l := by
      unfold held?
      rw [scope_eq_of_home hsame.1, hsame.2]
    have hindex : m.index ≠ l.index := by
      intro hindex
      refine hne ?_
      unfold entry
      rw [hm, hl]
      show Except.ok (Location.mk (env.home m.slot) m.name m.index) = Except.ok ⟨_, _, _⟩
      rw [hsame.1, hsame.2, hindex]
    rw [hheld] at hshows
    exact hstores.shows_other hindex hshows
  · exact hshows

end

/-- What can be read can be set and unset. -/
theorem exists_set_of_read {u : Value} (hu : env.read name = .ok u) (v : Value) :
    (∃ env', env.set name v = .ok env') ∧ ∃ env', env.unset name = .ok env' := by
  obtain ⟨l, hl, hshows⟩ := read_eq_ok_iff.1 hu
  unfold Environment.set unset
  rw [hl]
  simp only [bind, Except.bind]
  revert hshows
  generalize env.held? l = held
  generalize l.index = index
  intro hshows
  cases hshows with
  | whole hnot =>
    cases u with
    | array entries => exact absurd rfl (hnot entries)
    | _ => exact ⟨⟨_, rfl⟩, _, rfl⟩
  | element hget =>
    refine ⟨⟨_, rfl⟩, ?_⟩
    dsimp only
    rw [Table.contains, hget]
    exact ⟨_, rfl⟩

end Environment

/-! ## Setting and unsetting as actions -/

/-- The laws of the variable store, with only procedures above the global frame. A variable that was
set to a plain value reads so, and every name of another entry reads as before; a name that can be
read can be set and unset; and where setting or unsetting is refused nothing at all has changed. -/
theorem variables_set_apart {κ : Type} (s : State κ) (hframes : s.interp.env.OnlyProcedures)
    (name : String) (v : Value) (harray : ∀ entries, v ≠ .array entries)
    (hlink : ∀ target depth, v ≠ .link target depth) :
    (∀ t, Act.setVariable name v s = .ok () t →
      t.interp.env.read name = .ok v ∧
      ∀ other u, s.interp.env.read other = .ok u →
        s.interp.env.entry other ≠ s.interp.env.entry name → t.interp.env.read other = .ok u) ∧
    (∀ u, s.interp.env.read name = .ok u →
      (∃ t, Act.setVariable name v s = .ok () t) ∧
        ∃ t, Act.edit (fun env => env.unset name) s = .ok () t) ∧
    (∀ stop t, Act.setVariable name v s = .error stop t → t = s) ∧
    ∀ stop t, Act.edit (fun env => env.unset name) s = .error stop t → t = s := by
  have hclear : ∀ l, s.interp.env.locate name = .ok l → ∀ start n lead,
      s.interp.env.Follows n (.ofName start s.interp.env.depth) lead →
        ¬ s.interp.env.Hides l.slot l.name lead :=
    fun l hl _ _ lead hfollows =>
      hframes.not_hides hl lead (hfollows.depth_le (Nat.le_refl _))
  have hset := Act.edit_eq (fun env => env.set name v) s
  have hunset := Act.edit_eq (fun env => env.unset name) s
  unfold Act.setVariable
  rw [hset, hunset]
  refine ⟨fun t ht => ?_, fun u hu => ?_, fun stop t ht => ?_, fun stop t ht => ?_⟩
  · split at ht
    · rename_i env henv
      cases ht
      obtain ⟨l, _, hl, _, _⟩ := Environment.exists_of_set henv
      exact ⟨(Environment.read_set_iff hlink harray henv hl).2 fun n lead hlead hhides =>
          absurd hhides (hclear l hl name n lead hlead),
        fun other u => Environment.read_set_of_entry_ne hlink henv hl (hclear l hl other)⟩
    · cases ht
  · obtain ⟨⟨env, henv⟩, env', henv'⟩ := Environment.exists_set_of_read hu v
    rw [henv, henv']
    exact ⟨⟨_, rfl⟩, _, rfl⟩
  · split at ht <;> cases ht
    rfl
  · split at ht <;> cases ht
    rfl

/-- In a procedure, a name that is linked to an element of a global array: setting it makes the
element and leaves the others alone. -/
theorem variables_set_apart_linked :
    let s := State.standard.withEnv
      { namespaces := { nodes := [{ name := "", parent := none,
                                    vars := [("arr", .array [("j", .string "old")])] }] }
        stack := { top := { storage := .own [("y", .link "arr(k)" 0)], namespaceId := 0 }
                   below := [.bottom NamespaceTree.root] } }
    ∃ t, Act.setVariable "y" (.string "new") s = .ok () t ∧
      t.interp.env.read "y" = .ok (.string "new") ∧
      t.interp.env.read "::arr(j)" = .ok (.string "old") := by
  intro s
  have hframes : s.interp.env.OnlyProcedures := by
    intro d hpos hd
    have hd : d ≤ 1 := hd
    obtain rfl : d = 1 := by omega
    rfl
  have hentry : s.interp.env.entry "y" = .ok ⟨.inNamespace 0, "arr", some "k"⟩ := rfl
  have hother : s.interp.env.entry "::arr(j)" = .ok ⟨.inNamespace 0, "arr", some "j"⟩ := rfl
  have hne : s.interp.env.entry "::arr(j)" ≠ s.interp.env.entry "y" := by
    rw [hentry, hother]
    simp
  have h := (variables_set_apart s hframes "y" (.string "new") (fun _ h => by cases h)
    (fun _ _ h => by cases h)).1 _ rfl
  exact ⟨_, rfl, h.1, h.2 "::arr(j)" (.string "old") rfl hne⟩

end CommandScript
