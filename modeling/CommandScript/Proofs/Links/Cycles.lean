import CommandScript.Proofs.Environment.Listing
import CommandScript.Proofs.Environment.SameVariables
import CommandScript.Proofs.Links.Entries

/-!
# What makes a cycle of links

Where links are in their places, those of a procedure's own variables lead to its own frame or
below, and those of namespaces to namespaces. Then the links never lead up, and a cycle lies in one
frame or among the namespaces as a whole. There nothing but a new link can close one: variables that
come or go change what a name means in frames above only, and new namespaces have no variables yet.

* `Environment.Orderly`: links are in their places.
* `Environment.Orderly.height_le`: links do not lead up.
* `Acyclic.assign`, `Acyclic.erase`, `Acyclic.pushed`, `Acyclic.returned`, `Acyclic.withNamespaces`:
  operations that make no cycle.
* `Acyclic.link`: a link makes no cycle unless it leads back to itself, and it does not do so if
  it leads below the frame.
-/

namespace CommandScript

open Relation (TransGen)

/-! ## Namespaces that are added -/

namespace NamespaceTree

variable {κ : Type} {t t' t'' : NamespaceTree κ} {id c p : NamespaceId} {name : String}

/-- Namespaces have been added to a tree: new children are new, and have no variables. -/
structure Extends (t t' : NamespaceTree κ) : Prop where
  length : t.nodes.length ≤ t'.nodes.length
  vars (id : NamespaceId) : (t'.node id).vars = (t.node id).vars
  keeps {id c : NamespaceId} {name : String} :
    t.child? id name = some c → t'.child? id name = some c
  adds {id c : NamespaceId} {name : String} :
    t'.child? id name = some c → t.child? id name = some c ∨ t.nodes.length ≤ c

namespace Extends

theorem refl (t : NamespaceTree κ) : Extends t t where
  length := Nat.le_refl _
  vars _ := rfl
  keeps h := h
  adds h := .inl h

theorem trans (h : Extends t t') (h' : Extends t' t'') : Extends t t'' where
  length := Nat.le_trans h.length h'.length
  vars id := (h'.vars id).trans (h.vars id)
  keeps hc := h'.keeps (h.keeps hc)
  adds hc := by
    rcases h'.adds hc with hc | hnew
    · exact h.adds hc
    · exact .inr (Nat.le_trans h.length hnew)

theorem addChild (h : t.child? p name = none) : Extends t (t.addChild p name).2 := by
  -- The new namespace stands where nothing stood, which had no children or variables either.
  have happend : ∀ i,
      ((⟨t.nodes ++ [{ name, parent := some p }]⟩ : NamespaceTree κ).node i).children
        = (t.node i).children ∧
      ((⟨t.nodes ++ [{ name, parent := some p }]⟩ : NamespaceTree κ).node i).vars
        = (t.node i).vars := by
    intro i
    rw [node_append]
    split
    · rename_i hlast
      rw [node_of_length_le (Nat.le_of_eq hlast.symm)]
      exact ⟨rfl, rfl⟩
    · exact ⟨rfl, rfl⟩
  have hchild : ∀ i other, (t.addChild p name).2.child? i other =
      Table.get? (if i = p then Table.insertSorted (t.node i).children name t.nodes.length
        else (t.node i).children) other := by
    intro i other
    unfold child? NamespaceTree.addChild
    dsimp only
    rw [node_update]
    split
    · rw [← (happend i).1]
    · rw [← (happend i).1]
  constructor
  · unfold NamespaceTree.addChild update filledTo
    dsimp only
    rw [List.length_modify, List.length_append, List.length_append]
    omega
  · intro i
    unfold NamespaceTree.addChild
    dsimp only
    rw [node_update]
    split
    · exact (happend i).2
    · exact (happend i).2
  · intro i c other hc
    rw [hchild]
    split
    · rename_i hi
      subst hi
      have hne : name ≠ other := by
        rintro rfl
        rw [h] at hc
        cases hc
      rw [Table.get?_insertSorted_of_ne _ hne]
      exact hc
    · exact hc
  · intro i c other hc
    rw [hchild] at hc
    split at hc
    · rename_i hi
      subst hi
      by_cases hne : name = other
      · subst hne
        rw [Table.get?_insertSorted_self (Table.get?_eq_none_iff.1 h)] at hc
        cases hc
        exact .inr (Nat.le_refl _)
      · rw [Table.get?_insertSorted_of_ne _ hne] at hc
        exact .inl hc
    · exact .inl hc

theorem ensureFrom (id : NamespaceId) (names : List String) :
    Extends t (t.ensureFrom id names).2 := by
  induction names generalizing t id with
  | nil => exact .refl t
  | cons name rest ih =>
    unfold NamespaceTree.ensureFrom
    split
    · exact ih _
    · rename_i hnone
      exact (addChild hnone).trans (ih _)

theorem ensure (start : NamespaceId) (path : String) : Extends t (t.ensure start path).2 := by
  unfold NamespaceTree.ensure
  split
  · exact ensureFrom _ _
  · exact ensureFrom _ _

theorem updateCommands (t : NamespaceTree κ) (id : NamespaceId)
    (f : Table (Executable κ) → Table (Executable κ)) :
    Extends t (t.update id fun n => { n with commands := f n.commands }) := by
  have hnode : ∀ i, ((t.update id fun n => { n with commands := f n.commands }).node i).children =
      (t.node i).children ∧
      ((t.update id fun n => { n with commands := f n.commands }).node i).vars =
        (t.node i).vars := by
    intro i
    rw [node_update]
    split <;> exact ⟨rfl, rfl⟩
  refine ⟨?_, fun i => (hnode i).2, fun {i c name} hc => ?_, fun {i c name} hc => .inl ?_⟩
  · unfold update filledTo
    dsimp only
    rw [List.length_modify, List.length_append]
    omega
  · rw [child?, (hnode i).1]
    exact hc
  · rw [child?, (hnode i).1] at hc
    exact hc

theorem walk_keeps (h : Extends t t') {names : List String} (hwalk : t.walk id names = some c) :
    t'.walk id names = some c := by
  induction names generalizing id with
  | nil => exact hwalk
  | cons name rest ih =>
    obtain ⟨d, hd, hrest⟩ := Option.bind_eq_some_iff.1 hwalk
    exact Option.bind_eq_some_iff.2 ⟨d, h.keeps hd, ih hrest⟩

/-- From a new namespace names lead to new ones only. -/
theorem le_of_walk (h : Extends t t') (hid : t.nodes.length ≤ id) {names : List String}
    (hwalk : t'.walk id names = some c) : t.nodes.length ≤ c := by
  induction names generalizing id with
  | nil =>
    cases hwalk
    exact hid
  | cons name rest ih =>
    obtain ⟨d, hd, hrest⟩ := Option.bind_eq_some_iff.1 hwalk
    rcases h.adds hd with hold | hnew
    · rw [child?, node_of_length_le hid] at hold
      cases hold
    · exact ih hnew hrest

/-- Names that lead to an old namespace did so before. -/
theorem walk_of_lt (h : Extends t t') {names : List String} (hwalk : t'.walk id names = some c)
    (hc : c < t.nodes.length) : t.walk id names = some c := by
  induction names generalizing id with
  | nil => exact hwalk
  | cons name rest ih =>
    obtain ⟨d, hd, hrest⟩ := Option.bind_eq_some_iff.1 hwalk
    rcases h.adds hd with hold | hnew
    · exact Option.bind_eq_some_iff.2 ⟨d, hold, ih hrest⟩
    · exact absurd (h.le_of_walk hnew hrest) (Nat.not_le.2 hc)

theorem find_of_lt (h : Extends t t') {start : NamespaceId} {path : String}
    (hfind : t'.find start path = some c) (hc : c < t.nodes.length) :
    t.find start path = some c := by
  unfold find at hfind ⊢
  split
  · rename_i hrest
    rw [hrest] at hfind
    exact h.walk_of_lt hfind hc
  · rename_i hrest
    rw [hrest] at hfind
    dsimp only at hfind
    cases hstart : t'.walk start (Name.components path) with
    | some d =>
      rw [hstart] at hfind
      cases hfind
      rw [h.walk_of_lt hstart hc]
      rfl
    | none =>
      rw [hstart] at hfind
      have hnone : t.walk start (Name.components path) = none := by
        cases hold : t.walk start (Name.components path) with
        | none => rfl
        | some d =>
          rw [h.walk_keeps hold] at hstart
          cases hstart
      rw [hnone]
      exact h.walk_of_lt hfind hc

end Extends

end NamespaceTree

/-! ## Heights -/

/-- How far up a slot is; namespaces are below all frames. -/
def Slot.height : Slot → Nat
  | .frame d => d + 1
  | .inNamespace _ => 0

namespace Environment

variable {κ : Type} {env env' : Environment κ} {e e' : Entry} {slot : Slot}
  {key name target : String} {level depth : Nat}

/-- Links are in their places: those of a procedure's own variables lead to no frame above it, those
of namespaces to the global frame, which is that of the root. No slot has a name twice. -/
structure Orderly (env : Environment κ) : Prop where
  links : env.Holds .linkFree (· = 0)
  bottom : (env.stack.frame 0).shape.shared = some NamespaceTree.root
  nodup (slot : Slot) : slot.Within env.depth → (Table.names (env.scope slot)).Nodup

namespace Orderly

theorem inPlace (h : env.Orderly) : env.LinksInPlace where
  own depth f vars hf hvars e he _ hd :=
    linkDepth_of_held ((h.links.stack depth f hf).vars vars hvars e he) hd
  shared n hn e he _ hd := linkDepth_of_held ((h.links.namespaces n hn).vars e he) hd

/-- Where the link in an entry leads. -/
theorem linkDepth (h : env.Orderly) (hproper : Entry.Proper env e)
    (hget : (env.scope e.slot).get? e.key = some (.link target depth)) :
    (∃ d, e.slot = .frame d ∧ depth ≤ d ∧ d ≤ env.depth) ∨
      ∃ id, e.slot = .inNamespace id ∧ depth = 0 := by
  obtain ⟨slot, key⟩ := e
  cases slot with
  | frame d =>
    have hd : (Slot.frame d).Within d := Slot.within_frame (Nat.le_refl d)
    exact .inl ⟨d, rfl, h.inPlace.linkDepth_le hproper.within hd hget, hproper.within⟩
  | inNamespace id =>
    have hzero : (Slot.inNamespace id).Within 0 := trivial
    exact .inr ⟨id, rfl, Nat.le_zero.1 (h.inPlace.linkDepth_le (Nat.zero_le _) hzero hget)⟩

theorem home_zero (h : env.Orderly) : env.home (.frame 0) = .inNamespace NamespaceTree.root := by
  simp only [home, h.bottom]

/-- A name seen from a depth means no entry above it, and one of a namespace if seen from the
bottom. -/
theorem height_entryAt? (h : env.Orderly) (hentry : env.entryAt? name depth = some e) :
    e.slot.height ≤ depth + 1 ∧ (depth = 0 → e.slot.height = 0) := by
  obtain ⟨⟨slot, key⟩, hplace, rfl⟩ := Option.map_eq_some_iff.1 hentry
  cases slot with
  | inNamespace id => exact ⟨Nat.zero_le _, fun _ => rfl⟩
  | frame d =>
    have hle := slotOf?_le hplace
    refine ⟨?_, fun hzero => ?_⟩
    · rcases env.home_frame d with ⟨_, _, hhome, _⟩ | ⟨_, _, hhome, _⟩
      · simpa only [hhome, Slot.height] using Nat.succ_le_succ hle
      · simp only [hhome, Slot.height, Nat.zero_le]
    · obtain rfl : d = 0 := by omega
      simp only [h.home_zero, Slot.height]

/-- Links do not lead up. -/
theorem height_le (h : env.Orderly) (hproper : Entry.Proper env e) (hnext : env.Next e e') :
    e'.slot.height ≤ e.slot.height := by
  obtain ⟨target, depth, hget, hentry⟩ := hnext
  obtain ⟨hle, hzero⟩ := h.height_entryAt? hentry
  rcases h.linkDepth hproper hget with ⟨d, hslot, hdepth, _⟩ | ⟨id, hslot, hdepth⟩
  · rw [hslot, Slot.height]
    omega
  · rw [hzero (by omega)]
    exact Nat.zero_le _

theorem height_le_of_transGen (h : env.Orderly) (hproper : Entry.Proper env e)
    (hway : TransGen env.Next e e') : e'.slot.height ≤ e.slot.height := by
  induction hway with
  | single hnext => exact h.height_le hproper hnext
  | tail hway hnext ih => exact Nat.le_trans (h.height_le (proper_of_transGen hway) hnext) ih

end Orderly

/-! ## Assignments -/

theorem home_modifyScope (f : Table Value → Table Value) {slot' : Slot}
    (hslot : slot'.Within env.depth) : (env.modifyScope slot f).home slot' = env.home slot' := by
  cases slot' with
  | frame d => simp only [home, Stack.frame_shape (shape_modifyScope env slot f) hslot]
  | inNamespace id => rfl

theorem entryAt?_modifyScope (f : Table Value → Table Value) (hdepth : depth ≤ env.depth)
    (hsame : (env.modifyScope slot f).slotOf? name depth = env.slotOf? name depth) :
    (env.modifyScope slot f).entryAt? name depth = env.entryAt? name depth := by
  rw [entryAt?, entryAt?, hsame]
  cases hplace : env.slotOf? name depth with
  | none => rfl
  | some place => simp only [Option.map_some, home_modifyScope f (within_of_slotOf? hdepth hplace)]

/-- After an assignment a name means what it did, unless it means what was assigned. -/
theorem entryAt?_of_assign {v : Value} (hslot : slot.Within env.depth) (hdepth : depth ≤ env.depth)
    (h : (env.assign slot key v).entryAt? name depth = some e) (hne : e ≠ ⟨env.home slot, key⟩) :
    env.entryAt? name depth = some e := by
  obtain ⟨⟨slot', key'⟩, hplace, rfl⟩ := Option.map_eq_some_iff.1 h
  suffices hsame : env.slotOf? name depth = some (slot', key') by
    rw [← h]
    exact (entryAt?_modifyScope _ hdepth (hplace.trans hsame.symm)).symm
  by_cases hplain : (Name.splitQualified name).1 = none
  · rw [slotOf?_plain hplain] at hplace ⊢
    cases hplace
    cases howner : (env.assign slot key v).owner? name depth with
    | none => rw [owner?_none_of_assign hslot hdepth howner]
    | some d =>
      have hd : (Slot.frame d).Within env.depth :=
        Nat.le_trans (owner?_eq_some_iff.1 howner).1 hdepth
      rw [owner?_of_assign hslot hdepth howner]
      rintro ⟨hhome, rfl⟩
      refine hne ?_
      rw [howner, Option.getD_some, assign, home_modifyScope _ hd, hhome]
  · rw [← slotOf?_modifyScope _ hdepth hplain]
    exact hplace

/-- The links of a cycle that were there before an assignment: those of other entries. -/
theorem next_of_assign {v : Value} (hslot : slot.Within env.depth)
    (hproper : Entry.Proper (env.assign slot key v) e) (hnext : (env.assign slot key v).Next e e')
    (hne : e ≠ ⟨env.home slot, key⟩) (hne' : e' ≠ ⟨env.home slot, key⟩) : env.Next e e' := by
  obtain ⟨target, depth, hget, hentry⟩ := hnext
  have hwithin : e.slot.Within env.depth := depth_assign env slot key v ▸ hproper.within
  have hhome : env.home e.slot = e.slot := by
    rw [← home_modifyScope _ hwithin]
    exact hproper.home
  rw [depth_assign] at hentry
  rw [get?_assign v hslot hwithin, hhome, if_neg] at hget
  · exact ⟨target, depth, hget, entryAt?_of_assign hslot (Nat.min_le_right _ _) hentry hne'⟩
  · intro hsame
    obtain ⟨slot', key'⟩ := e
    dsimp only at hsame
    rw [hsame.1, hsame.2] at hne
    exact hne rfl

/-- An assignment makes no cycle that does not go through what was assigned. -/
theorem Acyclic.assign {v : Value} (h : env.Acyclic) (hslot : slot.Within env.depth)
    (hloops : ¬ (env.assign slot key v).Loops ⟨env.home slot, key⟩) :
    (env.assign slot key v).Acyclic := by
  refine h.of_edges fun e e' hnext hback => ?_
  refine next_of_assign hslot (proper_of_transGen hback) hnext ?_ ?_
  · rintro rfl
    exact hloops (.head hnext hback)
  · rintro rfl
    exact hloops (hback.tail hnext)

/-- A value that is no link leads nowhere. -/
theorem not_loops_of_value {v : Value} (hslot : slot.Within env.depth)
    (hv : ∀ target depth, v ≠ .link target depth) :
    ¬ (env.assign slot key v).Loops ⟨env.home slot, key⟩ := by
  intro hloops
  obtain ⟨_, ⟨target, depth, hget, _⟩, _⟩ := TransGen.head'_iff.1 hloops
  rw [get?_assign v hslot (home_within hslot), if_pos ⟨env.home_home slot, rfl⟩] at hget
  exact hv target depth (Option.some.inj hget)

/-! ## Erasures -/

theorem owner?_zero (env : Environment κ) (name : String) : (env.owner? name 0).getD 0 = 0 := by
  unfold owner?
  split <;> rfl

/-- Seen from the bottom, a name means the same whatever variables there are. -/
theorem slotOf?_zero (f : Table Value → Table Value) (name : String) :
    (env.modifyScope slot f).slotOf? name 0 = env.slotOf? name 0 := by
  by_cases hplain : (Name.splitQualified name).1 = none
  · rw [slotOf?_plain hplain, slotOf?_plain hplain, owner?_zero, owner?_zero]
  · exact slotOf?_modifyScope f (Nat.zero_le _) hplain

/-- A name that means an entry of the frame it is seen from means it also while there are more
variables. -/
theorem entryAt?_of_contains (hslot : e.slot = .frame depth)
    (hown : env.home (.frame depth) = .frame depth) (hplain : (Name.splitQualified name).1 = none)
    (hkey : e.key = name) (hcontains : (env.scope (.frame depth)).contains name = true) :
    env.entryAt? name depth = some e := by
  have howner : env.owner? name depth = some depth :=
    owner?_eq_some_iff.2 ⟨Nat.le_refl _, hcontains, fun d hlt hle => by omega⟩
  obtain ⟨slot, key⟩ := e
  dsimp only at hslot hkey
  rw [entryAt?, slotOf?_plain hplain, howner, hslot, hkey]
  exact congrArg (fun slot => some (Entry.mk slot name)) hown

theorem get?_of_erase (h : env.Orderly) (hslot : slot.Within env.depth) {slot' : Slot}
    (hslot' : slot'.Within env.depth) {key' : String} {v : Value}
    (hget : ((env.modifyScope slot fun vars => vars.erase key).scope slot').get? key' = some v) :
    (env.scope slot').get? key' = some v := by
  rw [scope_modifyScope _ hslot hslot'] at hget
  split at hget
  · rename_i hhome
    rw [scope_eq_of_home hhome]
    exact Table.get?_of_get?_erase (h.nodup slot hslot) hget
  · exact hget

/-- The links of a cycle lead on at one height, so what they mean does not change with what is
erased: either they are those of namespaces, or they lead to a variable of the frame itself. -/
theorem Acyclic.erase (h : env.Acyclic) (horderly : env.Orderly) (hslot : slot.Within env.depth)
    (horderly' : (env.modifyScope slot fun vars => vars.erase key).Orderly) :
    (env.modifyScope slot fun vars => vars.erase key).Acyclic := by
  refine h.of_edges fun e e' hnext hback => ?_
  have hdepth := depth_modifyScope env slot fun vars => vars.erase key
  have hproper := proper_of_transGen hback
  have hproper' := hnext.proper
  have hup := horderly'.height_le_of_transGen hproper' hback
  have hwithin : e.slot.Within env.depth := hdepth ▸ hproper.within
  have hwithin' : e'.slot.Within env.depth := hdepth ▸ hproper'.within
  obtain ⟨target, depth, hget, hentry⟩ := hnext
  refine ⟨target, depth, get?_of_erase horderly hslot hwithin hget, ?_⟩
  rw [hdepth] at hentry
  rcases horderly'.linkDepth hproper hget with ⟨d, hd, hle, _⟩ | ⟨id, hid, rfl⟩
  · have hlow := (horderly'.height_entryAt? hentry).1
    rw [hd, Slot.height] at hup
    obtain hm : min depth env.depth = d := by omega
    rw [hm] at hentry hlow ⊢
    have hframe : e'.slot = .frame d := by
      cases hslot' : e'.slot with
      | frame d' =>
        rw [hslot', Slot.height] at hup hlow
        rw [show d' = d by omega]
      | inNamespace id =>
        rw [hslot', Slot.height] at hup
        omega
    obtain ⟨⟨slot', key'⟩, hplace, rfl⟩ := Option.map_eq_some_iff.1 hentry
    obtain rfl := eq_frame_of_home hframe
    obtain ⟨hplain, rfl, _⟩ := owner?_of_slotOf? hplace
    obtain ⟨_, ⟨_, _, hlink, _⟩, _⟩ := TransGen.head'_iff.1 hback
    have hlink := get?_of_erase horderly hslot hwithin' hlink
    rw [hframe] at hlink hwithin'
    refine entryAt?_of_contains hframe ?_ hplain rfl ?_
    · rw [← home_modifyScope _ hwithin']
      exact hframe
    · rw [Table.contains, hlink]
      rfl
  · rw [Nat.zero_min] at hentry ⊢
    rw [← hentry]
    exact (entryAt?_modifyScope _ (Nat.zero_le _) (slotOf?_zero _ _)).symm

/-! ## Frames -/

theorem home_atLevel (h : level ≤ env.depth) (hslot : slot.Within level) :
    (env.atLevel level).home slot = env.home slot := by
  cases slot with
  | frame d =>
    have hframe : (env.atLevel level).stack.frame d = env.stack.frame d :=
      Stack.frame_upTo h hslot
    simp only [home, hframe]
  | inNamespace id => rfl

/-- Links at a level or below do not mind the frames above. -/
theorem next_atLevel (hlinks : env.LinksInPlace) (h : level ≤ env.depth)
    (hslot : e.slot.Within level) : (env.atLevel level).Next e e' ↔ env.Next e e' := by
  have hentry : ∀ name depth, depth ≤ level →
      (env.atLevel level).entryAt? name depth = env.entryAt? name depth := by
    intro name depth hdepth
    rw [entryAt?, entryAt?, slotOf?_atLevel h name hdepth]
    cases hplace : env.slotOf? name depth with
    | none => rfl
    | some place =>
      obtain ⟨slot, key⟩ := place
      have hwithin : slot.Within level := by
        cases slot with
        | frame d => exact Nat.le_trans (slotOf?_le hplace) hdepth
        | inNamespace id => trivial
      simp only [Option.map_some, home_atLevel h hwithin]
  unfold Next
  rw [scope_atLevel h hslot, depth_atLevel h]
  constructor
  · rintro ⟨target, depth, hget, hnext⟩
    have hdepth := hlinks.linkDepth_le h hslot hget
    rw [hentry _ _ (Nat.min_le_right _ _), Nat.min_eq_left hdepth] at hnext
    rw [← Nat.min_eq_left (Nat.le_trans hdepth h)] at hnext
    exact ⟨target, depth, hget, hnext⟩
  · rintro ⟨target, depth, hget, hnext⟩
    have hdepth := hlinks.linkDepth_le h hslot hget
    rw [Nat.min_eq_left (Nat.le_trans hdepth h)] at hnext
    refine ⟨target, depth, hget, ?_⟩
    rw [hentry _ _ (Nat.min_le_right _ _), Nat.min_eq_left hdepth]
    exact hnext

theorem returned_eq_atLevel (env : Environment κ) : env.returned = env.atLevel (env.depth - 1) := by
  obtain ⟨namespaces, ⟨top, below⟩⟩ := env
  cases below with
  | nil => rfl
  | cons f rest => simp [returned, atLevel, Stack.upTo, Stack.pop, depth, Stack.depth, Stack.toList]

theorem Acyclic.returned (h : env.Acyclic) (horderly : env.Orderly) : env.returned.Acyclic := by
  have hle : env.depth - 1 ≤ env.depth := Nat.sub_le _ _
  rw [returned_eq_atLevel]
  refine h.of_edges fun e e' hnext hback => ?_
  have hwithin := (proper_of_transGen hback).within
  rw [depth_atLevel hle] at hwithin
  exact (next_atLevel horderly.inPlace hle hwithin).1 hnext

/-- The environment with one more frame. -/
def pushed (env : Environment κ) (frame : Frame) : Environment κ :=
  { env with stack := env.stack.push frame }

theorem atLevel_pushed (env : Environment κ) (frame : Frame) :
    (env.pushed frame).atLevel env.depth = env := by
  have hstack := Stack.upTo_putBack [frame] env.stack
  exact congrArg (fun stack => { env with stack }) hstack

/-- A new frame makes no cycle: it has no links yet. -/
theorem Acyclic.pushed {frame : Frame} (h : env.Acyclic) (horderly : (env.pushed frame).Orderly)
    (hframe : ∀ vars, frame.storage = .own vars → ∀ e ∈ vars, e.2.LinkFree) :
    (env.pushed frame).Acyclic := by
  have hdepth : (env.pushed frame).depth = env.depth + 1 := rfl
  have hle : env.depth ≤ (env.pushed frame).depth := by omega
  refine h.of_edges fun e e' hnext hback => ?_
  have hproper := proper_of_transGen hback
  have hlow : e.slot.Within env.depth := by
    obtain ⟨_, _, hget, _⟩ := hnext
    obtain ⟨slot, key⟩ := e
    cases slot with
    | inNamespace id => trivial
    | frame d =>
      refine Nat.le_of_lt_succ (Nat.lt_of_le_of_ne hproper.within ?_)
      rintro rfl
      have htop : (env.pushed frame).stack.frame (env.depth + 1) = frame := by
        refine Stack.frame_eq_of_frame? ?_
        show (env.stack.push frame).frame? (env.depth + 1) = some frame
        rw [Stack.frame?_push]
        exact if_pos rfl
      cases hstorage : frame.storage with
      | own vars =>
        dsimp only at hget
        rw [scope, htop, hstorage] at hget
        cases hframe vars hstorage _ (Table.mem_of_get? hget)
      | shared id =>
        have hhome := hproper.home
        dsimp only at hhome
        rw [home_shared (by rw [htop, hstorage])] at hhome
        cases hhome
  rw [← next_atLevel horderly.inPlace hle hlow, atLevel_pushed] at hnext
  exact hnext

/-! ## Namespaces and records -/

section

variable {namespaces : NamespaceTree κ}

theorem scope_withNamespaces (h : env.namespaces.Extends namespaces) (slot : Slot) :
    ({ env with namespaces } : Environment κ).scope slot = env.scope slot := by
  cases slot with
  | inNamespace id => exact h.vars id
  | frame d =>
    unfold scope
    dsimp only
    split
    · rfl
    · exact h.vars _

theorem owner?_withNamespaces (h : env.namespaces.Extends namespaces) (name : String)
    (depth : Nat) :
    ({ env with namespaces } : Environment κ).owner? name depth = env.owner? name depth := by
  induction depth with
  | zero => simp only [owner?, scope_withNamespaces h]
  | succ depth ih => simp only [owner?, scope_withNamespaces h, ih]

/-- A name that leads to a variable leads there without the new namespaces. -/
theorem slotOf?_of_withNamespaces (h : env.namespaces.Extends namespaces)
    (hplace : ({ env with namespaces } : Environment κ).slotOf? name depth = some (slot, key))
    {v : Value} (hget : (env.scope slot).get? key = some v) :
    env.slotOf? name depth = some (slot, key) := by
  cases hsplit : Name.splitQualified name with
  | mk qualifiers tail =>
    cases qualifiers with
    | none =>
      rw [slotOf?_plain (congrArg Prod.fst hsplit)] at hplace ⊢
      rw [owner?_withNamespaces h] at hplace
      exact hplace
    | some qualifiers =>
      rw [slotOf?_qualified hsplit] at hplace ⊢
      split
      · rename_i hempty
        rw [if_pos hempty] at hplace
        exact hplace
      · rename_i hempty
        rw [if_neg hempty] at hplace
        obtain ⟨id, hfind, hid⟩ := Option.map_eq_some_iff.1 hplace
        cases hid
        -- A namespace with a variable is one that was there before.
        have hlt : id < env.namespaces.nodes.length := by
          refine Nat.lt_of_not_le fun hle => ?_
          rw [scope, NamespaceTree.node_of_length_le hle] at hget
          cases hget
        exact Option.map_eq_some_iff.2 ⟨id, h.find_of_lt hfind hlt, rfl⟩

/-- New namespaces make no cycle: they have no variables yet. -/
theorem Acyclic.withNamespaces (h : env.Acyclic) (hextends : env.namespaces.Extends namespaces) :
    ({ env with namespaces } : Environment κ).Acyclic := by
  refine h.of_edges fun e e' hnext hback => ?_
  obtain ⟨target, depth, hget, hentry⟩ := hnext
  obtain ⟨_, ⟨_, _, hlink, _⟩, _⟩ := TransGen.head'_iff.1 hback
  rw [scope_withNamespaces hextends] at hget hlink
  refine ⟨target, depth, hget, ?_⟩
  obtain ⟨⟨slot, key⟩, hplace, rfl⟩ := Option.map_eq_some_iff.1 hentry
  have hlink : (env.scope (env.home slot)).get? key = some _ := hlink
  rw [scope_home] at hlink
  exact Option.map_eq_some_iff.2
    ⟨(slot, key), slotOf?_of_withNamespaces hextends hplace hlink, rfl⟩

end

theorem Acyclic.sameVariables (h : env.Acyclic) (hsame : SameVariables env env') :
    env'.Acyclic := by
  have hhome : ∀ slot, env'.home slot = env.home slot := by
    intro slot
    cases slot with
    | frame d => simp only [home, Frame.shape, hsame.storage]
    | inNamespace id => rfl
  refine h.of_edges fun e e' hnext _ => ?_
  obtain ⟨target, depth, hget, hentry⟩ := hnext
  rw [hsame.scope] at hget
  simp only [entryAt?, hsame.slotOf?, hsame.depth, hhome] at hentry
  exact ⟨target, depth, hget, hentry⟩

/-! ## Links -/

/-- The entry of the current frame under a name. -/
def here (env : Environment κ) (name : String) : Entry := ⟨env.home (.frame env.depth), name⟩

/-- A new link makes no cycle unless it leads back to itself. -/
theorem Acyclic.link (h : env.Acyclic) (hlink : env.link level target name = .ok env')
    (hloops : ¬ env'.Loops (env.here name)) : env'.Acyclic := by
  obtain ⟨_, _, rfl⟩ := exists_of_link hlink
  exact h.assign (Slot.within_frame (Nat.le_refl _)) hloops

/-- A link leads nowhere but to where its target is seen. -/
theorem entryAt?_of_link (hlink : env.link level target name = .ok env')
    (hnext : env'.Next (env.here name) e) :
    env'.entryAt? (Name.splitIndex target).1 (min level env'.depth) = some e := by
  obtain ⟨_, _, rfl⟩ := exists_of_link hlink
  have hwithin : (Slot.frame env.depth).Within env.depth := Slot.within_frame (Nat.le_refl _)
  obtain ⟨target', level', hget, hentry⟩ := hnext
  rw [here, get?_assign _ hwithin (home_within hwithin),
    if_pos ⟨env.home_home _, rfl⟩] at hget
  cases hget
  exact hentry

/-- A link out of a procedure's own variables to what is below its frame does not lead back. -/
theorem Orderly.not_loops_of_low (h : env'.Orderly) (htop : env.stack.top.isOwn = true)
    (hlink : env.link level target name = .ok env')
    (hlow : ∀ e, env'.entryAt? (Name.splitIndex target).1 (min level env'.depth) = some e →
      e.slot.height ≤ env.depth) :
    ¬ env'.Loops (env.here name) := by
  intro hloops
  obtain ⟨e, hnext, hback⟩ := TransGen.head'_iff.1 hloops
  have hhere : (env.here name).slot = .frame env.depth :=
    home_of_isOwn (by rw [show env.stack.frame env.depth = env.stack.top from
      Stack.frame_eq_of_frame? env.stack.frame?_depth]; exact htop)
  have hdown := hlow e (entryAt?_of_link hlink hnext)
  have hup : (env.here name).slot.height ≤ e.slot.height := by
    rcases Relation.reflTransGen_iff_eq_or_transGen.1 hback with heq | hback
    · exact Nat.le_of_eq (by rw [heq])
    · exact h.height_le_of_transGen hnext.proper hback
  rw [hhere, Slot.height] at hup
  omega

end Environment

end CommandScript
