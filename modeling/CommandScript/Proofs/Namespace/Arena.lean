import CommandScript.Proofs.Environment.Slot
import CommandScript.Proofs.Table.Sorted
import Mathlib.Data.List.Nodup
import Mathlib.Data.List.Perm.Subperm

/-!
# Namespaces in order

Creating and deleting namespaces keeps the row of namespaces in order, also where a deleted
namespace is given new children or is deleted again: parents come before their children, the
children of a namespace are sorted by name and know their parent, and what was not deleted is listed
by its parent (`NamespaceTree.InOrder`). So names lead from living namespaces to living ones only.

While a namespace is being deleted some are cut off from their parents and not emptied yet.
`NamespaceTree.Sound` says what holds meanwhile: everything, but for those that are `away`.

* `NamespaceTree.Sound.addChild`: one more namespace.
* `NamespaceTree.Sound.emptied`: one step of a deletion; `NamespaceTree.Sound.clear`: all of it.
* `NamespaceTree.Grown`: the rows in question.
-/

namespace CommandScript

theorem Name.ne_empty_of_mem_components {path name : String} (h : name ∈ components path) :
    name ≠ "" := by
  obtain ⟨part, _, hpart⟩ := List.mem_filterMap.1 h
  split at hpart
  · cases hpart
  · rename_i hne
    cases hpart
    rintro heq
    refine hne (List.isEmpty_iff.2 ?_)
    simpa using congrArg String.toList heq

namespace NamespaceTree

variable {κ : Type} {t : NamespaceTree κ} {id p c : NamespaceId} {name : String}

/-- A namespace that has not been deleted. -/
def Live (t : NamespaceTree κ) (id : NamespaceId) : Prop :=
  id < t.nodes.length ∧ (t.node id).deleted = false

/-! ## Changes of the row -/

theorem length_update (h : id < t.nodes.length) (f : Namespace κ → Namespace κ) :
    (t.update id f).nodes.length = t.nodes.length := by
  unfold update filledTo
  rw [List.length_modify, List.length_append, List.length_replicate,
    Nat.sub_eq_zero_of_le (Nat.succ_le_of_lt h), Nat.add_zero]

theorem node_of_length_le (h : t.nodes.length ≤ id) : t.node id = .absent := by
  rw [node, List.getD_eq_getElem?_getD, List.getElem?_eq_none h]
  rfl

theorem node_append (n : Namespace κ) (i : NamespaceId) :
    (⟨t.nodes ++ [n]⟩ : NamespaceTree κ).node i = if i = t.nodes.length then n else t.node i := by
  unfold node
  rw [List.getD_eq_getElem?_getD, List.getD_eq_getElem?_getD]
  split
  · rename_i hi
    rw [hi, List.getElem?_concat_length]
    rfl
  · rename_i hi
    rcases Nat.lt_or_ge i t.nodes.length with hlt | hge
    · rw [List.getElem?_append_left hlt]
    · have hgt : t.nodes.length < i := Nat.lt_of_le_of_ne hge (Ne.symm hi)
      rw [List.getElem?_eq_none hge, List.getElem?_eq_none (List.length_append ▸ hgt)]

/-- The row after a child was added. -/
theorem node_addChild (hp : p < t.nodes.length) (name : String) (i : NamespaceId) :
    (t.addChild p name).2.node i =
      if i = p then
        { t.node p with children := Table.insertSorted (t.node p).children name t.nodes.length }
      else if i = t.nodes.length then { name, parent := some p }
      else t.node i := by
  unfold addChild
  rw [node_update, node_append]
  by_cases hi : i = p
  · subst hi
    rw [if_pos rfl, if_pos rfl, if_neg (Nat.ne_of_lt hp)]
  · rw [if_neg hi, if_neg hi]

theorem length_addChild (hp : p < t.nodes.length) (name : String) :
    (t.addChild p name).2.nodes.length = t.nodes.length + 1 := by
  have hlength :
      (t.nodes ++ [({ name, parent := some p } : Namespace κ)]).length = t.nodes.length + 1 :=
    List.length_append
  unfold addChild
  rw [length_update]
  · exact hlength
  · exact Nat.lt_of_lt_of_eq (Nat.lt_succ_of_lt hp) hlength.symm

/-- The row after a namespace was emptied. -/
def emptied (t : NamespaceTree κ) (id : NamespaceId) : NamespaceTree κ :=
  t.update id fun n => { n with children := [], commands := [], vars := [], deleted := true }

theorem clear_cons (t : NamespaceTree κ) (fuel : Nat) (id : NamespaceId) (rest : List NamespaceId) :
    t.clear (fuel + 1) (id :: rest) = (t.emptied id).clear fuel (t.childIds id ++ rest) := rfl

/-! ## Order -/

/-- The row of namespaces is in order, but for those that are cut off from their parents. -/
structure Sound (away : NamespaceId → Prop) (t : NamespaceTree κ) : Prop where
  root : t.Live root ∧ (t.node root).parent = none
  parent : ∀ id < t.nodes.length, id ≠ NamespaceTree.root → ∃ p < id, (t.node id).parent = some p
  sorted : ∀ p, Table.Sorted (t.node p).children
  /-- What is listed is what the list says. -/
  listed : ∀ p name c, (name, c) ∈ (t.node p).children →
    name ≠ "" ∧ t.Live c ∧ (t.node c).name = name ∧ (t.node c).parent = some p
  /-- What is there is listed. -/
  lists : ∀ p c, t.Live c → (t.node c).parent = some p → ¬ away c →
    ((t.node c).name, c) ∈ (t.node p).children
  apart : ∀ p name c, (name, c) ∈ (t.node p).children → ¬ away c

namespace Sound

variable {away : NamespaceId → Prop}

theorem congr {away' : NamespaceId → Prop} (h : Sound away t)
    (haway : ∀ c, t.Live c → (away c ↔ away' c)) : Sound away' t :=
  { h with
    lists := fun p c hc hp hnot => h.lists p c hc hp fun hin => hnot ((haway c hc).1 hin)
    apart := fun p name c hmem hin =>
      h.apart p name c hmem ((haway c (h.listed p name c hmem).2.1).2 hin) }

theorem lt_of_mem (h : Sound away t) (hmem : (name, c) ∈ (t.node p).children) :
    p < t.nodes.length ∧ c < t.nodes.length := by
  refine ⟨Nat.lt_of_not_le fun hle => ?_, (h.listed p name c hmem).2.1.1⟩
  rw [node_of_length_le hle] at hmem
  cases hmem

theorem child?_eq_some_iff (h : Sound away t) :
    t.child? p name = some c ↔ (name, c) ∈ (t.node p).children :=
  Table.get?_eq_some_iff (h.sorted p).nodup

theorem live_of_child? (h : Sound away t) (hc : t.child? p name = some c) : t.Live c :=
  (h.listed p name c (h.child?_eq_some_iff.1 hc)).2.1

/-- The children of a namespace are all different, as their names are. -/
theorem nodup_childIds (h : Sound away t) (p : NamespaceId) : (t.childIds p).Nodup := by
  have hnames :
      (t.childIds p).map (fun c => (t.node c).name) = Table.names (t.node p).children := by
    rw [childIds, List.map_map]
    exact List.map_congr_left fun e he => (h.listed p e.1 e.2 he).2.2.1
  exact List.Nodup.of_map _ (hnames ▸ (h.sorted p).nodup)

/-! ## Creating -/

theorem addChild (h : Sound (fun _ => False) t) (hp : p < t.nodes.length) (hname : name ≠ "")
    (hnew : t.child? p name = none) : Sound (fun _ => False) (t.addChild p name).2 := by
  have hnode := node_addChild (t := t) hp name
  have hlength := length_addChild (t := t) hp name
  generalize (t.addChild p name).2 = t' at hnode hlength
  have hold : ∀ i < t.nodes.length, (t'.node i).deleted = (t.node i).deleted ∧
      (t'.node i).name = (t.node i).name ∧ (t'.node i).parent = (t.node i).parent := by
    intro i hi
    rw [hnode]
    split
    · rename_i heq
      subst heq
      exact ⟨rfl, rfl, rfl⟩
    · rw [if_neg (Nat.ne_of_lt hi)]
      exact ⟨rfl, rfl, rfl⟩
  have hlive : ∀ i < t.nodes.length, t'.Live i ↔ t.Live i := by
    intro i hi
    simp only [Live, (hold i hi).1, hlength, hi, Nat.lt_succ_of_lt hi]
  have hlast : t'.node t.nodes.length = { name, parent := some p } := by
    rw [hnode, if_neg (Nat.ne_of_gt hp), if_pos rfl]
  have hmem : ∀ q e, e ∈ (t'.node q).children ↔
      e ∈ (t.node q).children ∨ q = p ∧ e = (name, t.nodes.length) := by
    intro q e
    rw [hnode]
    split
    · rename_i heq
      subst heq
      rw [Table.mem_insertSorted_iff]
      tauto
    · rename_i hq
      split
      · rename_i heq
        rw [heq, node_of_length_le (Nat.le_refl _)]
        simp [Namespace.absent, Nat.ne_of_gt hp]
      · simp [hq]
  have hroot : NamespaceTree.root < t.nodes.length := h.root.1.1
  refine ⟨⟨(hlive _ hroot).2 h.root.1, (hold _ hroot).2.2.trans h.root.2⟩, ?_, ?_, ?_, ?_,
    fun _ _ _ _ => not_false⟩
  · intro i hi hne
    rcases Nat.lt_or_eq_of_le (Nat.le_of_lt_succ (hlength ▸ hi)) with hi | rfl
    · rw [(hold i hi).2.2]
      exact h.parent i hi hne
    · exact ⟨p, hp, by rw [hlast]⟩
  · intro q
    rw [hnode]
    split
    · exact (h.sorted p).insertSorted (Table.get?_eq_none_iff.1 hnew) _
    · split
      · exact List.Pairwise.nil
      · exact h.sorted q
  · intro q other c hc
    rcases (hmem q _).1 hc with hc | ⟨rfl, heq⟩
    · have hlt := (h.lt_of_mem hc).2
      obtain ⟨hne, hcl, hcn, hcp⟩ := h.listed q other c hc
      exact ⟨hne, (hlive c hlt).2 hcl, (hold c hlt).2.1.trans hcn, (hold c hlt).2.2.trans hcp⟩
    · cases heq
      exact ⟨hname, ⟨hlength ▸ Nat.lt_succ_self _, by rw [hlast]⟩, by rw [hlast], by rw [hlast]⟩
  · intro q c hc hq _
    rw [hmem]
    rcases Nat.lt_or_eq_of_le (Nat.le_of_lt_succ (hlength ▸ hc.1)) with hlt | rfl
    · rw [(hold c hlt).2.1]
      exact .inl (h.lists q c ((hlive c hlt).1 hc) ((hold c hlt).2.2 ▸ hq) not_false)
    · rw [hlast] at hq ⊢
      cases hq
      exact .inr ⟨rfl, rfl⟩

/-- Following names down from a namespace, creating what is missing. -/
theorem ensureFrom (h : Sound (fun _ => False) t) (hid : id < t.nodes.length) {names : List String}
    (hnames : ∀ name ∈ names, name ≠ "") :
    Sound (fun _ => False) (t.ensureFrom id names).2 := by
  induction names generalizing t id with
  | nil => exact h
  | cons name rest ih =>
    have hrest : ∀ name ∈ rest, name ≠ "" :=
      fun name hmem => hnames name (List.mem_cons_of_mem _ hmem)
    unfold NamespaceTree.ensureFrom
    split
    · rename_i child hchild
      exact ih h (h.live_of_child? hchild).1 hrest
    · rename_i hchild
      have hlength := length_addChild (t := t) hid name
      exact ih (h.addChild hid (hnames name List.mem_cons_self) hchild)
        (Nat.lt_of_lt_of_eq (Nat.lt_succ_self _) hlength.symm) hrest

theorem ensure (h : Sound (fun _ => False) t) (hid : id < t.nodes.length) (path : String) :
    Sound (fun _ => False) (t.ensure id path).2 := by
  unfold NamespaceTree.ensure
  split
  · exact h.ensureFrom h.root.1.1 fun _ => Name.ne_empty_of_mem_components
  · exact h.ensureFrom hid fun _ => Name.ne_empty_of_mem_components

/-! ## Deleting -/

/-- Taking a namespace out of its parent's list. -/
theorem cutOff (h : Sound (fun _ => False) t) (hp : p < t.nodes.length)
    (hparent : (t.node id).parent = some p) :
    Sound (fun c => c = id)
      (t.update p fun n => { n with children := n.children.filter fun e => e.2 != id }) := by
  have hlength := length_update hp (f := fun n : Namespace κ =>
    { n with children := n.children.filter fun e => e.2 != id })
  have hnode := t.node_update p fun n =>
    { n with children := n.children.filter fun e => e.2 != id }
  generalize t.update p _ = t' at hnode hlength
  have hsame : ∀ i, (t'.node i).deleted = (t.node i).deleted ∧
      (t'.node i).name = (t.node i).name ∧ (t'.node i).parent = (t.node i).parent := by
    intro i
    rw [hnode]
    split <;> exact ⟨rfl, rfl, rfl⟩
  have hlive : ∀ i, t'.Live i ↔ t.Live i := fun i => by simp only [Live, (hsame i).1, hlength]
  -- No other namespace lists it, so it need not be looked for elsewhere.
  have hmem : ∀ q name c, (name, c) ∈ (t'.node q).children ↔
      (name, c) ∈ (t.node q).children ∧ c ≠ id := by
    intro q name c
    rw [hnode]
    split
    · simp
    · rename_i hq
      refine ⟨fun hc => ⟨hc, ?_⟩, And.left⟩
      rintro rfl
      rw [(h.listed q name c hc).2.2.2] at hparent
      cases hparent
      exact hq rfl
  refine ⟨⟨(hlive _).2 h.root.1, (hsame _).2.2.trans h.root.2⟩, ?_, ?_, ?_, ?_, ?_⟩
  · intro i hi hne
    rw [(hsame i).2.2]
    exact h.parent i (hlength ▸ hi) hne
  · intro q
    rw [hnode]
    split
    · exact (h.sorted q).sublist List.filter_sublist
    · exact h.sorted q
  · intro q name c hc
    rw [hlive, (hsame c).2.1, (hsame c).2.2]
    exact h.listed q name c ((hmem q name c).1 hc).1
  · intro q c hc hq hne
    rw [hmem, (hsame c).2.1]
    exact ⟨h.lists q c ((hlive c).1 hc) ((hsame c).2.2 ▸ hq) not_false, hne⟩
  · intro q name c hc
    exact ((hmem q name c).1 hc).2

/-- Emptying a namespace that is away sets its children away. -/
theorem emptied (h : Sound away t) (hid : id < t.nodes.length) (hne : id ≠ NamespaceTree.root)
    (haway : away id) : Sound (fun c => away c ∨ c ∈ t.childIds id) (t.emptied id) := by
  have hlength : (t.emptied id).nodes.length = t.nodes.length := length_update hid _
  have hnode : ∀ i, (t.emptied id).node i = if i = id then
      { t.node i with children := [], commands := [], vars := [], deleted := true }
      else t.node i := t.node_update id _
  generalize t.emptied id = t' at hnode hlength
  have hsame :
      ∀ i, (t'.node i).name = (t.node i).name ∧ (t'.node i).parent = (t.node i).parent := by
    intro i
    rw [hnode]
    split <;> exact ⟨rfl, rfl⟩
  have hlive : ∀ i, t'.Live i ↔ t.Live i ∧ i ≠ id := by
    intro i
    unfold Live
    rw [hnode, hlength]
    split <;> simp_all
  have hmem : ∀ q e, e ∈ (t'.node q).children ↔ e ∈ (t.node q).children ∧ q ≠ id := by
    intro q e
    rw [hnode]
    split <;> simp_all
  refine ⟨⟨(hlive _).2 ⟨h.root.1, hne.symm⟩, (hsame _).2.trans h.root.2⟩, ?_, ?_, ?_, ?_, ?_⟩
  · intro i hi hi'
    rw [(hsame i).2]
    exact h.parent i (hlength ▸ hi) hi'
  · intro q
    rw [hnode]
    split
    · exact List.Pairwise.nil
    · exact h.sorted q
  · intro q name c hc
    have hc := ((hmem q _).1 hc).1
    obtain ⟨hname, hcl, hcn, hcp⟩ := h.listed q name c hc
    refine ⟨hname, (hlive c).2 ⟨hcl, ?_⟩, (hsame c).1.trans hcn, (hsame c).2.trans hcp⟩
    rintro rfl
    exact h.apart q name c hc haway
  · intro q c hc hq hnot
    rw [hmem, (hsame c).1]
    have hold := h.lists q c ((hlive c).1 hc).1 ((hsame c).2 ▸ hq) fun hin => hnot (.inl hin)
    refine ⟨hold, ?_⟩
    rintro rfl
    exact hnot (.inr (List.mem_map_of_mem hold))
  · intro q name c hc hin
    obtain ⟨hc, hq⟩ := (hmem q _).1 hc
    rcases hin with hin | hin
    · exact h.apart q name c hc hin
    · -- It would have two parents.
      obtain ⟨e, he, rfl⟩ := List.mem_map.1 hin
      have := (h.listed q name e.2 hc).2.2.2.symm.trans (h.listed id e.1 e.2 he).2.2.2
      exact hq (Option.some.inj this)

/-- Those that have been emptied need not be listed. -/
theorem of_gone {gone : List NamespaceId} (h : Sound (fun c => c ∈ gone ++ []) t)
    (hgone : ∀ c ∈ gone, (t.node c).deleted = true) : Sound (fun _ => False) t := by
  refine h.congr fun c hc => ⟨fun hin => ?_, False.elim⟩
  rw [List.append_nil] at hin
  exact absurd (hgone c hin) (by rw [hc.2]; exact Bool.false_ne_true)

/-- A deletion comes to its end: each namespace is emptied once, those of `gone` already, so there
are no more steps than namespaces. -/
theorem clear (gone : List NamespaceId) {pending : List NamespaceId} {fuel : Nat}
    (h : Sound (fun c => c ∈ gone ++ pending) t) (hgone : ∀ c ∈ gone, (t.node c).deleted = true)
    (hnodup : (gone ++ pending).Nodup) (hlt : ∀ c ∈ gone ++ pending, c < t.nodes.length)
    (hroot : NamespaceTree.root ∉ pending) (hfuel : t.nodes.length ≤ fuel + gone.length) :
    Sound (fun _ => False) (t.clear fuel pending) := by
  induction fuel generalizing t gone pending with
  | zero =>
    -- As many as there are have been emptied, so none is left.
    have hsub : gone ++ pending ⊆ List.range t.nodes.length :=
      fun c hc => List.mem_range.2 (hlt c hc)
    have hle := (List.subperm_of_subset hnodup hsub).length_le
    rw [List.length_append, List.length_range] at hle
    obtain rfl : pending = [] := List.length_eq_zero_iff.1 (by omega)
    exact h.of_gone hgone
  | succ fuel ih =>
    cases pending with
    | nil => exact h.of_gone hgone
    | cons id rest =>
      have hid : id < t.nodes.length := hlt id (by simp)
      have hlength : (t.emptied id).nodes.length = t.nodes.length := length_update hid _
      have hne : id ≠ NamespaceTree.root := fun heq => hroot (heq ▸ List.mem_cons_self)
      have hperm : (gone ++ id :: rest).Perm (id :: gone ++ rest) := List.perm_middle
      have hbelow : ∀ c ∈ t.childIds id, c < t.nodes.length ∧ c ≠ NamespaceTree.root ∧
          c ∉ id :: gone ++ rest := by
        intro c hc
        obtain ⟨e, he, rfl⟩ := List.mem_map.1 hc
        refine ⟨(h.lt_of_mem he).2, fun heq => ?_, fun hin => h.apart id e.1 e.2 he ?_⟩
        · have hparent := (h.listed id e.1 e.2 he).2.2.2
          rw [heq, h.root.2] at hparent
          cases hparent
        · exact hperm.mem_iff.2 hin
      have hmem : ∀ c, c ∈ id :: gone ++ (t.childIds id ++ rest) ↔
          c ∈ gone ++ id :: rest ∨ c ∈ t.childIds id := by
        intro c
        simp only [hperm.mem_iff, List.mem_append]
        tauto
      rw [clear_cons]
      refine ih (id :: gone) ?_ ?_ ?_ ?_ ?_ (by rw [hlength, List.length_cons]; omega)
      · exact (h.emptied hid hne (by simp)).congr fun c _ => (hmem c).symm
      · intro c hc
        rw [NamespaceTree.emptied, node_update]
        split
        · rfl
        · rename_i hne
          exact hgone c ((List.mem_cons.1 hc).resolve_left hne)
      · have hmix : (t.childIds id ++ (id :: gone ++ rest)).Nodup :=
          List.nodup_append'.2 ⟨h.nodup_childIds id, hperm.nodup_iff.1 hnodup,
            fun c hc hin => (hbelow c hc).2.2 hin⟩
        refine (List.Perm.nodup_iff ?_).1 hmix
        simpa [List.append_assoc] using
          (@List.perm_append_comm _ (t.childIds id) (id :: gone)).append_right rest
      · intro c hc
        rw [hlength]
        exact ((hmem c).1 hc).elim (hlt c) fun hc => (hbelow c hc).1
      · intro hin
        rcases List.mem_append.1 hin with hin | hin
        · exact (hbelow _ hin).2.1 rfl
        · exact hroot (List.mem_cons_of_mem _ hin)

theorem delete (h : Sound (fun _ => False) t) (hid : id < t.nodes.length) :
    Sound (fun _ => False) (t.delete id) := by
  unfold NamespaceTree.delete
  split
  · exact h
  rename_i hne
  obtain ⟨p, hp, hparent⟩ := h.parent id hid hne
  have hp : p < t.nodes.length := Nat.lt_trans hp hid
  simp only [hparent]
  have hcut := h.cutOff hp hparent
  have hlength := length_update hp (f := fun n : Namespace κ =>
    { n with children := n.children.filter fun e => e.2 != id })
  refine Sound.clear [] (hcut.congr fun c _ => by simp) ?_ ?_ ?_ ?_ (by simp)
  · exact fun c hc => absurd hc List.not_mem_nil
  · exact List.nodup_singleton id
  · intro c hc
    cases List.mem_singleton.1 hc
    exact hlength ▸ hid
  · exact fun hin => hne (List.mem_singleton.1 hin).symm

end Sound

/-! ## Rows that have grown -/

/-- A row with nothing but the root. -/
def Fresh (t : NamespaceTree κ) : Prop :=
  ∃ commands vars, t = ⟨[{ name := "", parent := none, commands, vars }]⟩

/-- The rows that come from a fresh one by creating and deleting namespaces, from any place that was
given out, and by changing what namespaces hold. -/
inductive Grown : NamespaceTree κ → Prop
  | fresh {t : NamespaceTree κ} : t.Fresh → Grown t
  | ensure {t : NamespaceTree κ} (start : NamespaceId) (path : String) :
    Grown t → start < t.nodes.length → Grown (t.ensure start path).2
  | delete {t : NamespaceTree κ} (id : NamespaceId) :
    Grown t → id < t.nodes.length → Grown (t.delete id)
  | hold {t : NamespaceTree κ} (id : NamespaceId) (commands : Table (Executable κ))
    (vars : Table Value) : Grown t → id < t.nodes.length →
    Grown (t.update id fun n => { n with commands, vars })

theorem Sound.fresh (h : t.Fresh) : Sound (fun _ => False) t := by
  obtain ⟨commands, vars, rfl⟩ := h
  have hchildren : ∀ p, (node (⟨[{ name := "", parent := none, commands, vars }]⟩ : NamespaceTree κ)
      p).children = [] := by
    intro p
    cases p <;> rfl
  refine ⟨⟨⟨Nat.zero_lt_one, rfl⟩, rfl⟩, ?_, ?_, ?_, ?_, ?_⟩
  · intro id hid hne
    exact absurd (Nat.lt_one_iff.1 hid) hne
  · intro p
    rw [hchildren]
    exact List.Pairwise.nil
  · intro p name c hc
    rw [hchildren] at hc
    cases hc
  · intro p c hc hp
    cases Nat.lt_one_iff.1 hc.1
    cases hp
  · exact fun _ _ _ _ => not_false

/-- Order has nothing to do with what namespaces hold. -/
theorem Sound.hold (h : Sound (fun _ => False) t) (hid : id < t.nodes.length)
    (commands : Table (Executable κ)) (vars : Table Value) :
    Sound (fun _ => False) (t.update id fun n => { n with commands, vars }) := by
  have hlength := length_update hid (f := fun n : Namespace κ => { n with commands, vars })
  have hnode := t.node_update id fun n => { n with commands, vars }
  generalize t.update id _ = t' at hnode hlength
  have hsame : ∀ i, (t'.node i).children = (t.node i).children ∧
      (t'.node i).deleted = (t.node i).deleted ∧ (t'.node i).name = (t.node i).name ∧
      (t'.node i).parent = (t.node i).parent := by
    intro i
    rw [hnode]
    split <;> exact ⟨rfl, rfl, rfl, rfl⟩
  have hlive : ∀ i, t'.Live i ↔ t.Live i := fun i => by simp only [Live, (hsame i).2.1, hlength]
  constructor
  · rw [hlive, (hsame _).2.2.2]
    exact h.root
  · intro i hi
    rw [(hsame i).2.2.2]
    exact h.parent i (hlength ▸ hi)
  · intro p
    rw [(hsame p).1]
    exact h.sorted p
  · intro p name c
    rw [(hsame p).1, hlive, (hsame c).2.2.1, (hsame c).2.2.2]
    exact h.listed p name c
  · intro p c
    rw [(hsame p).1, hlive, (hsame c).2.2.1, (hsame c).2.2.2]
    exact h.lists p c
  · exact fun _ _ _ _ => not_false

theorem Grown.sound (h : t.Grown) : Sound (fun _ => False) t := by
  induction h with
  | fresh hfresh => exact .fresh hfresh
  | ensure start path _ hstart ih => exact ih.ensure hstart path
  | delete id _ hid ih => exact ih.delete hid
  | hold id commands vars _ hid ih => exact ih.hold hid commands vars

/-! ## Names in a row that is in order -/

variable {away : NamespaceId → Prop}

/-- The way up from a namespace is no longer than its place, so the fuel does not run out. -/
theorem Sound.namesTo_eq (h : Sound away t) (hid : id < t.nodes.length) {fuel fuel' : Nat}
    (hfuel : id < fuel) (hfuel' : id < fuel') : t.namesTo fuel id = t.namesTo fuel' id := by
  induction id using Nat.strongRecOn generalizing fuel fuel' with
  | _ id ih =>
    obtain ⟨fuel, rfl⟩ := Nat.exists_eq_add_one_of_ne_zero (Nat.ne_zero_of_lt hfuel)
    obtain ⟨fuel', rfl⟩ := Nat.exists_eq_add_one_of_ne_zero (Nat.ne_zero_of_lt hfuel')
    unfold namesTo
    split
    · rfl
    · rename_i hne
      obtain ⟨p, hp, hparent⟩ := h.parent id hid hne
      have hup : t.namesTo fuel p = t.namesTo fuel' p :=
        ih p hp (Nat.lt_trans hp hid) (Nat.lt_of_lt_of_le hp (Nat.le_of_lt_succ hfuel))
          (Nat.lt_of_lt_of_le hp (Nat.le_of_lt_succ hfuel'))
      simp only [hparent, hup]

theorem Sound.live_of_walk (h : Sound away t) {start : NamespaceId} (hstart : t.Live start)
    {names : List String} (hfound : t.walk start names = some id) : t.Live id := by
  induction names generalizing start with
  | nil => cases hfound; exact hstart
  | cons name rest ih =>
    obtain ⟨child, hchild, hrest⟩ := Option.bind_eq_some_iff.1 hfound
    exact ih (h.live_of_child? hchild) hrest

theorem Sound.live_of_find (h : Sound away t) {start : NamespaceId} (hstart : t.Live start)
    {path : String} (hfound : t.find start path = some id) : t.Live id := by
  unfold find at hfound
  split at hfound
  · exact h.live_of_walk h.root.1 hfound
  · cases hnear : t.walk start (Name.components path) with
    | some near =>
      rw [hnear] at hfound
      cases hfound
      exact h.live_of_walk hstart hnear
    | none =>
      rw [hnear] at hfound
      exact h.live_of_walk h.root.1 hfound

theorem Sound.count_childIds (h : Sound (fun _ => False) t) (hc : t.Live c)
    (hparent : (t.node c).parent = some p) : (t.childIds p).count c = 1 :=
  List.count_eq_one_of_mem (h.nodup_childIds p)
    (List.mem_map_of_mem (h.lists p c hc hparent not_false))

/-- A row of namespaces as it should be. -/
structure InOrder (t : NamespaceTree κ) : Prop where
  root : t.Live root ∧ (t.node root).parent = none
  parent : ∀ id < t.nodes.length, id ≠ NamespaceTree.root → ∃ p < id, (t.node id).parent = some p
  sorted : ∀ p, Table.Sorted (t.node p).children
  named : ∀ p, ∀ e ∈ (t.node p).children, e.1 ≠ ""
  agrees : ∀ p, ∀ e ∈ (t.node p).children,
    (t.node e.2).name = e.1 ∧ (t.node e.2).parent = some p
  once : ∀ c p, t.Live c → (t.node c).parent = some p → (t.childIds p).count c = 1
  live : ∀ p, t.Live p → ∀ c ∈ t.childIds p, t.Live c

theorem Sound.inOrder (h : Sound (fun _ => False) t) : t.InOrder where
  root := h.root
  parent := h.parent
  sorted := h.sorted
  named p e he := (h.listed p e.1 e.2 he).1
  agrees p e he := (h.listed p e.1 e.2 he).2.2
  once _ _ := h.count_childIds
  live p _ c hc := by
    obtain ⟨e, he, rfl⟩ := List.mem_map.1 hc
    exact (h.listed p e.1 e.2 he).2.1

/-- However namespaces are created and deleted, the row stays in order. So the way up from a
namespace ends at the root, names lead from a living namespace to living ones only, and looking
among the children of a namespace by halving finds a child just if there is one. -/
theorem namespaces_stay_in_order (h : t.Grown) :
    t.InOrder ∧
    (∀ id < t.nodes.length, ∀ fuel, id < fuel → t.namesTo fuel id = t.namesTo t.nodes.length id) ∧
    (∀ start path id, t.Live start → t.find start path = some id → t.Live id) ∧
    ∀ p name c, (Table.bisect (t.node p).children name = some c ↔ t.child? p name = some c) ∧
      (t.child? p name = some c ↔
        t.Live c ∧ (t.node c).parent = some p ∧ (t.node c).name = name) := by
  have hsound := h.sound
  refine ⟨hsound.inOrder, fun id hid fuel hfuel => hsound.namesTo_eq hid hfuel hid,
    fun start path id hstart hfound => hsound.live_of_find hstart hfound, fun p name c => ⟨?_, ?_⟩⟩
  · rw [(hsound.sorted p).bisect_eq]
    rfl
  · rw [hsound.child?_eq_some_iff]
    constructor
    · intro hc
      obtain ⟨_, hlive, hname, hparent⟩ := hsound.listed p name c hc
      exact ⟨hlive, hparent, hname⟩
    · rintro ⟨hlive, hparent, rfl⟩
      exact hsound.lists p c hlive hparent not_false

/-- A namespace gets a child after it was deleted, and then another of its name is created. -/
theorem namespaces_stay_in_order_deleted_parent :
    let t : NamespaceTree Unit := ((({} : NamespaceTree Unit).ensure root "a::b").2.delete 1)
    let t := ((t.ensure 1 "c").2.ensure root "a").2
    t.Grown ∧ t.InOrder ∧ t.find root "a::c" = none ∧ t.find 1 "c" = some 3 ∧ t.Live 3 ∧
      (t.node 3).parent = some 1 ∧ ¬ t.Live 1 ∧ t.Live 4 := by
  intro t₂ t
  have hgrown₂ : t₂.Grown :=
    .delete 1 (.ensure root "a::b" (.fresh ⟨[], [], rfl⟩) (by decide)) (by decide +kernel)
  have hgrown : t.Grown :=
    .ensure root "a" (.ensure 1 "c" hgrown₂ (by decide +kernel)) (by decide +kernel)
  have hfound : t.find 1 "c" = some 3 := by decide +kernel
  obtain ⟨hinOrder, _, _, hchild⟩ := namespaces_stay_in_order hgrown
  have hthree := (hchild 1 "c" 3).2.1 (by decide +kernel)
  refine ⟨hgrown, hinOrder, by decide +kernel, hfound, hthree.1, hthree.2.1, ?_, ?_⟩
  · exact fun hlive => absurd hlive.2 (by decide +kernel)
  · exact ⟨by decide +kernel, by decide +kernel⟩

end NamespaceTree

end CommandScript
