import CommandScript.Proofs.Interp.Tree
import CommandScript.Proofs.Table.Sorted
import CommandScript.Standard.Children

/-!
# Children and their paths

Seen from outside, an interpreter with its descendants is the set of paths at which there is one.
Creating a child adds a path to the set, deleting a child takes out a path with all that begin with
it, and nothing else changes anything (`ChildOp.effect`). The tree does what the set does
(`Interp.Refines`), because at every node the children stay sorted. Whatever is done at a path, an
interpreter that is not there or below stays as it is (`Interp.SameBut`).
-/

namespace CommandScript

/-- The state that an action has reached, however it ended. -/
def Action.reached {σ α : Type} : EStateM.Result Stop σ α → σ
  | .ok _ t => t
  | .error _ t => t

namespace Interp

variable {κ : Type} {i j c d : Interp κ} {path : ChildPath} {name : String}

/-! ## Elsewhere in the tree -/

/-- An interpreter without its children. -/
def alone (i : Interp κ) : Interp κ := { i with children := [] }

/-- Between two trees nothing has changed but at a path and below: not what interpreters are
without their children, nor, but for some, which children they have. Where it is not on the way to
the path, all of an interpreter is the same. -/
structure SameBut (path : ChildPath) (listing : ChildPath → Prop) (i j : Interp κ) : Prop where
  alone : ∀ q, ¬ path <+: q → (j.child? q).map alone = (i.child? q).map alone
  names : ∀ q, ¬ path <+: q → ¬ listing q →
    (j.child? q).map childNames = (i.child? q).map childNames
  beside : ∀ q, ¬ path <+: q → ¬ q <+: path → j.child? q = i.child? q

theorem SameBut.refl (path : ChildPath) (listing : ChildPath → Prop) (i : Interp κ) :
    SameBut path listing i i := ⟨fun _ _ => rfl, fun _ _ _ => rfl, fun _ _ _ => rfl⟩

/-- There is an interpreter at the same paths. -/
theorem SameBut.isSome {listing : ChildPath → Prop} (h : SameBut path listing i j) {q : ChildPath}
    (hq : ¬ path <+: q) : (j.child? q).isSome = (i.child? q).isSome := by
  have hmap := congrArg Option.isSome (h.alone q hq)
  rwa [Option.isSome_map, Option.isSome_map] at hmap

theorem child?_modifyChild_append (hc : i.child? path = some c) (rest : ChildPath) :
    (i.modifyChild (fun _ => d) path).child? (path ++ rest) = d.child? rest := by
  rw [child?_append, child?_modifyChild_self hc, Option.bind_some]

/-- What is not at a path or below is the same after a change there, or it is on the way there. -/
theorem child?_modifyChild_elsewhere (hc : i.child? path = some c) (d : Interp κ) {q : ChildPath}
    (hq : ¬ path <+: q) :
    (i.modifyChild (fun _ => d) path).child? q = i.child? q ∨
      q <+: path ∧ ∃ a b, i.child? q = some a ∧
        (i.modifyChild (fun _ => d) path).child? q = some b ∧
        b.alone = a.alone ∧ b.childNames = a.childNames := by
  induction path generalizing i q with
  | nil => exact absurd List.nil_prefix hq
  | cons name rest ih =>
    obtain ⟨b, hb, hc⟩ := Option.bind_eq_some_iff.1 hc
    simp only [modifyChild, hb]
    cases q with
    | nil =>
      have hmem : name ∈ Table.names i.children := Table.mem_names_of_mem (Table.mem_of_get? hb)
      exact .inr ⟨List.nil_prefix, i, _, rfl, rfl, rfl, Table.names_insert hmem _⟩
    | cons other q =>
      simp only [child?]
      by_cases hname : name = other
      · subst hname
        rw [Table.get?_insert_self, hb, Option.bind_some, Option.bind_some]
        have hq : ¬ rest <+: q := fun hpre => hq (List.prefix_cons_inj name |>.2 hpre)
        exact (ih hc hq).imp_right fun h => ⟨(List.prefix_cons_inj name).2 h.1, h.2⟩
      · rw [Table.get?_insert_of_ne _ hname]
        exact .inl rfl

theorem SameBut.modifyChild (hc : i.child? path = some c) (d : Interp κ) :
    SameBut path (fun _ => False) i (i.modifyChild (fun _ => d) path) := by
  refine ⟨fun q hq => ?_, fun q hq _ => ?_, fun q hq hnot => ?_⟩
  all_goals rcases child?_modifyChild_elsewhere hc d hq with
    heq | ⟨hpre, a, b, ha, hb, halone, hnames⟩
  · rw [heq]
  · rw [ha, hb, Option.map_some, Option.map_some, halone]
  · rw [heq]
  · rw [ha, hb, Option.map_some, Option.map_some, hnames]
  · exact heq
  · exact absurd hpre hnot

/-- Changing one child in the list of its parent. -/
theorem SameBut.modifyList {front : ChildPath} {parent : Interp κ} (name : String)
    (parent' : Interp κ) (hparent : i.child? front = some parent)
    (halone : parent'.alone = parent.alone)
    (hothers : ∀ other, name ≠ other →
      Table.get? parent'.children other = Table.get? parent.children other) :
    SameBut (front ++ [name]) (· = front) i (i.modifyChild (fun _ => parent') front) := by
  -- Below the parent only the other children are not at the path or below.
  have hbelow : ∀ other rest, ¬ front ++ [name] <+: front ++ other :: rest →
      (i.modifyChild (fun _ => parent') front).child? (front ++ other :: rest) =
        i.child? (front ++ other :: rest) := by
    intro other rest hq
    have hne : name ≠ other := by
      rintro rfl
      exact hq ((List.prefix_append_right_inj front).2
        ((List.prefix_cons_inj name).2 List.nil_prefix))
    rw [child?_modifyChild_append hparent, child?_append, hparent, Option.bind_some]
    simp only [child?, hothers other hne]
  have houter := SameBut.modifyChild hparent parent'
  refine ⟨fun q hq => ?_, fun q hq hne => ?_, fun q hq hnot => ?_⟩
  all_goals by_cases hfront : front <+: q
  · obtain ⟨rest, rfl⟩ := hfront
    cases rest with
    | nil =>
      rw [child?_modifyChild_append hparent, List.append_nil, hparent]
      exact congrArg some halone
    | cons other rest => rw [hbelow other rest hq]
  · exact houter.alone q hfront
  · obtain ⟨rest, rfl⟩ := hfront
    cases rest with
    | nil => exact absurd (List.append_nil front) hne
    | cons other rest => rw [hbelow other rest hq]
  · exact houter.names q hfront not_false
  · obtain ⟨rest, rfl⟩ := hfront
    cases rest with
    | nil => exact absurd (by simp) hnot
    | cons other rest => exact hbelow other rest hq
  · exact houter.beside q hfront fun hpre => hnot (hpre.trans (List.prefix_append front [name]))

/-! ## Creating and deleting -/

theorem child?_above {p q : ChildPath} (hpre : p <+: q) (h : (i.child? q).isSome = true) :
    (i.child? p).isSome = true := by
  obtain ⟨rest, rfl⟩ := hpre
  rw [child?_append] at h
  cases hp : i.child? p with
  | none => rw [hp] at h; cases h
  | some c => rfl

theorem child?_create (registry : Registry κ) (safe : Bool) (path : ChildPath) :
    ((create registry safe).child? path).isSome = true ↔ path = [] := by
  cases path with
  | nil => simp [child?]
  | cons name rest => simp [child?, create]

theorem rearrangeable_sorted :
    Rearrangeable fun i : Interp κ => Table.Sorted i.children where
  rearrange {i children} hchildren h := by
    cases hchildren with
    | same => exact h
    | replace c hb _ => exact h.insert (Table.mem_names_of_mem (Table.mem_of_get? hb)) c
    | add safe hnew => exact h.insertSorted (Table.contains_eq_false_iff.1 hnew) _
    | drop name => exact h.erase name
  fresh _ _ := .nil

theorem createChild_isOk_iff {safe : Bool} :
    (∃ j, i.createChild path safe = .ok j) ↔
      path ≠ [] ∧ (i.child? path.dropLast).isSome = true ∧ ¬ (i.child? path).isSome = true := by
  rcases List.eq_nil_or_concat path with rfl | ⟨front, name, rfl⟩
  · simp [createChild]
  · rw [List.concat_eq_append, createChild, List.getLast?_concat, List.dropLast_concat,
      child?_append]
    cases hparent : i.child? front with
    | none => simp
    | some parent =>
      cases hchild : Table.get? parent.children name <;>
        simp [Table.contains, child?, hchild]

theorem deleteChild_isOk_iff :
    (∃ j, i.deleteChild path = .ok j) ↔ path ≠ [] ∧ (i.child? path).isSome = true := by
  rcases List.eq_nil_or_concat path with rfl | ⟨front, name, rfl⟩
  · simp [deleteChild]
  · rw [List.concat_eq_append, deleteChild, List.getLast?_concat]
    cases i.child? (front ++ [name]) <;> simp

/-- The tree after a child was created. -/
theorem sameBut_createChild {safe : Bool} (h : i.createChild path safe = .ok j) :
    SameBut path (· = path.dropLast) i j ∧
      ∀ q, (j.child? q).isSome = true ↔ (i.child? q).isSome = true ∨ q = path := by
  have hfree := (createChild_isOk_iff.1 ⟨j, h⟩).2.2
  obtain ⟨name, parent, hname, hparent, hnew, rfl⟩ := createChild_ok h
  obtain ⟨front, rfl⟩ := List.getLast?_eq_some_iff.1 hname
  rw [List.dropLast_concat] at hparent ⊢
  have hsame := SameBut.modifyList name (parent.withNewChild name safe) hparent rfl
    fun other hne => Table.get?_insertSorted_of_ne _ hne
  refine ⟨hsame, fun q => ?_⟩
  by_cases hq : front ++ [name] <+: q
  · -- The new child has no children, and there was nothing before.
    obtain ⟨rest, rfl⟩ := hq
    have hnone : ¬ (i.child? (front ++ [name] ++ rest)).isSome = true :=
      fun hsome => hfree (child?_above (List.prefix_append _ _) hsome)
    have hfound : Table.get? (parent.withNewChild name safe).children name =
        some (create parent.registry (safe || parent.safe)) :=
      Table.get?_insertSorted_self (Table.contains_eq_false_iff.1 hnew) _
    rw [List.append_assoc, child?_modifyChild_append hparent, List.singleton_append, child?, hfound,
      Option.bind_some, child?_create]
    rw [List.append_assoc, List.singleton_append] at hnone
    simp [hnone]
  · rw [hsame.isSome hq]
    refine ⟨.inl, fun h => h.resolve_right ?_⟩
    rintro rfl
    exact hq (List.prefix_refl _)

/-- The tree after a child was deleted. -/
theorem sameBut_deleteChild (hsorted : Everywhere (fun i => Table.Sorted i.children) i)
    (h : i.deleteChild path = .ok j) :
    SameBut path (· = path.dropLast) i j ∧
      ∀ q, (j.child? q).isSome = true ↔ (i.child? q).isSome = true ∧ ¬ path <+: q := by
  obtain ⟨name, parent, hname, hparent, rfl⟩ := deleteChild_ok h
  obtain ⟨front, rfl⟩ := List.getLast?_eq_some_iff.1 hname
  rw [List.dropLast_concat] at hparent ⊢
  have hsame := SameBut.modifyList name
    { parent with children := Table.erase parent.children name } hparent rfl
    fun other hne => Table.get?_erase_of_ne hne
  refine ⟨hsame, fun q => ?_⟩
  by_cases hq : front ++ [name] <+: q
  · obtain ⟨rest, rfl⟩ := hq
    have hgone : Table.get? (Table.erase parent.children name) name = none :=
      Table.get?_erase_self (hsorted.child? hparent).here.nodup
    rw [List.append_assoc, child?_modifyChild_append hparent, List.singleton_append, child?, hgone]
    simp
  · rw [hsame.isSome hq]
    exact (and_iff_left hq).symm

end Interp

/-! ## Operations and what they do to the set of paths -/

/-- An operation on the children of an interpreter. -/
inductive ChildOp where
  | create (path : ChildPath) (safe : Bool)
  | delete (path : ChildPath)

namespace ChildOp

variable {κ : Type}

def path : ChildOp → ChildPath
  | create path _ => path
  | delete path => path

def apply : ChildOp → Interp κ → Except ChildFault (Interp κ)
  | create path safe, i => i.createChild path safe
  | delete path, i => i.deleteChild path

def perform (op : ChildOp) : Act κ Unit := Standard.Children.edit op.apply

def Succeeds (op : ChildOp) (s : State κ) : Prop := ∃ t, op.perform s = .ok () t

/-- The state after an operation, whether it succeeds or not. -/
def after (s : State κ) (op : ChildOp) : State κ := Action.reached (op.perform s)

/-- Whether an operation can be done in a tree with the given paths. -/
def Accepted (paths : List ChildPath) : ChildOp → Prop
  | create path _ => path ≠ [] ∧ path.dropLast ∈ paths ∧ path ∉ paths
  | delete path => path ≠ [] ∧ path ∈ paths

instance (paths : List ChildPath) (op : ChildOp) : Decidable (op.Accepted paths) :=
  match op with
  | create path _ => inferInstanceAs (Decidable (path ≠ [] ∧ path.dropLast ∈ paths ∧ path ∉ paths))
  | delete path => inferInstanceAs (Decidable (path ≠ [] ∧ path ∈ paths))

/-- The paths after an operation that can be done. -/
def effect (paths : List ChildPath) : ChildOp → List ChildPath
  | create path _ => path :: paths
  | delete path => paths.filter fun q => !path.isPrefixOf q

/-- The paths after an operation; one that cannot be done changes nothing. -/
def effectIfAccepted (paths : List ChildPath) (op : ChildOp) : List ChildPath :=
  if op.Accepted paths then op.effect paths else paths

/-- The paths after operations on an interpreter without children. -/
def pathsAfter (ops : List ChildOp) : List ChildPath := ops.foldl effectIfAccepted [[]]

theorem perform_of_ok {op : ChildOp} {s : State κ} {j : Interp κ} (h : op.apply s.interp = .ok j) :
    op.perform s = .ok () { s with interp := j } := by
  show (Action.ofExcept (op.apply s.interp) >>=
      fun changed => Act.modifyInterp fun _ => changed) s =
    .ok () { s with interp := j }
  rw [h]
  rfl

theorem perform_of_error {op : ChildOp} {s : State κ} {fault : ChildFault}
    (h : op.apply s.interp = .error fault) :
    op.perform s = .error (.raised (.ofFault fault)) s := by
  show (Action.ofExcept (op.apply s.interp) >>=
      fun changed => Act.modifyInterp fun _ => changed) s =
    .error (.raised (.ofFault fault)) s
  rw [h]
  rfl

theorem succeeds_iff {op : ChildOp} {s : State κ} :
    op.Succeeds s ↔ ∃ j, op.apply s.interp = .ok j := by
  unfold Succeeds
  cases happly : op.apply s.interp with
  | ok j => exact ⟨fun _ => ⟨j, rfl⟩, fun _ => ⟨_, perform_of_ok happly⟩⟩
  | error fault =>
    rw [perform_of_error happly]
    constructor
    · rintro ⟨t, h⟩
      cases h
    · rintro ⟨j, h⟩
      cases h

theorem after_of_ok {op : ChildOp} {s : State κ} {j : Interp κ} (h : op.apply s.interp = .ok j) :
    after s op = { s with interp := j } := by
  rw [after, perform_of_ok h]
  rfl

/-- An operation that fails leaves everything as it was. -/
theorem after_of_not_succeeds {op : ChildOp} {s : State κ} (h : ¬ op.Succeeds s) :
    after s op = s := by
  cases happly : op.apply s.interp with
  | ok j => exact absurd ⟨_, perform_of_ok happly⟩ h
  | error fault =>
    rw [after, perform_of_error happly]
    rfl

end ChildOp

/-! ## The tree does what the set does -/

namespace Interp

variable {κ : Type} {i j : Interp κ} {paths : List ChildPath}

/-- There are interpreters just at the given paths, and every one has its children in order. -/
structure Tracks (i : Interp κ) (paths : List ChildPath) : Prop where
  found : ∀ p, (i.child? p).isSome = true ↔ p ∈ paths
  sorted : Everywhere (fun i => Table.Sorted i.children) i

namespace Tracks

theorem create (registry : Registry κ) (safe : Bool) :
    Tracks (Interp.create registry safe) [[]] where
  found p := (child?_create registry safe p).trans List.mem_singleton.symm
  sorted := .node .nil fun _ hc => absurd hc List.not_mem_nil

theorem accepted_iff (h : i.Tracks paths) (op : ChildOp) :
    (∃ j, op.apply i = .ok j) ↔ op.Accepted paths := by
  cases op with
  | create path safe =>
    refine createChild_isOk_iff.trans ?_
    rw [h.found, h.found]
    rfl
  | delete path =>
    refine deleteChild_isOk_iff.trans ?_
    rw [h.found]
    rfl

/-- What an operation does to a tree and to its paths. -/
theorem apply (h : i.Tracks paths) {op : ChildOp} (hop : op.apply i = .ok j) :
    SameBut op.path (· = op.path.dropLast) i j ∧ j.Tracks (op.effect paths) := by
  cases op with
  | create path safe =>
    obtain ⟨hsame, hfound⟩ := sameBut_createChild hop
    refine ⟨hsame, fun q => ?_, h.sorted.createChild rearrangeable_sorted hop⟩
    rw [hfound, h.found, ChildOp.effect, List.mem_cons, or_comm]
  | delete path =>
    obtain ⟨hsame, hfound⟩ := sameBut_deleteChild h.sorted hop
    refine ⟨hsame, fun q => ?_, h.sorted.deleteChild rearrangeable_sorted hop⟩
    rw [hfound, h.found, ChildOp.effect, List.mem_filter, Bool.not_eq_true', ← Bool.not_eq_true,
      List.isPrefixOf_iff_prefix]

theorem after {s : State κ} (h : s.interp.Tracks paths) (op : ChildOp) :
    (ChildOp.after s op).interp.Tracks (op.effectIfAccepted paths) := by
  unfold ChildOp.effectIfAccepted
  split
  · rename_i haccepted
    obtain ⟨j, hj⟩ := (h.accepted_iff op).2 haccepted
    rw [ChildOp.after_of_ok hj]
    exact (h.apply hj).2
  · rename_i haccepted
    have hfails : ¬ op.Succeeds s := fun hop =>
      haccepted ((h.accepted_iff op).1 (ChildOp.succeeds_iff.1 hop))
    rw [ChildOp.after_of_not_succeeds hfails]
    exact h

theorem foldl {s : State κ} (h : s.interp.Tracks paths) (ops : List ChildOp) :
    (ops.foldl ChildOp.after s).interp.Tracks (ops.foldl ChildOp.effectIfAccepted paths) := by
  induction ops generalizing s paths with
  | nil => exact h
  | cons op ops ih => exact ih (h.after op)

end Tracks

/-- The tree is to be seen as a set of paths: with a path all on the way to it are in the set, an
interpreter is found just at the paths of the set, and each lists its children in order, so that
halving the list finds a child just if there is one. -/
structure Refines (i : Interp κ) (paths : List ChildPath) : Prop where
  closed : ∀ p q, p <+: q → q ∈ paths → p ∈ paths
  found : ∀ p, (i.child? p).isSome = true ↔ p ∈ paths
  increasing : ∀ p c, i.child? p = some c → c.childNames.Pairwise (· < ·)
  names : ∀ p c, i.child? p = some c → ∀ name, name ∈ c.childNames ↔ p ++ [name] ∈ paths
  bisected : ∀ p c, i.child? p = some c → ∀ name,
    Table.bisect c.children name = i.child? (p ++ [name])

theorem child?_append_singleton {c : Interp κ} {p : ChildPath} (hc : i.child? p = some c)
    (name : String) : i.child? (p ++ [name]) = Table.get? c.children name := by
  rw [child?_append, hc, Option.bind_some, child?]
  cases Table.get? c.children name <;> rfl

theorem Tracks.refines (h : i.Tracks paths) : i.Refines paths where
  closed p q hpre hq := (h.found p).1 (child?_above hpre ((h.found q).2 hq))
  found := h.found
  increasing _ _ hc := (h.sorted.child? hc).here
  names p c hc name := by
    rw [← h.found, child?_append_singleton hc, ← Bool.not_eq_false, ← Table.contains,
      Table.contains_eq_false_iff, Classical.not_not]
    rfl
  bisected p c hc name := by
    rw [child?_append_singleton hc, (h.sorted.child? hc).here.bisect_eq]

/-- After any operations on the children of a new interpreter, its tree is to be seen as the set of
paths that the operations lead to. A child is created just if its path is new and that of its parent
is there, and deleted, with all below it, just if its path is there; else nothing changes. And
whatever is done to a child or in one, nothing changes but at its path and below, and in the list
of its parent where it is created or deleted. -/
theorem children_refine_paths (registry : Registry κ) (safe : Bool) (world : World)
    (ops : List ChildOp) :
    let s : State κ := ops.foldl ChildOp.after { interp := .create registry safe, world }
    let paths := ChildOp.pathsAfter ops
    s.interp.Refines paths ∧
    (∀ path safe, (ChildOp.create path safe).Succeeds s ↔
      path ≠ [] ∧ path.dropLast ∈ paths ∧ path ∉ paths) ∧
    (∀ path, (ChildOp.delete path).Succeeds s ↔ path ≠ [] ∧ path ∈ paths) ∧
    (∀ op : ChildOp, op.Succeeds s → (ChildOp.after s op).interp.Refines (op.effect paths) ∧
      s.interp.SameBut op.path (· = op.path.dropLast) (ChildOp.after s op).interp) ∧
    (∀ op : ChildOp, ¬ op.Succeeds s → ChildOp.after s op = s) ∧
    ∀ (α : Type) (path : ChildPath) (act : Act κ α),
      s.interp.SameBut path (fun _ => False) (Action.reached (Act.inChild path act s)).interp := by
  intro s paths
  have h : s.interp.Tracks paths :=
    Tracks.foldl (s := { interp := .create registry safe, world }) (.create registry safe) ops
  refine ⟨h.refines, fun path safe => ?_, fun path => ?_, fun op hop => ?_,
    fun op => ChildOp.after_of_not_succeeds, fun α path act => ?_⟩
  · exact ChildOp.succeeds_iff.trans (h.accepted_iff (.create path safe))
  · exact ChildOp.succeeds_iff.trans (h.accepted_iff (.delete path))
  · obtain ⟨j, hj⟩ := ChildOp.succeeds_iff.1 hop
    rw [ChildOp.after_of_ok hj]
    exact ⟨(h.apply hj).2.refines, (h.apply hj).1⟩
  · unfold Act.inChild
    split
    · exact .refl path _ _
    · rename_i child hchild
      split <;> exact .modifyChild hchild _

example : ChildOp.pathsAfter
    [.create ["b"] false, .create ["a", "c"] true, .create ["b", "c"] true, .create ["a"] false,
      .delete ["b"]] = [["a"], []] := by decide

end Interp

end CommandScript
