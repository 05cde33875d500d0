import CommandScript.Proofs.Environment.Edit

/-!
# Slots and what they share

A frame that shares the variables of a namespace keeps none of its own, so two slots can be one and
the same table. `Environment.home` tells which. A change of the variables in a slot is seen in
every slot with the same home and in no other (`Environment.scope_modifyScope`), and it changes
nothing else that names depend on: not the frames and what they are, nor the paths of namespaces.
-/

namespace CommandScript

/-! ## Frames -/

namespace Stack

theorem frame?_of_le {s : Stack} {depth : Nat} (h : depth ≤ s.depth) :
    s.frame? depth = some (s.frame depth) := by
  cases hframe : s.frame? depth with
  | some f => rw [frame_eq_of_frame? hframe]
  | none =>
    unfold frame? at hframe
    rw [if_pos h, List.getElem?_eq_none_iff] at hframe
    simp only [toList, List.length_cons, Stack.depth] at hframe
    omega

theorem frame_modify {s : Stack} {depth depth' : Nat} (h : depth' ≤ s.depth) (f : Frame → Frame) :
    (s.modify depth f).frame depth' =
      if depth' = depth then f (s.frame depth') else s.frame depth' := by
  have hframe := frame?_modify s depth f depth'
  rw [frame?_of_le h] at hframe
  rw [frame, hframe]
  split <;> rfl

theorem frame_shape {s t : Stack} (h : t.shape = s.shape) {depth : Nat} (hdepth : depth ≤ s.depth) :
    (t.frame depth).shape = (s.frame depth).shape := by
  have heq := depth_of_shape h
  have hs := frame?_of_le hdepth
  have ht : t.frame? depth = some (t.frame depth) := frame?_of_le (by omega)
  unfold frame? at hs ht
  rw [if_pos (by omega)] at hs ht
  have hget : t.shape[t.depth - depth]? = s.shape[s.depth - depth]? := by rw [h, heq]
  unfold shape at hget
  rw [List.getElem?_map, List.getElem?_map, hs, ht] at hget
  exact Option.some.inj hget

end Stack

/-! ## Namespaces -/

namespace NamespaceTree

variable {κ : Type}

theorem getD_filledTo (t : NamespaceTree κ) (id i : NamespaceId) :
    (t.filledTo id).getD i .absent = t.node i := by
  unfold filledTo node
  rw [List.getD_eq_getElem?_getD, List.getD_eq_getElem?_getD]
  rcases Nat.lt_or_ge i t.nodes.length with hi | hi
  · rw [List.getElem?_append_left hi]
  · rw [List.getElem?_append_right hi, List.getElem?_eq_none hi, List.getElem?_replicate]
    split <;> rfl

theorem node_update (t : NamespaceTree κ) (id : NamespaceId) (f : Namespace κ → Namespace κ)
    (i : NamespaceId) :
    (t.update id f).node i = if i = id then f (t.node i) else t.node i := by
  have hfilled := t.getD_filledTo id i
  unfold node at hfilled ⊢
  unfold update
  rw [← hfilled, List.getD_eq_getElem?_getD, List.getD_eq_getElem?_getD, List.getElem?_modify]
  split
  · rename_i h
    subst h
    have hlength : id < (t.filledTo id).length := by
      have hfits : ∀ m n : Nat, n < m + (n + 1 - m) := fun m n => by omega
      rw [filledTo, List.length_append, List.length_replicate]
      exact hfits _ _
    rw [List.getElem?_eq_getElem hlength, if_pos rfl]
    rfl
  · rename_i h
    rw [if_neg fun heq => h heq.symm]
    simp

/-- A field that an update leaves as it is. -/
theorem field_update {α : Type} {t : NamespaceTree κ} (field : Namespace κ → α)
    (id i : NamespaceId) {f : Namespace κ → Namespace κ} (hf : ∀ n, field (f n) = field n) :
    field ((t.update id f).node i) = field (t.node i) := by
  rw [node_update]
  split
  · exact hf _
  · rfl

/-- The paths of namespaces depend on nothing but their children. -/
theorem find_of_children {t t' : NamespaceTree κ}
    (h : ∀ id, (t'.node id).children = (t.node id).children) (start : NamespaceId)
    (path : String) : t'.find start path = t.find start path := by
  have hwalk : ∀ id names, t'.walk id names = t.walk id names := by
    intro id names
    induction names generalizing id with
    | nil => rfl
    | cons name rest ih => simp only [walk, child?, h, ih]
  simp only [find, hwalk]

end NamespaceTree

/-! ## Slots -/

/-- A slot that a stack of some depth has. -/
def Slot.Within (depth : Nat) : Slot → Prop
  | .frame d => d ≤ depth
  | .inNamespace _ => True

theorem Slot.within_frame {d depth : Nat} (h : d ≤ depth) : (Slot.frame d).Within depth := h

namespace Environment

variable {κ : Type} {env env' : Environment κ} {slot slot' : Slot}

/-- The slot that holds the variables of a slot. -/
def home (env : Environment κ) : Slot → Slot
  | .frame depth =>
    match (env.stack.frame depth).shape.shared with
    | none => .frame depth
    | some id => .inNamespace id
  | .inNamespace id => .inNamespace id

theorem home_own {depth : Nat} {vars : Table Value}
    (h : (env.stack.frame depth).storage = .own vars) : env.home (.frame depth) = .frame depth := by
  simp [home, Frame.shape, h]

theorem home_shared {depth : Nat} {id : NamespaceId}
    (h : (env.stack.frame depth).storage = .shared id) :
    env.home (.frame depth) = .inNamespace id := by
  simp [home, Frame.shape, h]

/-- A frame is its own home, or shares the variables of a namespace. -/
theorem home_frame (env : Environment κ) (depth : Nat) :
    (∃ vars, (env.stack.frame depth).storage = .own vars ∧
      env.home (.frame depth) = .frame depth ∧ env.scope (.frame depth) = vars) ∨
    ∃ id, (env.stack.frame depth).storage = .shared id ∧
      env.home (.frame depth) = .inNamespace id ∧
        env.scope (.frame depth) = env.scope (.inNamespace id) := by
  cases h : (env.stack.frame depth).storage with
  | own vars => exact .inl ⟨vars, rfl, home_own h, by simp only [scope, h]⟩
  | shared id => exact .inr ⟨id, rfl, home_shared h, by simp only [scope, h]⟩

theorem scope_home (env : Environment κ) (slot : Slot) :
    env.scope (env.home slot) = env.scope slot := by
  cases slot with
  | frame depth =>
    rcases env.home_frame depth with ⟨_, _, hhome, _⟩ | ⟨_, _, hhome, hscope⟩
    · rw [hhome]
    · rw [hhome, hscope]
  | inNamespace id => rfl

theorem scope_eq_of_home (h : env.home slot = env.home slot') :
    env.scope slot = env.scope slot' := by
  rw [← scope_home env slot, h, scope_home]

theorem depth_of_shape (h : env'.stack.shape = env.stack.shape) : env'.depth = env.depth :=
  Stack.depth_of_shape h

/-! ## Changing the variables in a slot -/

section

variable (env) (slot) (f : Table Value → Table Value)

theorem shape_modifyScope : (env.modifyScope slot f).stack.shape = env.stack.shape :=
  stack_shape_modifyScope env slot f

theorem depth_modifyScope : (env.modifyScope slot f).depth = env.depth :=
  depth_of_shape (shape_modifyScope env slot f)

theorem scope_modifyNamespaceScope (id i : NamespaceId) :
    (env.modifyNamespaceScope id f).scope (.inNamespace i) =
      if i = id then f (env.scope (.inNamespace i)) else env.scope (.inNamespace i) := by
  unfold scope modifyNamespaceScope
  dsimp only
  rw [NamespaceTree.node_update]
  split <;> rfl

/-- Nothing of a namespace but its variables changes. -/
theorem node_modifyScope {α : Type} (field : Namespace κ → α)
    (hfield : ∀ n : Namespace κ, field { n with vars := f n.vars } = field n) (id : NamespaceId) :
    field ((env.modifyScope slot f).namespaces.node id) = field (env.namespaces.node id) := by
  have hnamespace : ∀ i, field ((env.modifyNamespaceScope i f).namespaces.node id) =
      field (env.namespaces.node id) :=
    fun i => NamespaceTree.field_update field i id hfield
  unfold modifyScope
  split
  · split
    · rfl
    · exact hnamespace _
  · exact hnamespace _

theorem find_modifyScope (start : NamespaceId) (path : String) :
    (env.modifyScope slot f).namespaces.find start path = env.namespaces.find start path :=
  NamespaceTree.find_of_children
    (node_modifyScope env slot f Namespace.children fun _ => rfl) start path

end

theorem namespaceId_modifyScope (env : Environment κ) (slot : Slot) (f : Table Value → Table Value)
    {depth : Nat} (h : depth ≤ env.depth) :
    ((env.modifyScope slot f).stack.frame depth).namespaceId =
      (env.stack.frame depth).namespaceId :=
  congrArg Frame.Shape.namespaceId (Stack.frame_shape (shape_modifyScope env slot f) h)

/-- A change of the variables in a slot is seen in the slots with the same home, and only there. -/
theorem scope_modifyScope (f : Table Value → Table Value) (hslot : slot.Within env.depth)
    (hslot' : slot'.Within env.depth) :
    (env.modifyScope slot f).scope slot' =
      if env.home slot' = env.home slot then f (env.scope slot) else env.scope slot' := by
  -- Whichever slot is changed, it is a frame's own table or that of a namespace.
  have hnamespace : ∀ id, (env.modifyNamespaceScope id f).scope slot' =
      if env.home slot' = .inNamespace id then f (env.scope (.inNamespace id))
        else env.scope slot' := by
    intro id
    cases slot' with
    | frame depth =>
      rcases env.home_frame depth with ⟨vars, hvars, hhome, hscope⟩ | ⟨i, hshared, hhome, hscope⟩
      · rw [hhome, if_neg fun h => by cases h]
        simp only [scope, modifyNamespaceScope, hvars]
      · have hsame : (env.modifyNamespaceScope id f).scope (.frame depth) =
            (env.modifyNamespaceScope id f).scope (.inNamespace i) := by
          simp only [scope, modifyNamespaceScope, hshared]
        rw [hsame, scope_modifyNamespaceScope, hhome, hscope]
        split
        · rename_i h; rw [h, if_pos rfl]
        · rename_i h; rw [if_neg fun heq => h (Slot.inNamespace.inj heq)]
    | inNamespace i =>
      rw [scope_modifyNamespaceScope]
      show _ = if Slot.inNamespace i = .inNamespace id then _ else _
      split
      · rename_i h; rw [h, if_pos rfl]
      · rename_i h; rw [if_neg fun heq => h (Slot.inNamespace.inj heq)]
  cases slot with
  | inNamespace id => exact hnamespace id
  | frame depth =>
    rcases env.home_frame depth with ⟨vars, hvars, hhome, hscope⟩ | ⟨id, hshared, hhome, hscope⟩
    · have hchange : env.modifyScope (.frame depth) f =
          { env with stack := env.stack.modify depth fun fr =>
                       { fr with storage := .own (f vars) } } := by
        simp only [modifyScope, hvars]
      rw [hhome, hscope, hchange]
      cases slot' with
      | frame depth' =>
        simp only [scope, Stack.frame_modify hslot']
        by_cases heq : depth' = depth
        · subst heq
          rw [if_pos rfl, if_pos hhome]
        · have hne : env.home (.frame depth') ≠ .frame depth := by
            rcases env.home_frame depth' with ⟨_, _, h, _⟩ | ⟨_, _, h, _⟩
            · rw [h]
              exact fun h => heq (Slot.frame.inj h)
            · rw [h]
              exact fun h => by cases h
          rw [if_neg heq, if_neg hne]
      | inNamespace id =>
        have hne : env.home (.inNamespace id) ≠ .frame depth := fun h => by cases h
        rw [if_neg hne]
        rfl
    · have hchange : env.modifyScope (.frame depth) f = env.modifyNamespaceScope id f := by
        simp only [modifyScope, hshared]
      rw [hchange, hhome, hscope]
      exact hnamespace id

/-- What a name means in a slot after an assignment. -/
theorem get?_assign {key key' : String} (w : Value) (hslot : slot.Within env.depth)
    (hslot' : slot'.Within env.depth) :
    ((env.assign slot key w).scope slot').get? key' =
      if env.home slot' = env.home slot ∧ key' = key then some w
        else (env.scope slot').get? key' := by
  unfold assign
  rw [scope_modifyScope _ hslot hslot']
  by_cases hhome : env.home slot' = env.home slot
  · rw [if_pos hhome]
    by_cases hkey : key' = key
    · rw [if_pos ⟨hhome, hkey⟩, hkey, Table.get?_insert_self]
    · rw [if_neg fun h => hkey h.2, Table.get?_insert_of_ne _ (Ne.symm hkey),
        scope_eq_of_home hhome]
  · rw [if_neg hhome, if_neg fun h => hhome h.1]

/-! ## Owners -/

/-- The owner of a name is the nearest frame that has it. -/
theorem owner?_eq_some_iff {name : String} {depth e : Nat} :
    env.owner? name depth = some e ↔
      e ≤ depth ∧ (env.scope (.frame e)).contains name = true ∧
        ∀ d, e < d → d ≤ depth → (env.scope (.frame d)).contains name = false := by
  induction depth with
  | zero =>
    unfold owner?
    split
    · rename_i hcontains
      constructor
      · rintro ⟨⟩
        exact ⟨Nat.le_refl 0, hcontains, fun d _ _ => by omega⟩
      · rintro ⟨he, _, _⟩
        rw [Nat.le_zero.1 he]
    · rename_i hnot
      constructor
      · intro h
        cases h
      · rintro ⟨he, hcontains, _⟩
        rw [Nat.le_zero.1 he] at hcontains
        exact absurd hcontains hnot
  | succ depth ih =>
    unfold owner?
    split
    · rename_i hcontains
      constructor
      · rintro ⟨⟩
        exact ⟨Nat.le_refl _, hcontains, fun d _ _ => by omega⟩
      · rintro ⟨he, _, hnearest⟩
        rcases Nat.lt_or_ge e (depth + 1) with hlt | hge
        · rw [hnearest _ hlt (Nat.le_refl _)] at hcontains
          cases hcontains
        · rw [Nat.le_antisymm he hge]
    · rename_i hnot
      rw [ih]
      constructor
      · rintro ⟨he, hcontains, hnearest⟩
        refine ⟨Nat.le_succ_of_le he, hcontains, fun d hd hle => ?_⟩
        rcases Nat.lt_or_ge depth d with hlt | hge
        · rw [Nat.le_antisymm hle hlt]
          exact Bool.eq_false_iff.2 hnot
        · exact hnearest d hd hge
      · rintro ⟨he, hcontains, hnearest⟩
        have hne : e ≠ depth + 1 := fun heq => hnot (heq ▸ hcontains)
        exact ⟨by omega, hcontains, fun d hd hle => hnearest d hd (Nat.le_succ_of_le hle)⟩

theorem not_contains_of_owner?_none {name : String} {depth e : Nat}
    (h : env.owner? name depth = none) (he : e ≤ depth) :
    (env.scope (.frame e)).contains name = false := by
  induction depth with
  | zero =>
    unfold owner? at h
    split at h
    · cases h
    · rename_i hnot
      rw [Nat.le_zero.1 he]
      exact Bool.eq_false_iff.2 hnot
  | succ depth ih =>
    unfold owner? at h
    split at h
    · cases h
    · rename_i hnot
      rcases Nat.lt_or_ge depth e with hlt | hge
      · rw [Nat.le_antisymm he hlt]
        exact Bool.eq_false_iff.2 hnot
      · exact ih h hge

/-- A name that means a variable of a frame is a plain one: the frame is its owner, or the frame
from which it is seen if it has none. -/
theorem owner?_of_slotOf? {name key : String} {depth d : Nat}
    (h : env.slotOf? name depth = some (.frame d, key)) :
    (Name.splitQualified name).1 = none ∧ key = name ∧
      (env.owner? name depth = some d ∨ env.owner? name depth = none ∧ d = depth) := by
  unfold slotOf? at h
  split at h
  · split at h
    · cases h
    · obtain ⟨id, _, hid⟩ := Option.map_eq_some_iff.1 h
      cases hid
  · rename_i hsplit
    rw [hsplit]
    cases howner : env.owner? name depth with
    | none => rw [howner] at h; cases h; exact ⟨rfl, rfl, .inr ⟨rfl, rfl⟩⟩
    | some e => rw [howner] at h; cases h; exact ⟨rfl, rfl, .inl rfl⟩

theorem slotOf?_plain {name : String} (hplain : (Name.splitQualified name).1 = none) (depth : Nat) :
    env.slotOf? name depth = some (.frame ((env.owner? name depth).getD depth), name) := by
  unfold slotOf?
  split
  · rename_i hsplit
    rw [hsplit] at hplain
    cases hplain
  · rfl

end Environment

end CommandScript
