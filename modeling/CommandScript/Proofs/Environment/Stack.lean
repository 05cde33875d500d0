import CommandScript.Frame

/-!
# Stacks of frames

The frames of a stack by depth, and their shapes: what a frame is, whatever its variables hold and
whatever runs in it.

* `Stack.shape_pop`, `Stack.shape_putBack_above`: a stack has its shape again after a frame was
  entered and left, and after it was cut down to a level and built up again.
* `Stack.frame?_modify`: a change in one frame leaves the others as they are.
-/

namespace CommandScript

/-! ## Shapes of frames -/

/-- What a frame is, whatever its variables hold and whatever runs in it. -/
structure Frame.Shape where
  /-- The namespace whose variables the frame has, if it has none of its own. -/
  shared : Option NamespaceId
  namespaceId : NamespaceId
  invocation : List Value

def Frame.shape (f : Frame) : Frame.Shape where
  shared :=
    match f.storage with
    | .own _ => none
    | .shared id => some id
  namespaceId := f.namespaceId
  invocation := f.invocation

namespace Stack

/-- The shapes of the frames, top first. -/
def shape (s : Stack) : List Frame.Shape := s.toList.map Frame.shape

theorem shape_modifyTop (s : Stack) {f : Frame → Frame} (h : (f s.top).shape = s.top.shape) :
    (s.modifyTop f).shape = s.shape := by
  simp [shape, toList, modifyTop, h]

theorem shape_modify (s : Stack) (depth : Nat) {f : Frame → Frame}
    (h : (f (s.frame depth)).shape = (s.frame depth).shape) :
    (s.modify depth f).shape = s.shape := by
  unfold modify
  split
  · rename_i hlt
    have hindex : s.depth - depth = s.depth - 1 - depth + 1 := by omega
    have hframe : ∀ fr, s.below[s.depth - 1 - depth]? = some fr → s.frame depth = fr := by
      intro fr hfr
      simp [frame, frame?, Nat.le_of_lt hlt, toList, hindex, hfr]
    have hbelow : (s.below.modify (s.depth - 1 - depth) f).map Frame.shape =
        s.below.map Frame.shape := by
      apply List.ext_getElem?
      intro n
      by_cases hn : s.depth - 1 - depth = n
      · subst hn
        cases hfr : s.below[s.depth - 1 - depth]? with
        | none => simp [hfr]
        | some fr => rw [hframe fr hfr] at h; simp [hfr, h]
      · simp [hn]
    simp [shape, toList, hbelow]
  · split
    · rename_i heq
      refine shape_modifyTop s ?_
      rwa [heq, show s.frame s.depth = s.top by simp [frame, frame?, toList]] at h
    · rfl

theorem length_shape (s : Stack) : s.shape.length = s.depth + 1 := by
  simp [shape, toList, depth]

theorem shape_pop {s t : Stack} {f : Frame} (h : t.shape = (s.push f).shape) :
    t.pop.shape = s.shape := by
  obtain ⟨top, below⟩ := t
  have hbelow : below.map Frame.shape = s.shape := (List.cons.inj h).2
  cases below with
  | nil => cases hbelow
  | cons g rest => exact hbelow

theorem toList_upTo {s : Stack} {level : Nat} (h : level ≤ s.depth) :
    (s.upTo level).toList = s.toList.drop (s.depth - level) := by
  unfold upTo
  split
  · rename_i f rest hdrop
    exact hdrop.symm
  · rename_i hdrop
    have hlength := congrArg List.length hdrop
    simp only [List.length_drop, toList, List.length_cons, List.length_nil,
      Stack.depth] at hlength h
    omega

theorem shape_upTo {s : Stack} {level : Nat} (h : level ≤ s.depth) :
    (s.upTo level).shape = s.shape.drop (s.depth - level) := by
  unfold shape
  rw [toList_upTo h, List.map_drop]

/-- A stack is left as it is by cutting it down to its own depth. -/
theorem upTo_depth (s : Stack) : s.upTo s.depth = s := by
  simp [upTo, toList]

theorem toList_putBack (frames : List Frame) (s : Stack) :
    (putBack frames s).toList = frames ++ s.toList := by
  induction frames with
  | nil => rfl
  | cons f rest ih =>
    show f :: (putBack rest s).toList = _
    rw [ih]
    rfl

theorem shape_putBack (frames : List Frame) (s : Stack) :
    (putBack frames s).shape = frames.map Frame.shape ++ s.shape := by
  unfold shape
  rw [toList_putBack, List.map_append]

theorem depth_of_shape {s t : Stack} (h : t.shape = s.shape) : t.depth = s.depth := by
  have hlength := congrArg List.length h
  rw [length_shape, length_shape] at hlength
  omega

theorem depth_upTo {s : Stack} {level : Nat} (h : level ≤ s.depth) :
    (s.upTo level).depth = level := by
  have hlength := length_shape (s.upTo level)
  rw [shape_upTo h, List.length_drop, length_shape] at hlength
  omega

/-- What has the shape of a stack cut down to a level reaches no further. -/
theorem upTo_of_shape {s t : Stack} {level : Nat} (h : level ≤ s.depth)
    (hshape : t.shape = (s.upTo level).shape) : t.upTo level = t := by
  have hdepth : t.depth = level := (depth_of_shape hshape).trans (depth_upTo h)
  exact hdepth ▸ upTo_depth t

theorem shape_putBack_above {s t : Stack} {level : Nat} (h : level ≤ s.depth)
    (hshape : t.shape = (s.upTo level).shape) : (putBack (s.above level) t).shape = s.shape := by
  rw [shape_putBack, hshape, shape_upTo h]
  unfold above shape
  rw [List.map_take, List.take_append_drop]

theorem isOwn_top_of_shape {s t : Stack} (h : t.shape = s.shape) :
    t.top.isOwn = s.top.isOwn := by
  have htop : t.top.shape.shared = s.top.shape.shared :=
    congrArg Frame.Shape.shared (List.cons.inj h).1
  unfold Frame.shape at htop
  unfold Frame.isOwn
  cases ht : t.top.storage <;> cases hs : s.top.storage <;> simp_all

end Stack

/-! ## Frames by depth -/

namespace Stack

theorem frame?_depth (s : Stack) : s.frame? s.depth = some s.top := by
  simp [frame?, toList]

theorem frame_eq_of_frame? {s : Stack} {depth : Nat} {f : Frame} (h : s.frame? depth = some f) :
    s.frame depth = f := by
  rw [frame, h, Option.getD_some]

theorem le_depth_of_frame? {s : Stack} {depth : Nat} {f : Frame} (h : s.frame? depth = some f) :
    depth ≤ s.depth := by
  unfold frame? at h
  split at h
  · assumption
  · cases h

theorem frame?_push (s : Stack) (f : Frame) (depth : Nat) :
    (s.push f).frame? depth = if depth = s.depth + 1 then some f else s.frame? depth := by
  have hdepth : (s.push f).depth = s.depth + 1 := by simp [push, Stack.depth, toList]
  unfold frame?
  rw [hdepth]
  by_cases hlast : depth = s.depth + 1
  · simp [hlast, push, toList]
  · by_cases hle : depth ≤ s.depth
    · have hindex : s.depth + 1 - depth = s.depth - depth + 1 := by omega
      rw [if_pos (by omega), if_neg hlast, if_pos hle, hindex]
      rfl
    · rw [if_neg (by omega), if_neg hlast, if_neg hle]

theorem frame?_of_pop {s : Stack} {depth : Nat} {f : Frame} (h : s.pop.frame? depth = some f) :
    s.frame? depth = some f := by
  obtain ⟨top, below⟩ := s
  cases below with
  | nil => exact h
  | cons g rest =>
    have hle := le_depth_of_frame? h
    have hpushed := frame?_push (pop ⟨top, g :: rest⟩) top depth
    rw [if_neg (by omega), h] at hpushed
    exact hpushed

theorem frame?_modifyTop (s : Stack) (f : Frame → Frame) (depth : Nat) :
    (s.modifyTop f).frame? depth = if depth = s.depth then some (f s.top) else s.frame? depth := by
  have hdepth : (s.modifyTop f).depth = s.depth := rfl
  unfold frame?
  rw [hdepth]
  by_cases hlast : depth = s.depth
  · simp [hlast, modifyTop, toList]
  · by_cases hle : depth ≤ s.depth
    · have hindex : s.depth - depth = s.depth - depth - 1 + 1 := by omega
      rw [if_pos hle, if_neg hlast, if_pos hle, hindex]
      rfl
    · rw [if_neg hle, if_neg hlast, if_neg hle]

theorem toList_modify {s : Stack} {depth : Nat} (f : Frame → Frame) (h : depth ≤ s.depth) :
    (s.modify depth f).toList = s.toList.modify (s.depth - depth) f := by
  unfold modify
  split
  · have hindex : s.depth - depth = s.depth - 1 - depth + 1 := by omega
    rw [hindex]
    rfl
  · have heq : depth = s.depth := by omega
    rw [if_pos heq, heq, Nat.sub_self]
    rfl

theorem frame?_modify (s : Stack) (at' : Nat) (f : Frame → Frame) (depth : Nat) :
    (s.modify at' f).frame? depth =
      if depth = at' then (s.frame? depth).map f else s.frame? depth := by
  by_cases hat : at' ≤ s.depth
  · have hlength := congrArg List.length (toList_modify f hat)
    have hdepth : (s.modify at' f).depth = s.depth := by
      simpa [toList, Stack.depth] using hlength
    unfold frame?
    rw [hdepth, toList_modify f hat, List.getElem?_modify]
    by_cases hle : depth ≤ s.depth
    · rw [if_pos hle, if_pos hle]
      by_cases heq : depth = at'
      · simp [heq]
      · have hindex : s.depth - at' ≠ s.depth - depth := by omega
        simp [heq, hindex]
    · rw [if_neg hle, if_neg hle]
      simp
  · have hsame : s.modify at' f = s := by
      unfold modify
      rw [if_neg (by omega), if_neg (by omega)]
    rw [hsame]
    split
    · have hnone : s.frame? depth = none := by
        unfold frame?
        rw [if_neg (by omega)]
      rw [hnone]
      rfl
    · rfl

theorem frame?_upTo {s : Stack} {level : Nat} (h : level ≤ s.depth) (depth : Nat) :
    (s.upTo level).frame? depth = if depth ≤ level then s.frame? depth else none := by
  unfold frame?
  rw [depth_upTo h, toList_upTo h, List.getElem?_drop]
  by_cases hle : depth ≤ level
  · rw [if_pos hle, if_pos hle, if_pos (by omega)]
    congr 1
    omega
  · rw [if_neg hle, if_neg hle]

/-- The frames of a stack that was cut down to a level and built up again. -/
theorem frame?_putBack {s t : Stack} (h : t.depth ≤ s.depth) (depth : Nat) :
    (putBack (s.above t.depth) t).frame? depth =
      if depth ≤ t.depth then t.frame? depth else s.frame? depth := by
  have habove : (s.above t.depth).length = s.depth - t.depth := by
    simp only [above, List.length_take, toList, List.length_cons, Stack.depth]
    omega
  have hlength := congrArg List.length (toList_putBack (s.above t.depth) t)
  have hdepth : (putBack (s.above t.depth) t).depth = s.depth := by
    rw [List.length_append, habove] at hlength
    simp only [toList, List.length_cons, Stack.depth] at hlength h ⊢
    omega
  unfold frame?
  rw [hdepth, toList_putBack]
  by_cases hle : depth ≤ t.depth
  · rw [if_pos hle, if_pos hle, if_pos (by omega), List.getElem?_append_right (by omega), habove]
    congr 1
    omega
  · rw [if_neg hle]
    by_cases hs : depth ≤ s.depth
    · rw [if_pos hs, if_pos hs, List.getElem?_append_left (by omega)]
      unfold above
      rw [List.getElem?_take, if_pos (by omega)]
    · rw [if_neg hs, if_neg hs]

end Stack

end CommandScript
