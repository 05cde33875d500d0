import CommandScript.Environment.Variable

/-!
# What reading a variable depends on

The value that a name has depends on the namespaces and on where each frame keeps its variables and
looks up names, and on nothing else: not on the commands that run in the frames, nor on the scripts
deferred there.

* `Environment.SameVariables.read`: such environments agree on every variable.
-/

namespace CommandScript

theorem Stack.frame_modifyTop (s : Stack) (g : Frame → Frame) (depth : Nat) :
    (s.modifyTop g).frame depth = s.frame depth ∨
      (s.modifyTop g).frame depth = g s.top ∧ s.frame depth = s.top := by
  by_cases hdepth : depth < s.depth
  · obtain ⟨n, hn⟩ : ∃ n, s.depth - depth = n + 1 := ⟨s.depth - depth - 1, by omega⟩
    have hn' : (s.modifyTop g).depth - depth = n + 1 := hn
    have hle : depth ≤ (s.modifyTop g).depth := Nat.le_of_lt hdepth
    have hbelow : n < s.below.length := by
      have hlength : s.depth = s.below.length := rfl
      omega
    left
    simp only [frame, frame?, hn, hn', if_pos hle, if_pos (Nat.le_of_lt hdepth), toList,
      List.getElem?_cons_succ]
    show s.below[n]?.getD _ = s.below[n]?.getD _
    rw [List.getElem?_eq_getElem hbelow]
    rfl
  · right
    have hzero : s.depth - depth = 0 := by omega
    have hzero' : (s.modifyTop g).depth - depth = 0 := hzero
    constructor
    · simp only [frame, frame?, hzero', toList, List.getElem?_cons_zero]
      split <;> rfl
    · simp only [frame, frame?, hzero, toList, List.getElem?_cons_zero]
      split <;> rfl

namespace Environment

variable {κ : Type} {env env' : Environment κ}

/-- Two environments with the same variables. -/
structure SameVariables (env env' : Environment κ) : Prop where
  namespaces : env'.namespaces = env.namespaces
  depth : env'.depth = env.depth
  storage : ∀ d, (env'.stack.frame d).storage = (env.stack.frame d).storage
  namespaceId : ∀ d, (env'.stack.frame d).namespaceId = (env.stack.frame d).namespaceId

namespace SameVariables

theorem scope (h : SameVariables env env') (slot : Slot) : env'.scope slot = env.scope slot := by
  cases slot with
  | frame d => simp only [Environment.scope, h.storage, h.namespaces]
  | inNamespace id => simp only [Environment.scope, h.namespaces]

theorem owner? (h : SameVariables env env') (name : String) (d : Nat) :
    env'.owner? name d = env.owner? name d := by
  induction d with
  | zero => simp only [Environment.owner?, h.scope]
  | succ d ih => simp only [Environment.owner?, h.scope, ih]

theorem slotOf? (h : SameVariables env env') (name : String) (d : Nat) :
    env'.slotOf? name d = env.slotOf? name d := by
  simp only [Environment.slotOf?, h.owner?, h.namespaces, h.namespaceId]

theorem locateWithin (h : SameVariables env env') (whole : String) (hops : Nat) (name : String)
    (index : Option String) (d : Nat) :
    env'.locateWithin whole hops name index d = env.locateWithin whole hops name index d := by
  induction hops generalizing name index d with
  | zero => rfl
  | succ hops ih => simp only [Environment.locateWithin, h.slotOf?, h.scope, h.depth, ih]

theorem read (h : SameVariables env env') (name : String) : env'.read name = env.read name := by
  simp only [Environment.read, Environment.locate, held?, h.locateWithin, h.depth, h.scope]

theorem withCommand (env : Environment κ) (words : List Value) :
    SameVariables env
      { env with stack := env.stack.modifyTop fun f => { f with command := words } } where
  namespaces := rfl
  depth := rfl
  storage d := by
    rcases env.stack.frame_modifyTop (fun f => { f with command := words }) d with h | ⟨h, h'⟩
    · rw [h]
    · rw [h, h']
  namespaceId d := by
    rcases env.stack.frame_modifyTop (fun f => { f with command := words }) d with h | ⟨h, h'⟩
    · rw [h]
    · rw [h, h']

end SameVariables

end Environment

end CommandScript
