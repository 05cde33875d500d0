import CommandScript.Procedure

/-!
# Frames

A frame is an activation: the global one at the bottom of the stack, a call of a procedure, or the
evaluation of a script in a namespace. Frames are known by their depth, counted from the bottom.
-/

namespace CommandScript

/-- Where a frame keeps its variables. -/
inductive Storage where
  /-- A procedure's own variables. -/
  | own (vars : Table Value)
  /-- The variables of a namespace. -/
  | shared (id : NamespaceId)
  deriving Inhabited

structure Frame where
  storage : Storage
  /-- The namespace in which commands are looked up. -/
  namespaceId : NamespaceId
  /-- The words of the command that made the frame. -/
  invocation : List Value := []
  /-- The words of the command now running in the frame. -/
  command : List Value := []
  /-- Scripts to run before the frame goes, in this order. -/
  deferred : List Value := []
  deriving Inhabited

namespace Frame

/-- The frame at the bottom. -/
def bottom (root : NamespaceId) : Frame := { storage := .shared root, namespaceId := root }

def isOwn (f : Frame) : Bool :=
  match f.storage with
  | .own _ => true
  | .shared _ => false

end Frame

/-- A row of frames that is never empty, top first. -/
structure Stack where
  top : Frame
  below : List Frame := []
  deriving Inhabited

namespace Stack

/-- The depth of the top frame. -/
def depth (s : Stack) : Nat := s.below.length

def toList (s : Stack) : List Frame := s.top :: s.below

def push (s : Stack) (f : Frame) : Stack := { top := f, below := s.toList }

/-- Drops the top frame; the last frame stays. -/
def pop (s : Stack) : Stack :=
  match s.below with
  | [] => s
  | f :: rest => { top := f, below := rest }

def modifyTop (s : Stack) (f : Frame → Frame) : Stack := { s with top := f s.top }

/-- The frame at a depth. -/
def frame? (s : Stack) (depth : Nat) : Option Frame :=
  if depth ≤ s.depth then s.toList[s.depth - depth]? else none

/-- The frame at a depth, or the top one if there is none. -/
def frame (s : Stack) (depth : Nat) : Frame := (s.frame? depth).getD s.top

/-- The words of the command that made the frame at a depth; of the global frame, those of the
command now running there. -/
def levelCommand? (s : Stack) (depth : Nat) : Option Value :=
  (s.frame? depth).map fun f => .list (if depth = 0 then f.command else f.invocation)

/-- Changes the frame at a depth. -/
def modify (s : Stack) (depth : Nat) (f : Frame → Frame) : Stack :=
  if depth < s.depth then { s with below := s.below.modify (s.depth - 1 - depth) f }
  else if depth = s.depth then s.modifyTop f
  else s

/-- The frames above a depth, top first. -/
def above (s : Stack) (depth : Nat) : List Frame := s.toList.take (s.depth - depth)

/-- The stack without the frames above a depth. -/
def upTo (s : Stack) (depth : Nat) : Stack :=
  match s.toList.drop (s.depth - depth) with
  | f :: rest => { top := f, below := rest }
  | [] => s

/-- Puts frames back on top. -/
def putBack (frames : List Frame) (s : Stack) : Stack := frames.foldr (fun f s => s.push f) s

end Stack

end CommandScript
