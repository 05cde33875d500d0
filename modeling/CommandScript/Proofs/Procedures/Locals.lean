import CommandScript.Proofs.Environment.Arrays
import CommandScript.Proofs.Environment.Listing
import CommandScript.Proofs.Application
import CommandScript.Proofs.Procedures.Calls

/-!
# Local variables

A plain name that no frame of the caller has means a variable of the procedure's own frame, whether
it exists there or not, as long as no links stand in that frame (`Environment.locate_entered`). So
whatever is done to such names, in whichever order and whether it succeeds or not, changes nothing
but the variables of the frame on top (`Environment.Inside`), and these go with the frame.

* `Application.makes_run`: what operations on such names make of an environment.
* `Engine.locals_vanish`: once the frame has gone, all is as it was before it came.
-/

namespace CommandScript

open CommandScript.Action (Outcome bind_ok bind_error)

/-! ## Names of the caller -/

namespace Environment

variable {κ : Type} {env : Environment κ} {name : String}

/-- A plain variable, or an element of one, that no frame has. -/
structure Unbound (env : Environment κ) (name : String) : Prop where
  plain : Name.Plain (Name.splitIndex name).1
  nowhere : ∀ d ≤ env.depth, (env.scope (.frame d)).contains (Name.splitIndex name).1 = false

instance (env : Environment κ) (name : String) : Decidable (env.Unbound name) :=
  decidable_of_iff (Name.Plain (Name.splitIndex name).1 ∧
      ∀ d ≤ env.depth, (env.scope (.frame d)).contains (Name.splitIndex name).1 = false)
    ⟨fun h => ⟨h.1, h.2⟩, fun h => ⟨h.plain, h.nowhere⟩⟩

/-- A plain name that no frame below the top has is looked up in the top frame. -/
theorem locate_top (hplain : Name.Plain (Name.splitIndex name).1)
    (hbelow : ∀ d < env.depth, (env.scope (.frame d)).contains (Name.splitIndex name).1 = false)
    (hlink : ∀ target depth,
      (env.scope (.frame env.depth)).get? (Name.splitIndex name).1 ≠ some (.link target depth)) :
    env.locate name =
      .ok ⟨.frame env.depth, (Name.splitIndex name).1, (Name.splitIndex name).2⟩ := by
  -- Whether the top frame has the variable or would get it, it is the one that is meant.
  have howner : (env.owner? (Name.splitIndex name).1 env.depth).getD env.depth = env.depth := by
    cases howner : env.owner? (Name.splitIndex name).1 env.depth with
    | none => rfl
    | some e =>
      obtain ⟨hle, hcontains, _⟩ := owner?_eq_some_iff.1 howner
      rcases Nat.lt_or_eq_of_le hle with hlt | rfl
      · rw [hbelow e hlt] at hcontains
        cases hcontains
      · rfl
  have hslot : env.slotOf? (Lead.ofName name env.depth).name (Lead.ofName name env.depth).depth =
      some (.frame env.depth, (Name.splitIndex name).1) := by
    refine (slotOf?_plain (congrArg Prod.fst (Name.splitQualified_of_plain hplain)) _).trans ?_
    exact congrArg (fun d => some (Slot.frame d, (Name.splitIndex name).1)) howner
  rcases turn_of_slotOf? hslot with ⟨target, depth, hget, _⟩ | ⟨_, hplace⟩
  · exact absurd hget (hlink target depth)
  · rw [locate_eq_search,
      (Follows.refl _).search_end (by rw [hplace]; rfl) name (by decide : 0 < maxLinks), hplace]
    rfl

namespace Unbound

theorem element (h : env.Unbound name) (hname : Name.Indexable name) (key : String) :
    env.Unbound (Name.element name key) := by
  have hbase : (Name.splitIndex (Name.element name key)).1 = (Name.splitIndex name).1 := by
    rw [hname.splitIndex_element, hname.splitIndex]
  exact ⟨hbase ▸ h.plain, hbase ▸ h.nowhere⟩

theorem read (h : env.Unbound name) : env.read name = .error (.noVariable .read name) := by
  have hnone : (env.scope (.frame env.depth)).get? (Name.splitIndex name).1 = none :=
    Table.get?_eq_none_iff.2 (Table.contains_eq_false_iff.1 (h.nowhere _ (Nat.le_refl _)))
  have hl := locate_top h.plain (fun d hd => h.nowhere d (Nat.le_of_lt hd))
    fun target depth hlink => by rw [hnone] at hlink; cases hlink
  have hheld : env.held? ⟨.frame env.depth, (Name.splitIndex name).1, (Name.splitIndex name).2⟩ =
      none := hnone
  rw [Environment.read, hl]
  simp only [bind, Except.bind, hheld]

end Unbound

end Environment

/-! ## A procedure's own frame -/

theorem Stack.modify_depth (s : Stack) (f : Frame → Frame) :
    s.modify s.depth f = s.modifyTop f := by
  simp [modify]

namespace Table

variable {t : Table Value} {name : String}

/-- No entry is a link. -/
def Linkless (t : Table Value) : Prop := ∀ e ∈ t, ∀ target depth, e.2 ≠ .link target depth

namespace Linkless

theorem get?_ne (h : Linkless t) (name target : String) (depth : Nat) :
    t.get? name ≠ some (.link target depth) :=
  fun hget => h _ (mem_of_get? hget) target depth rfl

theorem insert (h : Linkless t) {v : Value} (hv : ∀ target depth, v ≠ .link target depth) :
    Linkless (t.insert name v) := by
  intro e he
  rcases mem_insert he with he | rfl
  · exact h e he
  · exact hv

theorem erase (h : Linkless t) : Linkless (t.erase name) := fun e he => h e (mem_of_mem_erase he)

end Linkless

end Table

namespace Environment

variable {κ : Type} {env env' after : Environment κ} {frame : Frame} {vars : Table Value}
  {name : String} {v : Value}

/-- The environment with a frame on top that has these variables for its own. -/
def entered (env : Environment κ) (frame : Frame) (vars : Table Value) : Environment κ :=
  env.pushed { frame with storage := .own vars }

theorem frame_entered : (env.entered frame vars).stack.frame (env.depth + 1) =
    { frame with storage := .own vars } :=
  Stack.frame_eq_of_frame? (Stack.frame?_depth (env.entered frame vars).stack)

theorem scope_entered_top : (env.entered frame vars).scope (.frame (env.depth + 1)) = vars := by
  simp only [scope, frame_entered]

theorem scope_entered_below {d : Nat} (hd : d ≤ env.depth) :
    (env.entered frame vars).scope (.frame d) = env.scope (.frame d) := by
  have hle : env.depth ≤ (env.entered frame vars).depth := Nat.le_succ env.depth
  have hscope := scope_atLevel hle (Slot.within_frame hd)
  rw [entered, atLevel_pushed] at hscope
  exact hscope.symm

theorem modifyScope_entered (f : Table Value → Table Value) :
    (env.entered frame vars).modifyScope (.frame (env.depth + 1)) f =
      env.entered frame (f vars) := by
  simp only [modifyScope, frame_entered]
  exact congrArg (fun stack => { env with stack }) (Stack.modify_depth _ _)

/-- A name that the caller does not have is looked up in the frame on top. -/
theorem locate_entered (hname : env.Unbound name) (hvars : vars.Linkless) :
    (env.entered frame vars).locate name =
      .ok ⟨.frame (env.depth + 1), (Name.splitIndex name).1, (Name.splitIndex name).2⟩ := by
  refine locate_top hname.plain (fun d hd => ?_) fun target depth => ?_
  · have hd : d ≤ env.depth := Nat.le_of_lt_succ hd
    rw [scope_entered_below hd]
    exact hname.nowhere d hd
  · have hscope : (env.entered frame vars).scope (.frame (env.entered frame vars).depth) = vars :=
      scope_entered_top
    rw [hscope]
    exact hvars.get?_ne _ target depth

/-! ## What stays inside a frame -/

/-- An environment is this one with a frame on top, and the frame has no links. -/
def Inside (env : Environment κ) (frame : Frame) (env' : Environment κ) : Prop :=
  ∃ vars : Table Value, vars.Linkless ∧ env' = env.entered frame vars

namespace Inside

theorem set (h : env.Inside frame env') (hname : env.Unbound name)
    (hv : ∀ target depth, v ≠ .link target depth) (hset : env'.set name v = .ok after) :
    env.Inside frame after := by
  obtain ⟨vars, hvars, rfl⟩ := h
  obtain ⟨l, w, hl, hstores, rfl⟩ := exists_of_set hset
  rw [locate_entered hname hvars] at hl
  cases hl
  exact ⟨_, hvars.insert (hstores.ne_link hv), modifyScope_entered _⟩

theorem unset (h : env.Inside frame env') (hname : env.Unbound name)
    (hunset : env'.unset name = .ok after) : env.Inside frame after := by
  obtain ⟨vars, hvars, rfl⟩ := h
  obtain ⟨l, hl, rfl | ⟨entries, i, -, rfl⟩⟩ := exists_of_unset hunset <;>
    rw [locate_entered hname hvars] at hl <;> cases hl
  · exact ⟨_, hvars.erase, modifyScope_entered _⟩
  · exact ⟨_, hvars.insert (fun _ _ hlink => by cases hlink), modifyScope_entered _⟩

/-- Where an element is set no link comes in, whatever its value. -/
theorem set_element (h : env.Inside frame env') (hname : env.Unbound name)
    (hindexable : Name.Indexable name) {key : String}
    (hset : env'.set (Name.element name key) v = .ok after) : env.Inside frame after := by
  obtain ⟨vars, hvars, rfl⟩ := h
  obtain ⟨l, w, hl, hstores, rfl⟩ := exists_of_set hset
  rw [locate_entered (hname.element hindexable key) hvars, hindexable.splitIndex_element] at hl
  cases hl
  obtain ⟨entries, rfl⟩ := hstores.exists_array
  exact ⟨_, hvars.insert (fun _ _ hlink => by cases hlink), modifyScope_entered _⟩

/-- Elements that were set before one fails stay inside as well. -/
theorem setElements (h : env.Inside frame env') (hname : env.Unbound name)
    (hindexable : Name.Indexable name) (entries : List (String × Value)) :
    env.Inside frame (env'.setElements name entries).2 := by
  induction entries generalizing env' with
  | nil => exact h
  | cons e rest ih =>
    cases hset : env'.set (Name.element name e.1) e.2 with
    | ok after =>
      rw [setElements_of_ok hset]
      exact ih (h.set_element hname hindexable hset)
    | error fault =>
      rw [setElements_of_error hset]
      exact h

theorem setArray (h : env.Inside frame env') (hname : env.Unbound name)
    (hindexable : Name.Indexable name) (items : List Value) :
    env.Inside frame (env'.setArray name items).2 := by
  unfold Environment.setArray
  split
  · exact h
  · split
    · split
      · rename_i hset
        exact h.set hname (fun _ _ hlink => by cases hlink) hset
      · exact h
    · exact h.setElements hname hindexable _

theorem unsetArray (h : env.Inside frame env') (hname : env.Unbound name) :
    env.Inside frame (env'.unsetArray name) := by
  unfold Environment.unsetArray
  split
  · split
    · rename_i hunset
      exact h.unset hname hunset
    · exact h
  · exact h

end Inside

end Environment

/-! ## Operations on local variables -/

/-- An action comes to an end of its own or with an exception, nothing has changed but the
environment, and that is such as is said. -/
def Act.Makes {κ α : Type} (act : Act κ α) (s : State κ) (P : Environment κ → Prop) : Prop :=
  ∃ outcome env, act s = Action.conclude outcome (s.withEnv env) ∧ P env

namespace State

variable {κ : Type} (s : State κ)

theorem withEnv_self : s.withEnv s.interp.env = s := by
  obtain ⟨interp, world⟩ := s
  cases interp
  rfl

theorem withResult_self : s.withResult s.interp.lastResult = s := by
  obtain ⟨interp, world⟩ := s
  cases interp
  rfl

end State

namespace Act.Makes

variable {κ ε α : Type} [Fault ε] {s : State κ} {P : Environment κ → Prop}

theorem edit {f : Environment κ → Except ε (Environment κ)} (h : P s.interp.env)
    (hf : ∀ env, f s.interp.env = .ok env → P env) : (Act.edit f).Makes s P := by
  unfold Makes
  rw [Act.edit_eq]
  cases hedit : f s.interp.env with
  | ok env => exact ⟨.value (), env, rfl, hf env hedit⟩
  | error fault =>
    refine ⟨.raised (.ofFault fault), s.interp.env, ?_, h⟩
    rw [s.withEnv_self]
    rfl

theorem editAll {f : Environment κ → Except ε α × Environment κ}
    (hf : P (f s.interp.env).2) : (Act.editAll f).Makes s P := by
  have hrun : Act.editAll f s =
      Action.ofExcept (f s.interp.env).1 (s.withEnv (f s.interp.env).2) := rfl
  unfold Makes
  rw [hrun]
  cases (f s.interp.env).1 with
  | ok a => exact ⟨.value a, _, rfl, hf⟩
  | error fault => exact ⟨.raised (.ofFault fault), _, rfl, hf⟩

theorem modifyEnv {f : Environment κ → Environment κ} (hf : P (f s.interp.env)) :
    (Act.modifyEnv f).Makes s P :=
  ⟨.value (), f s.interp.env, rfl, hf⟩

theorem silent {act : Act κ Unit} (h : act.Makes s P) : (Operation.silent act).Makes s P := by
  obtain ⟨outcome, env, hact, hP⟩ := h
  cases outcome with
  | value u => exact ⟨.value {}, env, bind_ok hact, hP⟩
  | raised e => exact ⟨.raised e, env, bind_error hact, hP⟩

end Act.Makes

section

variable {κ : Type}

/-- Variables and arrays that are set or unset under names which an environment does not have, to
values that are no links. -/
def Operation.Local (env : Environment κ) : Operation κ → Prop
  | set name v => env.Unbound name ∧ ∀ target depth, v ≠ .link target depth
  | unset name => env.Unbound name
  | setArray name _ => env.Unbound name ∧ Name.Indexable name
  | unsetArray name => env.Unbound name
  | _ => False

/-- Nothing but such operations, whatever becomes of them. -/
def Application.Local (env : Environment κ) : Application κ → Prop
  | done _ => True
  | perform op next => op.Local env ∧ ∀ outcome, (next outcome).Local env

/-- Performs operations in a row, however they end. -/
def Application.ofList (ops : List (Operation κ)) : Application κ :=
  ops.foldr (fun op rest => .perform op fun _ => rest) (.done (.value {}))

variable {env : Environment κ} {frame : Frame} {s : State κ}

theorem Application.local_ofList {ops : List (Operation κ)} (h : ∀ op ∈ ops, op.Local env) :
    (Application.ofList ops).Local env := by
  induction ops with
  | nil => exact trivial
  | cons op rest ih =>
    exact ⟨h op List.mem_cons_self, fun _ => ih fun op hop => h op (List.mem_cons_of_mem _ hop)⟩

theorem Operation.makes_perform {op : Operation κ} (hop : op.Local env)
    (h : env.Inside frame s.interp.env) (guarded : Bool) (engine : Engine κ) :
    (op.perform guarded engine).Makes s (env.Inside frame) := by
  cases op with
  | set name v => exact .silent (.edit h fun _ hset => h.set hop.1 hop.2 hset)
  | unset name => exact .silent (.edit h fun _ hunset => h.unset hop hunset)
  | setArray name items => exact .silent (.editAll (h.setArray hop.1 hop.2 items))
  | unsetArray name => exact .silent (.modifyEnv (h.unsetArray hop))
  | _ => exact hop.elim

theorem Application.makes_run {app : Application κ} (happ : app.Local env)
    (h : env.Inside frame s.interp.env) (guarded : Bool) (engine : Engine κ) :
    (app.run guarded id engine).Makes s (env.Inside frame) := by
  induction app generalizing s with
  | done outcome => exact ⟨outcome, s.interp.env, by rw [s.withEnv_self, run], h⟩
  | perform op next ih =>
    obtain ⟨outcome, env', hop, hinside⟩ := Operation.makes_perform happ.1 h guarded engine
    have hinside : env.Inside frame (s.withEnv env').interp.env := hinside
    obtain ⟨last, env'', hrest, hinside⟩ := ih outcome (happ.2 outcome) hinside
    exact ⟨last, env'', (bind_ok (Action.attempt_of_conclude hop)).trans hrest, hinside⟩

end

/-! ## Frames that come and go -/

namespace Engine

variable {κ : Type} {engine : Engine κ} {frame : Frame} {s t : State κ}

/-- Runs an action in a new frame, which goes once its deferred scripts have run. -/
def inFrame (engine : Engine κ) (frame : Frame) (act : Act κ Value) : Act κ (Outcome Value) := do
  Act.modifyStack (·.push frame)
  let outcome ← Action.attempt act
  let outcome ← engine.runDeferred outcome
  Act.modifyStack Stack.pop
  return outcome

theorem inFrame_of_conclude {act : Act κ Value} {outcome : Outcome Value}
    (hact : act (s.withStack (s.stack.push frame)) = Action.conclude outcome t)
    (hnone : t.stack.top.deferred = []) :
    engine.inFrame frame act s = .ok outcome (t.withStack t.stack.pop) := by
  have hdeferred : engine.runDeferred outcome t = .ok outcome t := by
    refine (bind_ok rfl).trans ((bind_ok (drain_of_none hnone _ outcome)).trans ?_)
    exact congrArg (EStateM.Result.ok outcome) t.withResult_self
  have hattempt := Action.attempt_of_conclude hact
  exact (bind_ok rfl).trans ((bind_ok hattempt).trans ((bind_ok hdeferred).trans rfl))

/-- **Local variables go with their frame.** Push a procedure's frame that has no links and no
deferred scripts, and let variables and arrays be set and unset under plain names that none of the
frames below has, to values that are no links, each operation chosen by how those before it ended.
Then nothing but the variables of the new frame has changed, whether the operations succeeded or
not; once the frame has gone the state is that before it came, and none of these names can be
read. -/
theorem locals_vanish (engine : Engine κ) (guarded : Bool) (s : State κ) (frame : Frame)
    (vars : Table Value) (hvars : frame.storage = .own vars) (hlinkless : vars.Linkless)
    (hnone : frame.deferred = []) (app : Application κ) (happ : app.Local s.interp.env) :
    ∃ outcome locals,
      app.run guarded id engine (s.withStack (s.stack.push frame)) =
        Action.conclude outcome
          (s.withStack (s.stack.push { frame with storage := .own locals })) ∧
      engine.inFrame frame (app.run guarded id engine) s = .ok outcome s ∧
      ∀ name, s.interp.env.Unbound name →
        s.interp.env.read name = .error (.noVariable .read name) := by
  have hinside : s.interp.env.Inside frame (s.withStack (s.stack.push frame)).interp.env := by
    refine ⟨vars, hlinkless, ?_⟩
    rw [Environment.entered, ← hvars]
    rfl
  obtain ⟨outcome, _, hrun, locals, _, rfl⟩ := Application.makes_run happ hinside guarded engine
  refine ⟨outcome, locals, hrun, (inFrame_of_conclude hrun hnone).trans ?_,
    fun name hname => hname.read⟩
  exact congrArg (EStateM.Result.ok outcome) s.withEnv_self

/-- A procedure that is called by another one sets a variable and takes it for an array, makes an
array, empties it and makes it anew. -/
theorem locals_vanish_nested :
    let s := State.standard.withEnv
      { namespaces := { nodes := [{ name := "", parent := none, vars := [("g", .string "0")] }] }
        stack := { top := { storage := .own [("n", .string "7")], namespaceId := 0 }
                   below := [.bottom NamespaceTree.root] } }
    let frame : Frame := { storage := .own [("p", .string "1")], namespaceId := 0 }
    let engine := Engine.within Builtin.run 8 8
    let ops : List (Operation Builtin) :=
      [.set "x" (.string "1"), .set "x(k)" (.string "2"), .unset "p",
        .setArray "a" [.string "k", .string "3"], .unset "a(k)", .unsetArray "a", .unset "a",
        .setArray "a" [.string "k"], .setArray "a" []]
    (∀ op ∈ ops, op.Local s.interp.env) ∧
      ∃ outcome,
        engine.inFrame frame ((Application.ofList ops).run false id engine) s = .ok outcome s ∧
        s.interp.env.read "x" = .error (.noVariable .read "x") ∧
        s.interp.env.read "a(k)" = .error (.noVariable .read "a(k)") := by
  intro s frame engine ops
  have ha : Name.Indexable "a" := ⟨by decide, by decide⟩
  have hunbound : ∀ name ∈ ["x", "x(k)", "p", "a", "a(k)"], s.interp.env.Unbound name := by
    decide +kernel
  have hstring : ∀ text target depth, Value.string text ≠ .link target depth :=
    fun _ _ _ h => by cases h
  have hops : ∀ op ∈ ops, op.Local s.interp.env := by
    simp only [ops, List.forall_mem_cons, List.not_mem_nil, false_implies, implies_true, and_true]
    simp only [List.forall_mem_cons] at hunbound
    obtain ⟨hx, hxk, hp, ha', hak, _⟩ := hunbound
    exact ⟨⟨hx, hstring _⟩, ⟨hxk, hstring _⟩, hp, ⟨ha', ha⟩, hak, ha', ha', ⟨ha', ha⟩, ha', ha⟩
  obtain ⟨outcome, locals, _, hframe, hread⟩ := locals_vanish engine false s frame _ rfl
    (fun e he => by rw [List.mem_singleton.1 he]; exact hstring _) rfl
    (Application.ofList ops) (Application.local_ofList hops)
  exact ⟨hops, outcome, hframe, hread "x" (hunbound "x" (by decide)),
    hread "a(k)" (hunbound "a(k)" (by decide))⟩

end Engine

end CommandScript
