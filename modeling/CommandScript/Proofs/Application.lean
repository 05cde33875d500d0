import CommandScript.Proofs.Standard.Control

/-!
# Applications

An application drives an interpreter from outside: it evaluates scripts, works on variables,
commands, namespaces, children and channels, and asks what it wants to know. Its commands do the
same from inside. `Operation` lists what it can ask for, an `Application` performs operations one
after another, each chosen by how those before it ended, and a `Behaviour` is what stands behind a
command: a standard command, or an application given the words.

Everything here has two parameters. One tells whether links are *guarded*, that is refused where
the frame has no variables of its own; the interpreter itself refuses them in the global frame only.
The other, `watch`, is put around each standard command and each operation, so that it sees every
state in which one of them starts.

* `Discipline.Open`: a discipline that allows what only applications do.
* `Discipline.agree_session`: applications that store data of the kind keep to such a discipline.
-/

namespace CommandScript

open CommandScript.Action (Outcome)

/-! ## Operations -/

/-- What an application may ask of an interpreter. -/
inductive Operation (κ : Type) where
  /-- Whatever is told as a text. -/
  | ask (answer : State κ → String)
  | lastResult
  /-- Raises the last error once more, if there was one. -/
  | lastError
  | read (name : String)
  | entries (array : String)
  | levelCommand (depth : Nat)
  | currentCommand
  | procedureBody (name : String)
  | parameterDefault (name parameter : String)
  | eval (script : Value)
  | expr (expression : Value)
  | evalAtLevel (level : Nat) (script : Value)
  | evalInNamespace (path : String) (script : Value)
  | defer (script : Value)
  | set (name : String) (v : Value)
  | unset (name : String)
  | setArray (name : String) (items : List Value)
  | unsetArray (name : String)
  | link (level : Nat) (target name : String)
  | linkGlobal (name : String)
  | declare (name : String) (v : Option Value)
  | deleteNamespace (path : String)
  | install (name : String) (key : κ) (safe isClosure : Bool)
  | define (name : String) (parameters body : Value)
  | rename (old new : String)
  | remove (name : String)
  | createChild (path : ChildPath) (safe : Bool)
  | deleteChild (path : ChildPath)
  | inChild (path : ChildPath) (op : Operation κ)
  | limitRecursion (limit : Nat)
  | channels (change : Channels.View → String × Channels.View)

/-- Refuses a link where the frame has no variables of its own, if links are guarded. -/
def guardLink {κ α : Type} (guarded : Bool) (act : Act κ α) : Act κ α := do
  if guarded && !(← Act.env).stack.top.isOwn then Action.fail LinkFault.atGlobalLevel
  act

/-- What a standard command does; only `upvar` minds whether links are guarded. -/
def Builtin.runGuarded {κ : Type} (guarded : Bool) : Builtin → Native κ
  | upvar => fun engine argv => guardLink guarded (upvar.run engine argv)
  | b => b.run

namespace Operation

variable {κ : Type}

/-- An operation that has no result. -/
def silent (act : Act κ Unit) : Act κ Value := do
  act
  return {}

def perform (guarded : Bool) (engine : Engine κ) : Operation κ → Act κ Value
  | ask answer => return .string (answer (← get))
  | lastResult => return (← Act.interp).lastResult
  | lastError => do
    match (← Act.interp).lastError with
    | some e => Action.raise e
    | none => return {}
  | read name => Act.readVariable name
  | entries array => return .list (Value.flatten ((← Act.env).arrayEntries array))
  | levelCommand depth => return ((← Act.env).stack.levelCommand? depth).getD {}
  | currentCommand => return .list (← Act.env).stack.top.command
  | procedureBody name => Act.query (·.procedureBody name)
  | parameterDefault name parameter =>
    return (← Act.query (·.parameterDefault name parameter)).getD {}
  | eval script => engine.eval script
  | expr expression => engine.expr expression
  | evalAtLevel level script => engine.evalAtLevel level script
  | evalInNamespace path script => engine.evalInNamespace path script
  | defer script => silent (Act.defer script)
  | set name v => silent (Act.setVariable name v)
  | unset name => silent (Act.edit (·.unset name))
  | setArray name items => silent (Act.editAll (·.setArray name items))
  | unsetArray name => silent (Act.modifyEnv (·.unsetArray name))
  | link level target name => silent (guardLink guarded (Act.edit (·.link level target name)))
  | linkGlobal name => silent (Act.edit (·.linkGlobal name))
  | declare name v => silent (Act.declareVariable name v)
  | deleteNamespace path => silent (Act.edit (·.deleteNamespace path))
  | install name key safe isClosure =>
    silent (Act.modifyEnv
      (·.install name (if isClosure then .closure key safe else .native key safe)))
  | define name parameters body => silent (Act.edit (·.defineProcedure name parameters body))
  | rename old new => silent (Act.edit (·.rename old new))
  | remove name => silent (Act.modifyEnv (·.remove name))
  | createChild path safe => silent (Standard.Children.edit (·.createChild path safe))
  | deleteChild path => silent (Standard.Children.edit (·.deleteChild path))
  | inChild path op => Act.inChild path (op.perform guarded engine)
  | limitRecursion limit =>
    silent (Act.modifyInterp fun i => { i with recursionLimit := limit })
  | channels change =>
    return .string (← Act.channels fun v => .ok (change v).1 (change v).2)

/-- The values that an operation stores are of the kind, and it installs what may be installed. -/
def Within (K : Value.Kind) (installs : κ → Bool → Prop) : Operation κ → Prop
  | set _ v => K.Has v
  | setArray _ items => K.All items
  | declare _ v => K.All v
  | define _ parameters body => K.Has parameters ∧ K.Has body
  | install _ key safe _ => installs key safe
  | inChild _ op => op.Within K installs
  | _ => True

theorem within_any (op : Operation κ) : op.Within .any fun _ _ => True := by
  induction op with
  | setArray name items => exact Value.Kind.all_any items
  | declare name v => exact Value.Kind.all_any v
  | define name parameters body => exact ⟨trivial, trivial⟩
  | inChild path op ih => exact ih
  | _ => trivial

end Operation

/-! ## Applications -/

/-- A program of operations. -/
inductive Application (κ : Type) where
  | done (outcome : Outcome Value)
  | perform (op : Operation κ) (next : Outcome Value → Application κ)

/-- What stands behind the key of a command. -/
inductive Behaviour (κ : Type) where
  | standard (b : Builtin)
  | application (respond : List Value → Application κ)

namespace Application

variable {κ : Type}

/-- Performs the operations in turn. -/
def run (guarded : Bool) (watch : Act κ Value → Act κ Value) (engine : Engine κ) :
    Application κ → Act κ Value
  | done outcome => Action.conclude outcome
  | perform op next => do
    let outcome ← Action.attempt (watch (op.perform guarded engine))
    (next outcome).run guarded watch engine

/-- An application that stores data of the kind, if it is told such data. -/
def Within (K : Value.Kind) (installs : κ → Bool → Prop) : Application κ → Prop
  | done outcome => K.All outcome
  | perform op next =>
    op.Within K installs ∧ ∀ outcome, K.All outcome → (next outcome).Within K installs

theorem within_any (app : Application κ) : app.Within .any fun _ _ => True := by
  induction app with
  | done outcome => exact Value.Kind.all_any outcome
  | perform op next ih => exact ⟨op.within_any, fun outcome _ => ih outcome⟩

end Application

namespace Behaviour

variable {κ : Type}

def native (guarded : Bool) (watch : Act κ Value → Act κ Value) : Behaviour κ → Native κ
  | standard b => fun engine argv => watch (b.runGuarded guarded engine argv)
  | application respond => fun engine argv => (respond argv).run guarded watch engine

/-- A command that stores data of the kind, if it is given such data. -/
def Within (K : Value.Kind) (installs : κ → Bool → Prop) : Behaviour κ → Prop
  | standard _ => True
  | application respond =>
    ∀ argv : List Value, K.All argv → (respond argv).Within K installs

/-- Nothing is asked of a command if values may be of any kind and everything may be installed. -/
theorem within_any (b : Behaviour κ) : b.Within .any fun _ _ => True := by
  cases b with
  | standard b => trivial
  | application respond => exact fun argv _ => (respond argv).within_any

end Behaviour

/-- Runs an application from outside, with loops and the nesting of evaluations bounded. -/
def Application.session {κ : Type} (guarded : Bool) (watch : Act κ Value → Act κ Value)
    (behaviour : κ → Behaviour κ) (fuel depth : Nat) (app : Application κ) : Act κ Value :=
  app.run guarded watch
    (Engine.within (fun key => (behaviour key).native guarded watch) fuel depth)

/-- Without guard and watch, what stands behind a standard command is the command itself. -/
theorem Behaviour.native_standard {κ : Type} (b : Builtin) :
    (standard b : Behaviour κ).native false id = b.run := by
  cases b <;> rfl

/-- An application that only evaluates a script, with the standard commands, evaluates it as any
other evaluation does. -/
theorem session_eval (script : Value) (fuel depth : Nat) :
    (Application.perform (.eval script) .done).session false id Behaviour.standard fuel depth =
      run Builtin.run fuel depth (.counted script) := by
  have hops : (fun b => (Behaviour.standard b).native false id) =
      (Builtin.run : Builtin → Native Builtin) := funext Behaviour.native_standard
  unfold Application.session
  rw [hops]
  funext s
  show (Action.attempt (run Builtin.run fuel depth (.counted script)) >>= Action.conclude) s = _
  cases hrun : run Builtin.run fuel depth (.counted script) s with
  | ok v t =>
    rw [Action.bind_ok (show Action.attempt _ s = .ok (.value v) t by rw [Action.attempt, hrun])]
    rfl
  | error stop t =>
    cases stop with
    | raised e =>
      rw [Action.bind_ok (show Action.attempt _ s = .ok (.raised e) t by rw [Action.attempt, hrun])]
      rfl
    | halted why => exact Action.bind_error (by rw [Action.attempt, hrun])
    | outOfDepth active => exact Action.bind_error (Action.attempt_outOfDepth hrun)

/-! ## Applications under a discipline -/

namespace Discipline

open Action.Discipline (Agree AgreeFrom)
open Discipline.Standard

variable {κ α : Type} [Data α] {D : Discipline κ} {room : Nat} {guarded : Bool}
  {installs : κ → Bool → Prop} {engine engine' : Engine κ}

/-- What only applications do is allowed: to change the limit of an interpreter, and to install the
commands that may be installed. -/
structure Open (D : Discipline κ) (installs : κ → Bool → Prop) : Prop where
  limit : ∀ s limit, D.inv s →
    D.Allows s { s with interp := { s.interp with recursionLimit := limit } }
  install : ∀ s name key safe (isClosure : Bool), D.inv s → installs key safe →
    D.Allows s (s.withEnv
      (s.interp.env.install name (if isClosure then .closure key safe else .native key safe)))

theorem agree_guardLink (hguard : guarded = true ∨ ∀ level, D.shared level) {x y : Act κ α}
    (h : ∀ s, D.inv s → s.stack.top.isOwn = true ∨ (∀ level, D.shared level) →
      D.AgreeFrom room s x y) :
    D.Agree room (guardLink guarded x) (guardLink guarded y) := by
  unfold guardLink
  refine agree_env_bind fun s hs => ?_
  dsimp only
  split
  · exact Agree.fail_bind _ _ _ s hs
  · rename_i hpassed
    refine h s hs (hguard.imp_left fun hguarded => ?_)
    show s.interp.env.stack.top.isOwn = true
    simpa [hguarded] using hpassed

theorem respects_runGuarded (hguard : guarded = true ∨ ∀ level, D.shared level) (b : Builtin) :
    D.Respects (b.runGuarded guarded : Native κ) (b.runGuarded guarded) := by
  by_cases hb : b = .upvar
  · subst hb
    intro room engine engine' _ argv _
    exact agree_guardLink hguard fun s hs hlevel => agree_upvar engine engine' hs hlevel argv
  · have hrun : (b.runGuarded guarded : Native κ) = b.run := by
      cases b <;> first | rfl | exact absurd rfl hb
    rw [hrun]
    exact respects_run fun heq => absurd heq hb

theorem agree_silent {x y : Act κ Unit} (h : D.Agree room x y) :
    D.Agree room (Operation.silent x) (Operation.silent y) := h.bind fun _ _ => Agree.pure .empty

theorem agree_perform (hopen : D.Open installs) (hguard : guarded = true ∨ ∀ level, D.shared level)
    (h : D.AgreeEngine room engine engine') {op : Operation κ} (hop : op.Within D.values installs) :
    D.Agree room (op.perform guarded engine) (op.perform guarded engine') := by
  induction op with
  | ask answer => exact Agree.get_bind fun s hs => .pure hs (.string _)
  | lastResult => exact agree_interp_bind fun s hs => .pure hs (D.holds hs).lastResult
  | lastError =>
    unfold Operation.perform
    refine agree_interp_bind fun s hs => ?_
    split
    · rename_i e he
      exact Agree.raise ((D.holds hs).lastError e he) s hs
    · exact .pure hs .empty
  | read name => exact agree_readVariable name
  | entries array =>
    exact agree_env_bind fun s hs =>
      .pure hs (.list (.flatten ((D.holds hs).env.has_arrayEntries array)))
  | levelCommand depth =>
    exact agree_env_bind fun s hs =>
      .pure hs (.getD fun _ => (D.holds hs).env.stack.levelCommand?)
  | currentCommand =>
    exact agree_env_bind fun s hs => .pure hs (.list (D.holds hs).env.stack.top.command)
  | procedureBody name => exact agree_query fun _ _ henv => henv.has_procedureBody
  | parameterDefault name parameter =>
    exact (agree_query fun _ _ henv => henv.has_parameterDefault).return fun _ => .getD
  | eval script => exact h.eval script
  | expr expression => exact h.expr expression
  | evalAtLevel level script => exact h.evalAtLevel level script
  | evalInNamespace path script => exact h.evalInNamespace path script
  | defer script => exact agree_silent (agree_defer script)
  | set name v => exact agree_silent (agree_setVariable name hop)
  | unset name => exact agree_silent (agree_edit fun _ _ henv => .unset henv)
  | setArray name items =>
    exact agree_silent
      (agree_editAll (fun _ henv => .setArray henv name hop) fun _ _ _ => trivial)
  | unsetArray name => exact agree_silent (agree_modifyEnv fun _ henv => .unsetArray henv name)
  | link level target name =>
    refine agree_silent (agree_guardLink hguard fun s hs hlevel => ?_)
    exact agreeFrom_edit hs fun _ => .link (hlevel.imp_right (· level))
  | linkGlobal name => exact agree_silent (agree_edit fun _ _ _ => .linkGlobal D.shared_zero)
  | declare name v => exact agree_silent (agree_declareVariable name hop)
  | deleteNamespace path => exact agree_silent (agree_edit fun _ _ _ => .deleteNamespaceAt)
  | install name key safe isClosure =>
    exact agree_silent (agree_modify fun s hs => hopen.install s name key safe isClosure hs hop)
  | define name parameters body =>
    exact agree_silent (agree_edit fun _ _ _ => .defineProcedure hop.1 hop.2)
  | rename old new => exact agree_silent (agree_edit fun _ _ _ => .rename)
  | remove name => exact agree_silent (agree_modifyEnv fun env _ => .removeNamed env name)
  | createChild path safe => exact agree_silent (agree_createChild path safe)
  | deleteChild path => exact agree_silent (agree_deleteChild path)
  | inChild path op ih => exact agree_inChild path (ih hop)
  | limitRecursion limit => exact agree_silent (agree_modify fun s => hopen.limit s limit)
  | channels change =>
    refine (agree_channels ?_).return fun _ _ => .string _
    exact fun _ _ => ⟨rfl, ⟨trivial, trivial⟩, trivial⟩

/-! ## Whole applications -/

/-- Two ways to watch that agree on what they watch. -/
def AgreeWatch (D : Discipline κ) (watch watch' : Act κ Value → Act κ Value) : Prop :=
  ∀ room x y, D.Agree room x y → D.Agree room (watch x) (watch' y)

theorem agreeWatch_id : D.AgreeWatch id id := fun _ _ _ h => h

variable {watch watch' : Act κ Value → Act κ Value}

theorem agree_application (hopen : D.Open installs)
    (hguard : guarded = true ∨ ∀ level, D.shared level) (hwatch : D.AgreeWatch watch watch')
    (h : D.AgreeEngine room engine engine') {app : Application κ}
    (happ : app.Within D.values installs) :
    D.Agree room (app.run guarded watch engine) (app.run guarded watch' engine') := by
  induction app with
  | done outcome => exact Agree.conclude happ
  | perform op next ih =>
    refine (hwatch _ _ _ (agree_perform hopen hguard h happ.1)).attempt.bind
      fun outcome houtcome => ?_
    exact ih outcome (happ.2 outcome houtcome)

theorem respects_native (hopen : D.Open installs)
    (hguard : guarded = true ∨ ∀ level, D.shared level) (hwatch : D.AgreeWatch watch watch')
    {behaviour : Behaviour κ} (hbehaviour : behaviour.Within D.values installs) :
    D.Respects (behaviour.native guarded watch) (behaviour.native guarded watch') := by
  intro room engine engine' hengine argv hargv
  cases behaviour with
  | standard b =>
    exact hwatch _ _ _ (respects_runGuarded hguard b room engine engine' hengine argv hargv)
  | application respond =>
    exact agree_application hopen hguard hwatch hengine (hbehaviour argv hargv)

theorem agree_session (hopen : D.Open installs)
    (hguard : guarded = true ∨ ∀ level, D.shared level) (hwatch : D.AgreeWatch watch watch')
    {behaviour : κ → Behaviour κ} (hbehaviour : ∀ key, (behaviour key).Within D.values installs)
    (fuel depth : Nat) {app : Application κ} (happ : app.Within D.values installs) :
    D.Agree depth (app.session guarded watch behaviour fuel depth)
      (app.session guarded watch' behaviour fuel depth) := by
  have hops : D.Permits (fun key => (behaviour key).native guarded watch)
      fun key => (behaviour key).native guarded watch' :=
    fun _ _ _ _ _ _ key _ => respects_native hopen hguard hwatch (hbehaviour key)
  exact agree_application hopen hguard hwatch (agreeEngine_within hops fuel depth) happ

end Discipline

end CommandScript
