import CommandScript.Proofs.Environment.Slot
import CommandScript.Proofs.Frames
import CommandScript.Proofs.Links.Places

/-!
# Where links lead

A link names a frame by its depth, and frames come and go. In a procedure's own variables a link
never leads deeper than the procedure's frame, so the frame it was made for is there as long as the
link is. The variables of a namespace outlive the frames that share them: `upvar` in a script that
runs in a namespace leaves a link there which is followed long after its frame has gone, to whatever
frame is on top. If links were refused there, as they are in the global frame, the links of
namespaces would all lead to the global frame, and looking up a name would never have to cut down
the depth of a link.

* `links_bounded`: whatever an application does to a new interpreter, links lead where they should,
  in every state in which an operation or a command starts and in the last one.
* `link_outlives_its_frame`: without the guard a link in a namespace leads to a frame that has gone.
-/

namespace CommandScript

/-! ## Looking up names exactly -/

/-- The depth a link leads to; none for a value that is no link. -/
def Value.linkDepth? : Value → Option Nat
  | link _ depth => some depth
  | _ => none

namespace Environment

variable {κ : Type} {env : Environment κ}

/-- Follows at most `hops` names, links to the very depth they name. -/
def locateExactlyWithin (env : Environment κ) (whole : String) :
    (hops : Nat) → (name : String) → (index : Option String) → (depth : Nat) →
      Except VariableFault Location
  | 0, _, _, _ => .error (.tooManyLinks whole)
  | hops + 1, name, index, depth =>
    match env.slotOf? name depth with
    | none => .error (.noNamespace whole)
    | some (slot, key) =>
      match (env.scope slot).get? key with
      | some (.link target linkDepth) =>
        match Name.splitIndex target, index with
        | (_, some _), some _ => .error (.notArray .reach whole)
        | (base, some i), none => env.locateExactlyWithin whole hops base (some i) linkDepth
        | (base, none), index => env.locateExactlyWithin whole hops base index linkDepth
      | _ => .ok { slot, name := key, index }

/-- The place that a name means if no link's depth is cut down. -/
def locateExactly (env : Environment κ) (name : String) : Except VariableFault Location :=
  env.locateExactlyWithin name maxLinks (Name.splitIndex name).1 (Name.splitIndex name).2 env.depth

/-! ## Bounds -/

/-- All links in the variables of namespaces lead to depths that satisfy a condition. -/
def NamespaceLinks (condition : Nat → Prop) (env : Environment κ) : Prop :=
  ∀ n ∈ env.namespaces.nodes, ∀ e ∈ n.vars, ∀ depth ∈ e.2.linkDepth?, condition depth

/-- The links that namespaces hold if links are guarded or not: those to depth 0, or any. -/
def allowedIf (guarded : Bool) (depth : Nat) : Prop := guarded = true → depth = 0

/-- Where links lead, if links are guarded or not. -/
structure LinksBounded (guarded : Bool) (env : Environment κ) : Prop where
  /-- A link in a procedure's own variables leads no deeper than the procedure's frame. -/
  own : ∀ depth f vars, env.stack.frame? depth = some f → f.storage = .own vars →
    ∀ e ∈ vars, ∀ d ∈ e.2.linkDepth?, d ≤ depth
  /-- A guarded link in the variables of a namespace leads to the global frame. -/
  shared : guarded = true → env.NamespaceLinks (· = 0)
  /-- Links lead to the frames they name, unless one in a namespace leads deeper than the stack. -/
  exact : (guarded = true ∨ env.NamespaceLinks (· ≤ env.depth)) →
    ∀ name, env.locateExactly name = env.locate name

/-- A name seen from a depth is that of a variable in no deeper frame, or in a namespace. -/
theorem slotOf?_le {name key : String} {depth d : Nat}
    (h : env.slotOf? name depth = some (.frame d, key)) : d ≤ depth := by
  obtain ⟨-, -, howner | ⟨-, rfl⟩⟩ := owner?_of_slotOf? h
  · exact (owner?_eq_some_iff.1 howner).1
  · exact Nat.le_refl _

section

variable (hown : ∀ depth f vars, env.stack.frame? depth = some f → f.storage = .own vars →
    ∀ e ∈ vars, ∀ d ∈ e.2.linkDepth?, d ≤ depth)
  (hshared : env.NamespaceLinks (· ≤ env.depth))

include hown hshared

/-- A link that is found leads no deeper than the top frame. -/
theorem linkDepth_le {slot : Slot} {key target : String} {linkDepth : Nat}
    (hslot : ∀ d, slot = .frame d → d ≤ env.depth)
    (hlink : (env.scope slot).get? key = some (.link target linkDepth)) :
    linkDepth ≤ env.depth := by
  have hnode : ∀ id, (env.namespaces.node id).vars.get? key = some (.link target linkDepth) →
      linkDepth ≤ env.depth := by
    intro id hget
    unfold NamespaceTree.node at hget
    rw [List.getD_eq_getElem?_getD] at hget
    cases hn : env.namespaces.nodes[id]? with
    | none => rw [hn] at hget; cases hget
    | some n =>
      rw [hn] at hget
      exact hshared n (List.mem_of_getElem? hn) _ (Table.mem_of_get? hget) linkDepth rfl
  unfold scope at hlink
  split at hlink
  · rename_i depth
    have hdepth : depth ≤ env.stack.depth := hslot depth rfl
    split at hlink
    · rename_i vars hvars
      cases hframe : env.stack.frame? depth with
      | none =>
        unfold Stack.frame? at hframe
        rw [if_pos hdepth, List.getElem?_eq_none_iff] at hframe
        simp only [Stack.toList, List.length_cons, Stack.depth] at hframe
        omega
      | some f =>
        rw [Stack.frame_eq_of_frame? hframe] at hvars
        have hle := hown depth f vars hframe hvars _ (Table.mem_of_get? hlink) linkDepth rfl
        exact Nat.le_trans hle hdepth
    · exact hnode _ hlink
  · exact hnode _ hlink

theorem locateExactlyWithin_eq (whole : String) (hops : Nat) (name : String)
    (index : Option String) {depth : Nat} (hdepth : depth ≤ env.depth) :
    env.locateExactlyWithin whole hops name index depth =
      env.locateWithin whole hops name index depth := by
  induction hops generalizing name index depth with
  | zero => rfl
  | succ hops ih =>
    unfold locateExactlyWithin locateWithin
    cases hslot : env.slotOf? name depth with
    | none => rfl
    | some found =>
      obtain ⟨slot, key⟩ := found
      dsimp only
      cases hget : (env.scope slot).get? key with
      | none => rfl
      | some v =>
        cases v with
        | link target linkDepth =>
          have hle : linkDepth ≤ env.depth := by
            refine linkDepth_le hown hshared (fun d hd => ?_) hget
            subst hd
            exact Nat.le_trans (slotOf?_le hslot) hdepth
          dsimp only
          rw [Nat.min_eq_left hle]
          obtain ⟨base, inner⟩ := Name.splitIndex target
          cases inner with
          | none => exact ih _ _ hle
          | some i =>
            cases index with
            | none => exact ih _ _ hle
            | some _ => rfl
        | _ => rfl

end

/-- What a variable holds that is not free of links is a link to a depth that is allowed. -/
theorem linkDepth_of_held {allowed : Nat → Prop} {v : Value} (h : v.Held .linkFree allowed)
    {depth : Nat} (hdepth : depth ∈ v.linkDepth?) : allowed depth := by
  cases h with
  | value hfree => cases hfree <;> cases hdepth
  | link target hallowed => cases hdepth; exact hallowed

theorem Holds.linksBounded {guarded : Bool} (h : env.Holds .linkFree (allowedIf guarded)) :
    env.LinksBounded guarded := by
  have hown : ∀ depth f vars, env.stack.frame? depth = some f → f.storage = .own vars →
      ∀ e ∈ vars, ∀ d ∈ e.2.linkDepth?, d ≤ depth := fun depth f vars hf hvars e he d hd =>
    linkDepth_of_held ((h.stack depth f hf).vars vars hvars e he) hd
  have hshared : guarded = true → env.NamespaceLinks (· = 0) := fun hguarded n hn e he d hd =>
    linkDepth_of_held ((h.namespaces n hn).vars e he) hd hguarded
  refine ⟨hown, hshared, fun hcondition name => ?_⟩
  have hdepths : env.NamespaceLinks (· ≤ env.depth) := by
    refine hcondition.elim (fun hguarded n hn e he d hd => ?_) id
    rw [hshared hguarded n hn e he d hd]
    exact Nat.zero_le _
  exact locateExactlyWithin_eq hown hdepths _ _ _ _ (Nat.le_refl _)

end Environment

/-- In an interpreter and all its descendants links lead where they should. -/
def State.LinksBounded {κ : Type} (guarded : Bool) (s : State κ) : Prop :=
  s.interp.Everywhere fun i => i.env.LinksBounded guarded

theorem Interp.HoldsAll.linksBounded {κ : Type} {guarded : Bool} {s : State κ}
    (h : s.interp.HoldsAll .linkFree (Environment.allowedIf guarded)) : s.LinksBounded guarded :=
  h.mono fun _ here => here.env.linksBounded

/-! ## Watching -/

open Classical in
/-- Does what an action does in states that satisfy a condition, and something else in others. -/
noncomputable def watched {κ : Type} (condition : State κ → Prop) (alarm act : Act κ Value) :
    Act κ Value :=
  fun s => if condition s then act s else alarm s

/-- The discipline of interpreters whose links are guarded or not. -/
def Discipline.linking {κ : Type} (guarded : Bool) : Discipline κ :=
  .holding .linkFree (Environment.allowedIf guarded) fun _ => rfl

/-- What is watched for does not happen, so the alarm does not matter. -/
theorem Discipline.agreeWatch_watched {κ : Type} (guarded : Bool) (alarm : Act κ Value) :
    (linking guarded).AgreeWatch (watched (State.LinksBounded guarded) alarm) id := by
  intro room x y h s hs
  have hcalm : watched (State.LinksBounded guarded) alarm x s = x s :=
    if_pos (Interp.HoldsAll.linksBounded hs)
  obtain ⟨heq, hends⟩ := h s hs
  refine ⟨hcalm.trans heq, ?_⟩
  rw [hcalm]
  exact hends

/-! ## All that applications do -/

section

variable {κ : Type}

/-- An application that stores no links, if it is told none. -/
def Application.LinkFree (app : Application κ) : Prop := app.Within .linkFree fun _ _ => True

/-- A command that stores no links, if it is given none. -/
def Behaviour.LinkFree (behaviour : Behaviour κ) : Prop :=
  behaviour.Within .linkFree fun _ _ => True

end

/-- Whatever an application that stores no links does to a new interpreter, with commands of its own
that store none either: links lead where they should in the state it leaves, and in every state in
which a command or an operation starts, since a watch that does something else in a state where a
link leads elsewhere makes no difference. -/
theorem links_bounded {κ : Type} (guarded : Bool) {behaviour : κ → Behaviour κ}
    (hbehaviour : ∀ key, (behaviour key).LinkFree) {app : Application κ} (happ : app.LinkFree)
    (registry : Registry κ) (safe : Bool) (world : World) (fuel depth : Nat) :
    let start : State κ := { interp := .create registry safe, world }
    (∀ t ∈ Action.ended? (app.session guarded id behaviour fuel depth start),
      t.LinksBounded guarded) ∧
    ∀ alarm,
      app.session guarded (watched (State.LinksBounded guarded) alarm) behaviour fuel depth start =
        app.session guarded id behaviour fuel depth start := by
  intro start
  have hstart : (Discipline.linking guarded).inv start := Interp.HoldsAll.create registry safe
  have hguard : guarded = true ∨ ∀ level, Environment.allowedIf guarded level := by
    cases guarded with
    | false => exact .inr fun _ h => by cases h
    | true => exact .inl rfl
  have hagree : ∀ {watch : Act κ Value → Act κ Value},
      (Discipline.linking guarded).AgreeWatch watch id →
      (Discipline.linking guarded).Agree depth (app.session guarded watch behaviour fuel depth)
        (app.session guarded id behaviour fuel depth) := fun hwatch =>
    Discipline.agree_session (Discipline.open_holding _) hguard hwatch hbehaviour fuel depth happ
  refine ⟨fun t ht => ?_, fun alarm => ?_⟩
  · have hkept := Discipline.allows_of_ended (hagree Discipline.agreeWatch_id) hstart ht
    exact Interp.HoldsAll.linksBounded hkept.1
  · exact (hagree (Discipline.agreeWatch_watched guarded alarm) start hstart).1

/-- The standard commands, and one of an application that links `y` to the global `x` and sets it to
its argument. -/
def Behaviour.linking : Option Builtin → Behaviour (Option Builtin)
  | some b => .standard b
  | none => .application fun argv =>
    .perform (.link 0 "x" "y") fun _ => .perform (.set "y" (argv.getD 1 {})) .done

theorem Behaviour.linkFree_linking (key : Option Builtin) : (linking key).LinkFree := by
  cases key with
  | some b => trivial
  | none =>
    refine fun argv hargv => ⟨trivial, fun _ _ => ⟨?_, fun _ houtcome => houtcome⟩⟩
    show Value.Kind.linkFree.Has (argv.getD 1 {})
    rw [List.getD_eq_getElem?_getD]
    exact .getD fun v hv => hargv v (List.mem_of_getElem? hv)

/-- A link that a command of an application makes in a procedure. -/
theorem links_bounded_linking :
    let app : Application (Option Builtin) :=
      .perform (.install "mine" none true false) fun _ =>
        .perform (.eval (.string "proc p \x7bv\x7d \x7bmine $v; set y\x7d; p new; set x")) .done
    let start : State (Option Builtin) :=
      { interp := .create (standardRegistry some) false, world := {} }
    ∃ t ∈ Action.ended? (app.session false id Behaviour.linking 30 30 start),
      t.interp.lastResult.text = "new" ∧ t.LinksBounded false := by
  intro app start
  have hends : (Action.ended? (app.session false id Behaviour.linking 30 30 start)).any
      (fun t => t.interp.lastResult.text == "new") = true := by
    decide +kernel
  obtain ⟨t, ht, hresult⟩ := (Option.any_eq_true _ _).1 hends
  have happ : app.LinkFree := ⟨trivial, fun _ _ => ⟨trivial, fun _ houtcome => houtcome⟩⟩
  have hbounded := links_bounded false Behaviour.linkFree_linking happ (standardRegistry some)
    false {} 30 30
  exact ⟨t, ht, eq_of_beq hresult, hbounded.1 t ht⟩

/-- Whether a link in a namespace leads to depth 1, and `n::y` to the global `x` only because the
depth of a link is cut down. -/
def State.hasStrayLink (s : State Builtin) : Bool :=
  s.interp.env.namespaces.nodes.any (fun n => n.vars.any fun e => e.2.linkDepth? == some 1) &&
    (s.interp.env.locate "n::y").toOption == some ⟨.frame 0, "x", none⟩ &&
    (s.interp.env.locateExactly "n::y").toOption == some ⟨.frame 1, "x", none⟩

theorem State.not_namespaceLinks_of_hasStrayLink {s : State Builtin} (h : s.hasStrayLink = true) :
    ¬ s.interp.env.NamespaceLinks (· = 0) := by
  intro hzero
  simp only [hasStrayLink, Bool.and_eq_true, List.any_eq_true] at h
  obtain ⟨⟨⟨n, hn, e, he, hdepth⟩, _⟩, _⟩ := h
  have hone : 1 = 0 := hzero n hn e he 1 (eq_of_beq hdepth)
  cases hone

theorem State.locateExactly_ne_of_hasStrayLink {s : State Builtin} (h : s.hasStrayLink = true) :
    s.interp.env.locateExactly "n::y" ≠ s.interp.env.locate "n::y" := by
  intro heq
  simp only [hasStrayLink, Bool.and_eq_true] at h
  have hclamped := eq_of_beq h.1.2
  have hexact := eq_of_beq h.2
  rw [heq, hclamped] at hexact
  cases hexact

/-- `upvar` in a namespace leaves a link to the frame of a procedure there. Once the procedure has
returned, setting the name that was linked sets a global variable. -/
theorem link_outlives_its_frame :
    let script : Value :=
      .string ("proc p \x7bx\x7d \x7bcatch \x7bnamespace eval n \x7bupvar 1 x y\x7d\x7d; " ++
        "return\x7d; p local; set x global; catch \x7bset n::y other\x7d; set x")
    let app : Application Builtin := .perform (.eval script) .done
    app.LinkFree ∧
    ∃ t ∈ Action.ended? (app.session false id Behaviour.standard 30 30 State.standard),
      ¬ t.interp.env.NamespaceLinks (· = 0) ∧
      t.interp.env.locateExactly "n::y" ≠ t.interp.env.locate "n::y" ∧
      t.interp.lastResult.text = "other" := by
  intro script app
  refine ⟨⟨trivial, fun _ houtcome => houtcome⟩, ?_⟩
  rw [session_eval]
  have hends : (Action.ended? (run Builtin.run 30 30 (.counted script) State.standard)).any
      (fun t => t.hasStrayLink && t.interp.lastResult.text == "other") = true := by
    decide +kernel
  obtain ⟨t, ht, hcheck⟩ := (Option.any_eq_true _ _).1 hends
  rw [Bool.and_eq_true] at hcheck
  exact ⟨t, ht, State.not_namespaceLinks_of_hasStrayLink hcheck.1,
    State.locateExactly_ne_of_hasStrayLink hcheck.1, eq_of_beq hcheck.2⟩

end CommandScript
