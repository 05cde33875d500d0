import CommandScript.Proofs.Application
import CommandScript.Proofs.Frames
import CommandScript.Proofs.Interp.Flags

/-!
# Safe interpreters are sealed

A safe interpreter runs only commands marked safe. So nothing that a script does in it depends on
the functions behind the others: by whatever name or route a script comes to such a command, it is
refused before its function is called. The flag goes down to all children, and stays.

The functions behind commands marked safe may be any that use the interpreter and call no other
function themselves (`Behaviour`). They may install commands, and as safe ones only those that are
trusted, that is, have such a function as well.

* `Interp.Vetted`: the commands marked safe are trusted.
* `Discipline.confining`: what evaluation in a safe interpreter keeps.
* `Discipline.flagging`, `Discipline.inheriting`, `Discipline.marking`: what any evaluation does to
  flags.
* `Interp.Built`: the trees of interpreters in question.
-/

namespace CommandScript

/-- The key of a command that is listed as safe. -/
def Registry.Safe {κ : Type} (registry : Registry κ) (key : κ) : Prop :=
  ∃ entry ∈ registry, entry.2.safe = true ∧ entry.2.key = key

theorem Environment.mem_executables_of_command? {κ : Type} {env : Environment κ} {name : String}
    {command : Executable κ} (h : env.command? name = some command) :
    command ∈ env.namespaces.executables := by
  obtain ⟨⟨id, tail⟩, _, hget⟩ := Option.bind_eq_some_iff.1 h
  exact NamespaceTree.mem_executables_of_get? hget

namespace Interp

variable {κ : Type} {trusted : κ → Prop}

/-- The built-in commands marked safe are trusted. -/
structure Vetted (trusted : κ → Prop) (i : Interp κ) : Prop where
  commands : ∀ e ∈ i.env.namespaces.executables, e.isSafe = true →
    ∀ key, e.key? = some key → trusted key
  registry : ∀ key, i.registry.Safe key → trusted key

/-- An interpreter as its own operations leave it. -/
structure Sound (trusted : κ → Prop) (i : Interp κ) : Prop where
  vetted : i.Vetted trusted
  inherits : i.Inherits
  distinct : i.Distinct

/-- A sound interpreter that is safe. -/
structure Guarded (trusted : κ → Prop) (i : Interp κ) : Prop extends Sound trusted i where
  safe : i.safe = true

theorem vetted_create {registry : Registry κ} (h : ∀ key, registry.Safe key → trusted key)
    (safe : Bool) : (create registry safe).Vetted trusted where
  commands e he hsafe key hkey := by
    obtain ⟨entry, hentry, rfl⟩ := mem_executables_create he
    cases hkey
    exact h _ ⟨entry, hentry, hsafe, rfl⟩
  registry := h

theorem stable_vetted :
    Stable (fun key safe => safe = true → trusted key) (Vetted (κ := κ) trusted) where
  evolve he h :=
    { commands := by
        intro e hmem hsafe key hkey
        rcases he.commands e hmem with hmem | hinstalled
        · exact h.commands e hmem hsafe key hkey
        · exact hinstalled key hkey hsafe
      registry := he.registry ▸ h.registry }
  fresh safe h := vetted_create h.registry _

theorem stable_sound :
    Stable (fun key safe => safe = true → trusted key) (Sound (κ := κ) trusted) where
  evolve he h := ⟨stable_vetted.evolve he h.vetted, stable_inherits.evolve he h.inherits,
    stable_distinct.evolve he h.distinct⟩
  fresh _ h := ⟨vetted_create h.vetted.registry _, nofun, .nil⟩

theorem stable_guarded :
    Stable (fun key safe => safe = true → trusted key) (Guarded (κ := κ) trusted) where
  evolve he h := ⟨stable_sound.evolve he h.toSound, stable_safe.evolve he h.safe⟩
  fresh safe h := ⟨stable_sound.fresh safe h.toSound,
    Stable.fresh (stable_safe : Stable (fun _ _ => False) _) safe h.safe⟩

/-- All below a safe interpreter is safe, in a tree of sound ones. -/
theorem Everywhere.guarded {i : Interp κ} (h : Everywhere (Sound trusted) i)
    (hsafe : i.safe = true) : Everywhere (Guarded trusted) i := by
  induction h with
  | node here _ ih => exact .node ⟨here, hsafe⟩ fun c hc => ih c hc (here.inherits hsafe c hc)

/-- No change of an interpreter changes its flag. -/
theorem relates_safe {installs : κ → Bool → Prop} {P : Interp κ → Prop} :
    Relates installs P fun i j => j.safe = i.safe where
  refl _ := rfl
  trans h h' := h'.trans h
  safe h := h
  evolve he _ := he.safe
  limit _ _ := rfl
  modifyChild hc h := modifyChild_safe hc h
  create _ _ _ := rfl
  delete _ _ := rfl

theorem relates_retains {mark : κ} :
    Relates (fun key _ => key ≠ mark) (Markable mark) (Retains mark) where
  refl := .refl
  trans := .trans
  safe h := h.safe
  evolve := .evolve
  limit _ _ := .of_same_children rfl (fun h => h) rfl
  modifyChild := .modifyChild
  create safe hi hnew := .withNewChild hi hnew safe
  delete name hi := .erase hi name

end Interp

/-! ## Disciplines -/

open Interp (Everywhere Guarded Sound Inherits Markable FlagsKept)

namespace Discipline

variable {κ : Type} {installs : κ → Bool → Prop} {P : Interp κ → Prop}
  {R : Interp κ → Interp κ → Prop}

/-- An application may change limits, and install what the discipline allows for. -/
theorem open_tracking (hP : Interp.Stable installs P) (hR : Interp.Relates installs P R)
    (hlimit : ∀ (i : Interp κ) limit, P i → P { i with recursionLimit := limit }) :
    (tracking hP hR).Open installs where
  limit _ limit hs := ⟨.node (hlimit _ limit hs.here) fun _ hc => hs.inside hc, hR.limit _ limit⟩
  install _ name _ _ isClosure hs h :=
    ⟨hs.evolve hP (.install _ name isClosure h) rfl, hR.evolve (.install _ name isClosure h) rfl⟩

/-- What evaluation in a safe interpreter keeps. -/
def confining (trusted : κ → Prop) : Discipline κ :=
  tracking (Interp.stable_guarded : Interp.Stable _ (Guarded trusted)) Interp.relates_safe

theorem open_confining (trusted : κ → Prop) :
    (confining trusted).Open fun key safe => safe = true → trusted key :=
  open_tracking _ _ fun _ _ h =>
    ⟨⟨⟨h.vetted.commands, h.vetted.registry⟩, h.inherits, h.distinct⟩, h.safe⟩

/-- No evaluation changes the flag of an interpreter that is known by a mark. -/
def marking (mark : κ) : Discipline κ :=
  tracking Interp.stable_markable (Interp.relates_retains : Interp.Relates _ (Markable mark) _)

end Discipline

/-! ## Evaluation in a safe interpreter -/

section Confining

variable {κ : Type} {registry : Registry κ} {trusted : κ → Prop} {ops ops' : κ → Native κ}

/-- The commands listed as safe are trusted, and behind a trusted command is the same function in
both, which uses the interpreter, calls no function itself, and installs only trusted commands as
safe ones. -/
structure Registry.Confines (registry : Registry κ) (trusted : κ → Prop)
    (ops ops' : κ → Native κ) : Prop where
  listed : ∀ key, registry.Safe key → trusted key
  behaves : ∀ key, trusted key → ∃ b : Behaviour κ,
    b.Within .any (fun key safe => safe = true → trusted key) ∧
      ops key = b.native false id ∧ ops' key = b.native false id

/-- In a safe interpreter a command whose function may be called is trusted. -/
theorem Registry.Confines.permits (h : registry.Confines trusted ops ops') :
    (Discipline.confining trusted).Permits ops ops' := by
  intro s hs name command hfound hallowed key hkey
  have hguarded : Guarded trusted s.interp := hs.here
  have hmem := Environment.mem_executables_of_command? hfound
  obtain ⟨b, hb, hops, hops'⟩ :=
    h.behaves key (hguarded.vetted.commands command hmem (hallowed hguarded.safe) key hkey)
  rw [hops, hops']
  exact Discipline.respects_native (Discipline.open_confining trusted) (.inr fun _ => trivial)
    Discipline.agreeWatch_id hb

theorem ended?_inChild {α : Type} {path : ChildPath} {act : Act κ α} {s t : State κ}
    {child : Interp κ} (hchild : s.interp.child? path = some child) :
    t ∈ Action.ended? (Act.inChild path act s) ↔
      ∃ u ∈ Action.ended? (act { s with interp := child }), t = s.withChild path u := by
  unfold Act.inChild
  simp only [hchild]
  cases act { s with interp := child } with
  | ok a u => simp [Action.ended?, State.withChild, eq_comm]
  | error stop u =>
    cases stop with
    | raised e => simp [Action.ended?, State.withChild, Stop.fromChild, eq_comm]
    | halted why => simp [Action.ended?, Stop.fromChild]
    | outOfDepth active => cases active <;> simp [Action.ended?, Stop.fromChild]

/-- Two runs in a safe interpreter are the same, and leave all that is in it guarded. -/
theorem sealed_run (h : registry.Confines trusted ops ops') {x : Interp κ}
    (hx : Everywhere (Guarded trusted) x) (fuel depth : Nat) (request : Request)
    (world : World) :
    run ops fuel depth request { interp := x, world } =
        run ops' fuel depth request { interp := x, world } ∧
      ∀ u ∈ Action.ended? (run ops fuel depth request { interp := x, world }),
        Everywhere (Guarded trusted) u.interp := by
  have hagree := Discipline.agree_run h.permits fuel depth request
  refine ⟨(hagree { interp := x, world } hx).1, fun u hu => ?_⟩
  exact (Discipline.allows_of_ended (s := { interp := x, world }) hagree hx hu).1

end Confining

/-! ## Trees of interpreters -/

/-- The trees of interpreters that start with one interpreter of a registry, in which children are
created and deleted and scripts are evaluated in safe interpreters. -/
inductive Interp.Built {κ : Type} (registry : Registry κ) (ops : κ → Native κ) : Interp κ → Prop
  | create (safe : Bool) : Built registry ops (.create registry safe)
  | createChild {i j : Interp κ} {path : ChildPath} {safe : Bool} : Built registry ops i →
      i.createChild path safe = .ok j → Built registry ops j
  | deleteChild {i j : Interp κ} {path : ChildPath} : Built registry ops i →
      i.deleteChild path = .ok j → Built registry ops j
  | evaluate {i x : Interp κ} {path : ChildPath} {fuel depth : Nat} {script : Value}
      {world : World} {t : State κ} : Built registry ops i → i.child? path = some x →
      x.safe = true →
      t ∈ Action.ended? (Act.inChild path (run ops fuel depth (.counted script))
        { interp := i, world }) → Built registry ops t.interp

section Trees

variable {κ : Type} {registry : Registry κ} {trusted : κ → Prop} {ops ops' : κ → Native κ}

/-- What a run in a safe interpreter of a sound tree leaves. -/
theorem sealed_tree (h : registry.Confines trusted ops ops') {tree x : Interp κ}
    {path : ChildPath} (htree : Everywhere (Sound trusted) tree) (hx : tree.child? path = some x)
    (hsafe : x.safe = true) {fuel depth : Nat} {request : Request} {world : World} {t : State κ}
    (ht : t ∈ Action.ended? (Act.inChild path (run ops fuel depth request)
      { interp := tree, world })) :
    ∃ y, t.interp = tree.modifyChild (fun _ => y) path ∧ Everywhere (Guarded trusted) y := by
  obtain ⟨u, hu, rfl⟩ := (ended?_inChild hx).1 ht
  exact ⟨u.interp, rfl,
    (sealed_run h ((htree.child? hx).guarded hsafe) fuel depth request world).2 u hu⟩

theorem Interp.Built.sound (h : registry.Confines trusted ops ops') {tree : Interp κ}
    (htree : Interp.Built registry ops tree) : Everywhere (Sound trusted) tree := by
  induction htree with
  | create safe =>
    exact .node ⟨Interp.vetted_create h.listed safe, nofun, .nil⟩ nofun
  | createChild _ hj ih => exact ih.createChild Interp.stable_sound.rearrangeable hj
  | deleteChild _ hj ih => exact ih.deleteChild Interp.stable_sound.rearrangeable hj
  | evaluate _ hx hsafe ht ih =>
    obtain ⟨y, heq, hguarded⟩ := sealed_tree h ih hx hsafe ht
    rw [heq]
    exact ih.modifyChild Interp.stable_sound.rearrangeable hx
      (hguarded.mono fun _ h => h.toSound) (hguarded.here.safe.trans hsafe.symm)

end Trees

/-! ## A child that is known by a mark -/

/-- What stands behind the standard commands, and behind a mark, which does nothing. -/
def marked : Option Builtin → Behaviour (Option Builtin)
  | some b => .standard b
  | none => .application fun _ => .done (.value {})

end CommandScript
