import CommandScript.Proofs.Environment.Listing
import CommandScript.Proofs.Environment.Store
import CommandScript.Proofs.Table.Merge

/-!
# Renaming commands

The old name of a command is looked up, in the current namespace and then in the root, while the new
one is placed, in the current namespace at once. Both rules agree where a command stands in the
place of its name (`Environment.commandEntry?_of_commandHome`), and placing depends on nothing that
renaming changes (`Environment.SameButCommands.commandHome`), so that a renamed command is found
again. No namespace ever has two commands of one name (`Environment.Reached.distinctCommands`).

* `Environment.exists_rename_iff`: when a command can be renamed.
* `Environment.renamed_of_rename`: what renaming makes of an environment.
* `Environment.commands_move_alone`: one entry moves or goes, and all others stay as they are.
-/

namespace CommandScript

namespace Table

variable {α : Type} {t : Table α} {name : String}

/-- The entries of other names. -/
def others (t : Table α) (name : String) : Table α := t.filter fun e => e.1 != name

theorem others_of_not_mem (h : name ∉ names t) : others t name = t :=
  List.filter_eq_self.2 fun _ he => bne_iff_ne.2 fun heq => h (heq ▸ List.mem_map_of_mem he)

theorem erase_eq_others (h : (names t).Nodup) : erase t name = others t name := by
  induction t with
  | nil => rfl
  | cons e rest ih =>
    obtain ⟨hfirst, hrest⟩ := List.nodup_cons.1 h
    by_cases hname : e.1 = name
    · subst hname
      have hothers : others (e :: rest) e.1 = others rest e.1 :=
        List.filter_cons_of_neg (by simp)
      rw [hothers, others_of_not_mem hfirst, erase, if_pos rfl]
    · have hothers : others (e :: rest) name = e :: others rest name :=
        List.filter_cons_of_pos (by simpa using hname)
      rw [hothers, erase, if_neg hname, ih hrest]

/-- A new name comes behind the others. -/
theorem others_insert_new (h : name ∉ names t) (v : α) : others (insert t name v) name = t := by
  have happend : others (t ++ [(name, v)]) name = others t name ++ [] := by
    simp [others]
  rw [insert_new h, happend, others_of_not_mem h, List.append_nil]

theorem not_mem_names_others (t : Table α) (name : String) : name ∉ names (others t name) := by
  intro h
  obtain ⟨e, he, heq⟩ := List.mem_map.1 h
  exact bne_iff_ne.1 (List.mem_filter.1 he).2 heq

theorem names_others_subset (t : Table α) (name : String) : names (others t name) ⊆ names t :=
  (List.filter_sublist.map Prod.fst).subset

end Table

/-- All of a namespace but its commands. -/
def Namespace.withoutCommands {κ : Type} (n : Namespace κ) : Namespace κ :=
  { n with commands := [] }

namespace Environment

variable {κ : Type} {env env' : Environment κ} {old new name tail : String} {id : NamespaceId}
  {command : Executable κ} {place : NamespaceId × String}

/-- No namespace has two commands of one name. -/
def DistinctCommands (env : Environment κ) : Prop := ∀ id, (Table.names (env.commandsOf id)).Nodup

theorem Reached.distinctCommands {registry : Registry κ} (h : Reached registry env)
    (hregistry : (Table.names registry).Nodup) : env.DistinctCommands := (h.tidy hregistry).nodup

/-- The commands of a namespace but for the one at a place. -/
def commandsBut (env : Environment κ) (place : NamespaceId × String) (id : NamespaceId) :
    Table (Executable κ) :=
  if id = place.1 then (env.commandsOf id).others place.2 else env.commandsOf id

/-- Environments that differ in no more than their commands. -/
structure SameButCommands (env env' : Environment κ) : Prop where
  stack : env'.stack = env.stack
  node (id : NamespaceId) :
    (env'.namespaces.node id).withoutCommands = (env.namespaces.node id).withoutCommands

namespace SameButCommands

theorem trans {a b c : Environment κ} (h : SameButCommands a b) (h' : SameButCommands b c) :
    SameButCommands a c := ⟨h'.stack.trans h.stack, fun id => (h'.node id).trans (h.node id)⟩

theorem modifyCommands (env : Environment κ) (id : NamespaceId)
    (f : Table (Executable κ) → Table (Executable κ)) :
    SameButCommands env (env.modifyCommands id f) where
  stack := rfl
  node i := by
    unfold Environment.modifyCommands
    rw [NamespaceTree.node_update]
    split <;> rfl

theorem current (h : SameButCommands env env') : env'.current = env.current := by
  rw [Environment.current, h.stack, Environment.current]

theorem find (h : SameButCommands env env') (start : NamespaceId) (path : String) :
    env'.namespaces.find start path = env.namespaces.find start path :=
  have hchildren : ∀ id, (env'.namespaces.node id).children = (env.namespaces.node id).children :=
    fun id => (Namespace.mk.inj (h.node id)).2.2.1
  NamespaceTree.find_of_children hchildren start path

/-- New commands are placed alike. -/
theorem commandHome (h : SameButCommands env env') (name : String) :
    env'.commandHome name = env.commandHome name := by
  simp only [Environment.commandHome, h.current, h.find]

end SameButCommands

theorem commandsOf_modifyCommands (env : Environment κ) (id i : NamespaceId)
    (f : Table (Executable κ) → Table (Executable κ)) :
    (env.modifyCommands id f).commandsOf i =
      if i = id then f (env.commandsOf i) else env.commandsOf i := by
  unfold commandsOf modifyCommands
  rw [NamespaceTree.node_update]
  split <;> rfl

/-- A command that stands in the place for its name is found by the name. -/
theorem commandEntry?_of_commandHome (hhome : env.commandHome name = .ok place)
    (hget : (env.commandsOf place.1).get? place.2 = some command) :
    env.commandEntry? name = some place ∧ env.command? name = some command := by
  have hcontains : (env.commandsOf place.1).contains place.2 = true := by
    rw [Table.contains, hget]
    rfl
  have hplace : env.commandPlace? name = some place := by
    unfold commandHome at hhome
    unfold commandPlace?
    split at hhome
    · split at hhome
      · cases hhome
        rw [if_pos ‹_›]
      · rw [if_neg ‹_›]
        split at hhome
        · rename_i hfind
          cases hhome
          rw [hfind]
          rfl
        · cases hhome
    · cases hhome
      rw [if_pos hcontains]
  unfold commandEntry? command?
  rw [hplace]
  exact ⟨by simp [Option.filter, hcontains], hget⟩

/-- The entry that a name means holds what the name means. -/
theorem get?_of_commandEntry? (h : env.commandEntry? name = some place) :
    ∃ command, (env.commandsOf place.1).get? place.2 = some command ∧
      env.command? name = some command := by
  unfold commandEntry? at h
  obtain ⟨hplace, hcontains⟩ := Option.filter_eq_some_iff.1 h
  obtain ⟨command, hget⟩ := Option.isSome_iff_exists.1 hcontains
  exact ⟨command, hget, by rw [command?, hplace]; exact hget⟩

theorem isSome_commandEntry? (env : Environment κ) (name : String) :
    (env.commandEntry? name).isSome = env.hasCommand name := by
  unfold commandEntry? hasCommand command?
  cases env.commandPlace? name with
  | none => rfl
  | some place =>
    rw [Option.filter_some, Option.bind_some]
    cases hget : (env.commandsOf place.1).get? place.2 <;> simp [Table.contains, hget]

/-! ## Renaming -/

/-- The environment without the command at a place. -/
def withoutCommand (env : Environment κ) (place : NamespaceId × String) : Environment κ :=
  env.modifyCommands place.1 fun commands => commands.erase place.2

/-- The environment with a command at a place. -/
def withCommandAt (env : Environment κ) (place : NamespaceId × String) (command : Executable κ) :
    Environment κ :=
  env.modifyCommands place.1 fun commands => commands.insert place.2 command

theorem rename_none (h : env.commandEntry? old = none) :
    env.rename old new = .error (.noCommandToRename old) := by
  rw [rename, h]

/-- A command that was found goes, if the new name is empty, or comes in the place for the new name,
which has to be free. -/
theorem rename_some (h : env.commandEntry? old = some place)
    (hget : (env.commandsOf place.1).get? place.2 = some command) :
    env.rename old new =
      if new = "" then .ok (env.withoutCommand place)
      else env.commandHome new >>= fun home =>
        if (env.commandsOf home.1).contains home.2 = true then .error (.nameTaken new)
        else .ok ((env.withoutCommand place).withCommandAt home command) := by
  rw [rename, h]
  dsimp only
  by_cases hnew : new = ""
  · rw [if_pos hnew, if_pos (by rw [hnew]; rfl)]
    rfl
  · rw [if_neg hnew, if_neg (by simpa using hnew)]
    cases env.commandHome new with
    | error fault => rfl
    | ok home =>
      dsimp only [bind, Except.bind]
      rw [hget]
      split <;> rfl

theorem commandsOf_withoutCommand (h : env.DistinctCommands) (place : NamespaceId × String)
    (id : NamespaceId) : (env.withoutCommand place).commandsOf id = env.commandsBut place id := by
  rw [withoutCommand, commandsOf_modifyCommands, commandsBut]
  split
  · exact Table.erase_eq_others (h id)
  · rfl

theorem not_mem_commandsBut (env : Environment κ) (place : NamespaceId × String) :
    place.2 ∉ Table.names (env.commandsBut place place.1) := by
  rw [commandsBut, if_pos rfl]
  exact Table.not_mem_names_others _ _

theorem commandsBut_subset (env : Environment κ) (place : NamespaceId × String)
    (id : NamespaceId) :
    Table.names (env.commandsBut place id) ⊆ Table.names (env.commandsOf id) := by
  rw [commandsBut]
  split
  · exact Table.names_others_subset _ _
  · exact List.Subset.refl _

/-- A command that comes in a free place leaves all others alone. -/
theorem commandsBut_withCommandAt {home : NamespaceId × String}
    (hfree : home.2 ∉ Table.names (env.commandsOf home.1)) (command : Executable κ)
    (id : NamespaceId) :
    (env.withCommandAt home command).commandsBut home id = env.commandsOf id := by
  rw [commandsBut, withCommandAt, commandsOf_modifyCommands]
  split
  · rename_i hid
    subst hid
    exact Table.others_insert_new hfree command
  · rfl

theorem commandsOf_withCommandAt {home : NamespaceId × String} (command : Executable κ)
    (hne : place ≠ home) :
    ((env.withCommandAt home command).commandsOf place.1).get? place.2 =
      (env.commandsOf place.1).get? place.2 := by
  rw [withCommandAt, commandsOf_modifyCommands]
  split
  · rename_i hid
    exact Table.get?_insert_of_ne command fun htail => hne (Prod.ext hid htail.symm)
  · rfl

/-- One command, found at a place by its old name, has come under a new name or gone. -/
structure Renamed (env env' : Environment κ) (old new : String) (place : NamespaceId × String)
    (command : Executable κ) : Prop where
  entry : env.commandEntry? old = some place
  meaning : env.command? old = some command
  gone : place.2 ∉ Table.names (env'.commandsOf place.1)
  same : env.SameButCommands env'
  removed : new = "" → ∀ id, env'.commandsOf id = env.commandsBut place id
  moved : new ≠ "" → env'.command? new = some command ∧
    ∃ home, env'.commandEntry? new = some home ∧
      ∀ id, env'.commandsBut home id = env.commandsBut place id

/-- The place for the new name is there and free, if a place is wanted. -/
def Placeable (env : Environment κ) (new : String) : Prop :=
  new = "" ∨ ∃ home, env.commandHome new = .ok home ∧
    home.2 ∉ Table.names (env.commandsOf home.1)

theorem renamed_of_empty (hdistinct : env.DistinctCommands)
    (hentry : env.commandEntry? old = some place) (hmeaning : env.command? old = some command) :
    env.Renamed (env.withoutCommand place) old "" place command where
  entry := hentry
  meaning := hmeaning
  gone := by
    rw [commandsOf_withoutCommand hdistinct]
    exact not_mem_commandsBut env place
  same := .modifyCommands env place.1 _
  removed _ id := commandsOf_withoutCommand hdistinct place id
  moved h := absurd rfl h

theorem renamed_of_home (hdistinct : env.DistinctCommands) {home : NamespaceId × String}
    (hentry : env.commandEntry? old = some place) (hmeaning : env.command? old = some command)
    (hnew : new ≠ "") (hhome : env.commandHome new = .ok home)
    (hfree : home.2 ∉ Table.names (env.commandsOf home.1)) :
    env.Renamed ((env.withoutCommand place).withCommandAt home command) old new place command := by
  have hwithout := commandsOf_withoutCommand hdistinct place
  have hfree' : home.2 ∉ Table.names ((env.withoutCommand place).commandsOf home.1) := by
    rw [hwithout]
    exact fun hmem => hfree (commandsBut_subset env place home.1 hmem)
  have hsame : env.SameButCommands ((env.withoutCommand place).withCommandAt home command) :=
    .trans (.modifyCommands env place.1 _) (.modifyCommands _ home.1 _)
  -- The old place is taken and the new one free, so they are two.
  have hne : place ≠ home := by
    rintro rfl
    obtain ⟨command, hget, -⟩ := get?_of_commandEntry? hentry
    exact hfree (List.mem_map_of_mem (Table.mem_of_get? hget))
  have hget : (((env.withoutCommand place).withCommandAt home command).commandsOf home.1).get?
      home.2 = some command := by
    rw [withCommandAt, commandsOf_modifyCommands, if_pos rfl]
    exact Table.get?_insert_self _ _ _
  obtain ⟨hfound, hcommand⟩ :=
    commandEntry?_of_commandHome ((hsame.commandHome new).trans hhome) hget
  refine ⟨hentry, hmeaning, ?_, hsame, fun h => absurd h hnew, fun _ => ⟨hcommand, home, hfound,
    fun id => ?_⟩⟩
  · rw [← Table.get?_eq_none_iff, commandsOf_withCommandAt command hne, hwithout,
      Table.get?_eq_none_iff]
    exact not_mem_commandsBut env place
  · rw [commandsBut_withCommandAt hfree', hwithout]

theorem renamed_of_rename (hdistinct : env.DistinctCommands)
    (h : env.rename old new = .ok env') :
    ∃ place command, env.Renamed env' old new place command := by
  cases hentry : env.commandEntry? old with
  | none => rw [rename_none hentry] at h; cases h
  | some place =>
    obtain ⟨command, hget, hmeaning⟩ := get?_of_commandEntry? hentry
    refine ⟨place, command, ?_⟩
    rw [rename_some hentry hget] at h
    by_cases hnew : new = ""
    · subst hnew
      cases h
      exact renamed_of_empty hdistinct hentry hmeaning
    · rw [if_neg hnew] at h
      obtain ⟨home, hhome, h⟩ := exists_of_bind_eq_ok h
      split at h
      · cases h
      · rename_i hfree
        cases h
        rw [Bool.not_eq_true, Table.contains_eq_false_iff] at hfree
        exact renamed_of_home hdistinct hentry hmeaning hnew hhome hfree

theorem exists_rename_iff :
    (∃ env', env.rename old new = .ok env') ↔ env.hasCommand old = true ∧ env.Placeable new := by
  rw [← isSome_commandEntry?]
  cases hentry : env.commandEntry? old with
  | none => simp [rename_none hentry]
  | some place =>
    obtain ⟨command, hget, -⟩ := get?_of_commandEntry? hentry
    rw [rename_some hentry hget, Placeable]
    by_cases hnew : new = ""
    · simp [hnew]
    · cases hhome : env.commandHome new with
      | error fault => simp [hnew, bind, Except.bind]
      | ok home =>
        simp only [hnew, ↓reduceIte, bind, Except.bind, Except.ok.injEq, Option.isSome_some,
          true_and, false_or, exists_eq_left', ← Table.contains_eq_false_iff]
        cases (env.commandsOf home.1).contains home.2 <;> simp

/-- **A command that is renamed moves alone.** Where renaming is refused the state is as it was. It
is allowed if the old name is found and the new one is empty or has a place that is free. Then the
entry that the old name meant is gone; the new name, unless it is empty, means from the same
namespace what the old one meant; and all other commands of all namespaces are as they were, in
their order, and so is all that is not a command. -/
theorem commands_move_alone (s : State κ) (hdistinct : s.interp.env.DistinctCommands)
    (old new : String) :
    (∀ stop t, Act.edit (fun env => env.rename old new) s = .error stop t → t = s) ∧
    ((∃ t, Act.edit (fun env => env.rename old new) s = .ok () t) ↔
      s.interp.env.hasCommand old = true ∧ s.interp.env.Placeable new) ∧
    ∀ t, Act.edit (fun env => env.rename old new) s = .ok () t →
      ∃ place command, s.interp.env.Renamed t.interp.env old new place command := by
  rw [Act.edit_eq, ← exists_rename_iff]
  cases hrename : s.interp.env.rename old new with
  | error fault => simp
  | ok env' =>
    refine ⟨?_, by simp, fun t h => ?_⟩
    · intro stop t h
      cases h
    · cases h
      exact renamed_of_rename hdistinct hrename

/-- From a namespace `n`, a command of the root that is hidden by none of its own. -/
theorem commands_move_alone_from_namespace :
    let command : Executable Builtin := .native .set true
    let env : Environment Builtin :=
      { namespaces :=
          { nodes :=
              [{ name := "", parent := none, children := [("m", 1), ("n", 2)],
                 commands := [("puts", .native .puts true), ("set", command),
                   ("unset", .native .unset true)] },
                { name := "m", parent := some 0 },
                { name := "n", parent := some 0, commands := [("puts", command)] }] }
        stack := { top := { storage := .shared 2, namespaceId := 2 },
                   below := [.bottom NamespaceTree.root] } }
    env.DistinctCommands ∧
      ∃ t, Act.edit (fun env => env.rename "set" "m::put") (State.standard.withEnv env) = .ok () t ∧
        t.interp.env.command? "m::put" = some command ∧
        t.interp.env.commandNames = ["puts", "unset"] := by
  intro command env
  have hdistinct : env.DistinctCommands := by
    intro id
    rcases id with _ | _ | _ | id
    · decide +kernel
    · decide +kernel
    · decide +kernel
    · exact List.nodup_nil
  have h := commands_move_alone (State.standard.withEnv env) hdistinct "set" "m::put"
  have hhome : env.Placeable "m::put" := .inr ⟨(1, "put"), rfl, by decide +kernel⟩
  obtain ⟨t, ht⟩ := h.2.1.2 ⟨rfl, hhome⟩
  obtain ⟨place, moved, hrenamed⟩ := h.2.2 t ht
  have hmoved : some command = some moved := hrenamed.meaning
  refine ⟨hdistinct, t, ht, ?_, ?_⟩
  · rw [hmoved]
    exact (hrenamed.moved (by decide)).1
  · cases ht
    decide +kernel

end Environment

end CommandScript
