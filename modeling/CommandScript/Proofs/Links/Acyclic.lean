import CommandScript.Proofs.Links.Cycles

/-!
# Links that never lead back

Making a link is refused if the link would be its own target. That is not enough: a link may lead
back to itself by way of others, and in the frame of a namespace its target may be its own entry
under another name. Whoever looks up a variable on such a cycle gives up after so many links, so
that it can neither be read nor set nor unset. But nothing else makes a cycle, and of the links
those out of a procedure to a level below it never do, so neither do `global` and `variable` in a
procedure. As long as links do not lead back to themselves when they are made, and those made in a
namespace lead to the global level, every look-up ends, at no entry twice.

* `Environment.Woven`: what work on variables makes of a new interpreter.
* `Environment.look_ups_end`: in such an environment no links lead back.
* `Environment.global_link_to_itself`: a link that does.
-/

namespace CommandScript

open CommandScript.Action (bind_ok bind_error)
open Relation (TransGen)

namespace Environment

variable {κ : Type} {env env' : Environment κ} {slot : Slot} {name target : String} {level : Nat}

/-! ## Environments in order -/

namespace Orderly

theorem create (registry : Registry κ) (safe : Bool) :
    (Interp.create registry safe).env.Orderly := by
  have hnamespace : ∀ id,
      (Table.names ((Interp.create registry safe).env.scope (.inNamespace id))).Nodup := by
    intro id
    cases id with
    | zero => exact List.nodup_singleton "errorInfo"
    | succ id => exact List.nodup_nil
  refine ⟨(Interp.holdsHere_create registry safe).env, rfl, fun slot hslot => ?_⟩
  cases slot with
  | inNamespace id => exact hnamespace id
  | frame d =>
    obtain rfl : d = 0 := Nat.le_zero.1 hslot
    exact hnamespace NamespaceTree.root

theorem modifyScope {f : Table Value → Table Value} (h : env.Orderly)
    (hslot : slot.Within env.depth) (hlinks : (env.modifyScope slot f).Holds .linkFree (· = 0))
    (hf : ∀ vars, (Table.names vars).Nodup → (Table.names (f vars)).Nodup) :
    (env.modifyScope slot f).Orderly where
  links := hlinks
  bottom := by
    rw [Stack.frame_shape (shape_modifyScope env slot f) (Nat.zero_le _)]
    exact h.bottom
  nodup slot' hslot' := by
    rw [depth_modifyScope] at hslot'
    rw [scope_modifyScope f hslot hslot']
    split
    · exact hf _ (h.nodup slot hslot)
    · exact h.nodup slot' hslot'

theorem assign {v : Value} (h : env.Orderly) (hslot : slot.Within env.depth)
    (hlinks : (env.assign slot name v).Holds .linkFree (· = 0)) :
    (env.assign slot name v).Orderly :=
  h.modifyScope hslot hlinks fun _ hvars => Table.nodup_names_insert hvars _ _

theorem erase (h : env.Orderly) (hslot : slot.Within env.depth) :
    (env.modifyScope slot fun vars => vars.erase name).Orderly :=
  h.modifyScope hslot (h.links.erase slot name) fun vars hvars =>
    hvars.sublist (Table.names_erase_sublist vars name)

theorem link (h : env.Orderly) (hlevel : env.stack.top.isOwn = true ∨ level = 0)
    (hlink : env.link level target name = .ok env') : env'.Orderly := by
  have hedit : env.Edit .linkFree (· = 0) env' := .link hlevel hlink
  obtain ⟨_, _, rfl⟩ := exists_of_link hlink
  exact h.assign (Slot.within_frame (Nat.le_refl _)) (hedit.holds h.links)

theorem pushed {frame : Frame} (h : env.Orderly) (hframe : frame.Holds .linkFree (env.depth + 1))
    (hnodup : ∀ vars, frame.storage = .own vars → (Table.names vars).Nodup) :
    (env.pushed frame).Orderly := by
  have hframe? : ∀ d, (env.pushed frame).stack.frame? d =
      if d = env.depth + 1 then some frame else env.stack.frame? d :=
    Stack.frame?_push env.stack frame
  have hbelow : ∀ d ≤ env.depth, (env.pushed frame).stack.frame d = env.stack.frame d := by
    intro d hd
    refine Stack.frame_eq_of_frame? ?_
    rw [hframe?, if_neg (by omega)]
    exact Stack.frame?_of_le hd
  refine ⟨⟨h.links.namespaces, h.links.stack.push hframe⟩, ?_, fun slot hslot => ?_⟩
  · rw [hbelow 0 (Nat.zero_le _)]
    exact h.bottom
  · cases slot with
    | inNamespace id => exact h.nodup (.inNamespace id) hslot
    | frame d =>
      by_cases hlast : d = env.depth + 1
      · have htop : (env.pushed frame).stack.frame d = frame :=
          Stack.frame_eq_of_frame? (by rw [hframe?, if_pos hlast])
        cases hstorage : frame.storage with
        | own vars =>
          rw [scope, htop, hstorage]
          exact hnodup vars hstorage
        | shared id =>
          rw [scope, htop, hstorage]
          exact h.nodup (.inNamespace id) trivial
      · have hd : d ≤ env.depth := Nat.le_of_lt_succ (Nat.lt_of_le_of_ne hslot hlast)
        rw [scope, hbelow d hd]
        exact h.nodup (.frame d) hd

theorem returned (h : env.Orderly) : env.returned.Orderly := by
  have hle : env.depth - 1 ≤ env.depth := Nat.sub_le _ _
  refine ⟨⟨h.links.namespaces, h.links.stack.pop⟩, ?_, fun slot hslot => ?_⟩
  · rw [returned_eq_atLevel]
    show ((env.stack.upTo (env.depth - 1)).frame 0).shape.shared = _
    rw [Stack.frame_upTo hle (Nat.zero_le _)]
    exact h.bottom
  · rw [returned_eq_atLevel] at hslot ⊢
    rw [depth_atLevel hle] at hslot
    rw [scope_atLevel hle hslot]
    refine h.nodup slot ?_
    cases slot with
    | frame d => exact Nat.le_trans hslot hle
    | inNamespace id => trivial

theorem withNamespaces {namespaces : NamespaceTree κ} (h : env.Orderly)
    (hextends : env.namespaces.Extends namespaces) (hlinks : namespaces.Holds .linkFree (· = 0)) :
    ({ env with namespaces } : Environment κ).Orderly where
  links := h.links.withNamespaces hlinks
  bottom := h.bottom
  nodup slot hslot := by
    rw [scope_withNamespaces hextends]
    exact h.nodup slot hslot

theorem withCommand (h : env.Orderly) {words : List Value} (hwords : ∀ w ∈ words, w.LinkFree) :
    ({ env with stack := env.stack.modifyTop fun f => { f with command := words } } :
      Environment κ).Orderly := by
  have hsame := SameVariables.withCommand env words
  refine ⟨⟨h.links.namespaces, h.links.stack.withCommand hwords⟩, ?_, fun slot hslot => ?_⟩
  · rw [Frame.shape, hsame.storage]
    exact h.bottom
  · rw [hsame.scope]
    exact h.nodup slot hslot

end Orderly

end Environment

/-! ## Declarations -/

/-- A name that starts at the root. -/
def Name.Absolute (name : String) : Prop := ∃ rest, name.toList = ':' :: ':' :: rest

theorem Name.absolute_append (rest : String) : Name.Absolute ("::" ++ rest) :=
  ⟨rest.toList, by rw [String.toList_append]; rfl⟩

theorem Name.not_plain_of_absolute {name : String} (h : Name.Absolute name) :
    ¬ Name.Plain (Name.splitIndex name).1 := by
  obtain ⟨rest, hrest⟩ := h
  have hstarts : ∀ cs : List Char, "::".toList <:+: ':' :: ':' :: cs := fun cs => ⟨[], cs, rfl⟩
  have hname : "::".toList <:+: name.toList := hrest ▸ hstarts rest
  refine not_not_intro ?_
  unfold Name.splitIndex
  dsimp only
  split
  · split
    · rw [hrest]
      show "::".toList <:+: (String.ofList _).toList
      rw [String.toList_ofList (l := List.takeWhile _ _)]
      exact hstarts _
    · exact hname
  · exact hname

namespace Action

/-- A sequence of two actions that completes is made of two that do. -/
theorem exists_of_bind_ok {σ α β : Type} {x : Action σ α} {f : α → Action σ β} {s u : σ} {b : β}
    (h : (x >>= f) s = .ok b u) : ∃ a t, x s = .ok a t ∧ f a t = .ok b u := by
  cases hx : x s with
  | ok a t => exact ⟨a, t, rfl, (bind_ok hx).symm.trans h⟩
  | error e t => cases (bind_error hx).symm.trans h

end Action

namespace Act

variable {κ ε : Type} [Fault ε] {s t : State κ}

theorem exists_of_edit {f : Environment κ → Except ε (Environment κ)}
    (h : Act.edit f s = .ok () t) : f s.interp.env = .ok t.interp.env := by
  rw [Act.edit_eq] at h
  split at h
  · rename_i env henv
    cases h
    exact henv
  · cases h

/-- What `variable` makes of an environment: in a procedure it links a name to the variable of the
namespace, which it then sets if it was given a value. -/
def Declares (v : Option Value) (env env' : Environment κ) : Prop :=
  ∃ target tail linked, Name.Absolute target ∧
    (linked = env ∨ env.stack.top.isOwn = true ∧ env.link env.depth target tail = .ok linked) ∧
    (env' = linked ∨ ∃ w, v = some w ∧ linked.set target w = .ok env')

/-- Where the namespace is found does not matter, only that finding it changes nothing. -/
theorem Declares.of_bind {find : Act κ NamespaceId} {qualified : NamespaceId → String}
    {tail : String} {v : Option Value} {after : NamespaceId → Act κ Unit}
    (hfind : ∀ id s', find s = .ok id s' → s' = s) (hqualified : ∀ id, Name.Absolute (qualified id))
    (hafter : ∀ id s', after id s' = .ok () t → t.interp.env = s'.interp.env ∨
      ∃ w, v = some w ∧ s'.interp.env.set (qualified id) w = .ok t.interp.env)
    (h : (find >>= fun id =>
      if s.interp.env.stack.top.isOwn then
        Act.edit (·.link s.interp.env.depth (qualified id) tail) >>= fun _ => after id
      else after id) s = .ok () t) :
    Declares v s.interp.env t.interp.env := by
  obtain ⟨id, s', hid, h⟩ := Action.exists_of_bind_ok h
  obtain rfl := hfind id s' hid
  split at h
  · rename_i htop
    obtain ⟨_, s'', hedit, h⟩ := Action.exists_of_bind_ok h
    exact ⟨qualified id, tail, s''.interp.env, hqualified id,
      .inr ⟨htop, exists_of_edit hedit⟩, hafter id s'' h⟩
  · exact ⟨qualified id, tail, s'.interp.env, hqualified id, .inl rfl, hafter id s' h⟩

theorem declares_of_declareVariable {name : String} {v : Option Value}
    (h : Act.declareVariable name v s = .ok () t) : Declares v s.interp.env t.interp.env := by
  unfold Act.declareVariable at h
  replace h := (bind_ok (show Act.env s = .ok s.interp.env s from rfl)).symm.trans h
  cases hsplit : Name.splitQualified name with
  | mk qualifiers tail =>
    rw [hsplit] at h
    dsimp only at h
    have hqualified : ∀ id, Name.Absolute (if id = NamespaceTree.root then "::" ++ tail
        else s.interp.env.namespaces.path id ++ "::" ++ tail) := by
      intro id
      split
      · exact Name.absolute_append tail
      · rw [NamespaceTree.path, String.append_assoc, String.append_assoc]
        exact Name.absolute_append _
    have hpure : ∀ (id id' : NamespaceId) s', (pure id : Act κ _) s = .ok id' s' → s' = s := by
      intro id id' s' h
      cases h
      rfl
    have hfound : ∀ (r : Except Environment.NoNamespace NamespaceId) id' s',
        (Action.ofExcept r : Act κ _) s = .ok id' s' → s' = s := by
      intro r id' s' h
      cases r with
      | ok id =>
        cases h
        rfl
      | error e => cases h
    cases v with
    | none =>
      have hafter : ∀ (qualified : NamespaceId → String) (id : NamespaceId) (s' : State κ),
          (pure () : Act κ Unit) s' = .ok () t → t.interp.env = s'.interp.env ∨
            ∃ w, none = some w ∧ s'.interp.env.set (qualified id) w = .ok t.interp.env := by
        intro _ _ s' h
        cases h
        exact .inl rfl
      split at h
      · exact .of_bind (hpure _) hqualified (hafter _) h
      · exact .of_bind (hpure _) hqualified (hafter _) h
      · exact .of_bind (hfound _) hqualified (hafter _) h
    | some v =>
      have hafter : ∀ (qualified : NamespaceId → String) (id : NamespaceId) (s' : State κ),
          Act.setVariable (qualified id) v s' = .ok () t → t.interp.env = s'.interp.env ∨
            ∃ w, some v = some w ∧ s'.interp.env.set (qualified id) w = .ok t.interp.env :=
        fun _ _ _ h => .inr ⟨v, rfl, exists_of_edit h⟩
      split at h
      · exact .of_bind (hpure _) hqualified (hafter _) h
      · exact .of_bind (hpure _) hqualified (hafter _) h
      · exact .of_bind (hfound _) hqualified (hafter _) h

end Act

/-! ## Straight links -/

theorem Value.LinkFree.not_link {v : Value} (h : v.LinkFree) (target : String) (depth : Nat) :
    v ≠ .link target depth := by
  rintro rfl
  cases h

theorem Procedure.nodup_bindInto {locals bound : Table Value} {ps : List Parameter}
    {args : List Value} (hlocals : (Table.names locals).Nodup)
    (h : Procedure.bindInto locals ps args = some bound) : (Table.names bound).Nodup := by
  induction ps generalizing locals args with
  | nil =>
    cases args with
    | nil =>
      cases h
      exact hlocals
    | cons v args => cases h
  | cons p rest ih =>
    unfold Procedure.bindInto at h
    split at h
    · cases h
      exact Table.nodup_names_insert hlocals _ _
    · split at h
      · exact ih (Table.nodup_names_insert hlocals _ _) h
      · exact ih (Table.nodup_names_insert hlocals _ _) h
      · cases h

theorem Procedure.nodup_bind {p : Procedure} {name : String} {args : List Value}
    {locals : Table Value} (h : p.bind name args = .ok locals) : (Table.names locals).Nodup := by
  unfold Procedure.bind at h
  split at h
  · rename_i bound hbound
    cases h
    exact nodup_bindInto (show (Table.names ([] : Table Value)).Nodup from List.nodup_nil) hbound
  · cases h

namespace Environment

variable {κ : Type} {env env' : Environment κ} {slot : Slot} {name target : String} {level : Nat}

/-- Links are in their places and do not lead back. -/
structure Straight (env : Environment κ) : Prop where
  orderly : env.Orderly
  acyclic : env.Acyclic

namespace Straight

theorem create (registry : Registry κ) (safe : Bool) :
    (Interp.create registry safe).env.Straight := by
  have hroot : ∀ id key target depth,
      ((Interp.create registry safe).env.scope (.inNamespace id)).get? key ≠
        some (.link target depth) := by
    intro id key target depth hget
    have hmem := Table.mem_of_get? hget
    cases id with
    | zero => cases List.mem_singleton.1 hmem
    | succ id => cases hmem
  refine ⟨Orderly.create registry safe, fun e hloops => ?_⟩
  have hproper := proper_of_transGen hloops
  obtain ⟨_, ⟨target, depth, hget, _⟩, _⟩ := TransGen.head'_iff.1 hloops
  obtain ⟨slot, key⟩ := e
  cases slot with
  | inNamespace id => exact hroot id key target depth hget
  | frame d =>
    obtain rfl : d = 0 := Nat.le_zero.1 hproper.within
    exact hroot NamespaceTree.root key target depth hget

theorem assign {v : Value} (h : env.Straight) (hslot : slot.Within env.depth) (hv : v.LinkFree) :
    (env.assign slot name v).Straight where
  orderly := h.orderly.assign hslot (h.orderly.links.assign slot name hv)
  acyclic := h.acyclic.assign hslot (not_loops_of_value hslot hv.not_link)

theorem set {v : Value} (h : env.Straight) (hv : v.LinkFree) (hset : env.set name v = .ok env') :
    env'.Straight := by
  have hlinks := (Edit.set h.orderly.links hv hset).holds h.orderly.links
  obtain ⟨l, w, hl, hstores, rfl⟩ := exists_of_set hset
  have hslot := within_of_locate hl
  have hw := hstores.ne_link hv.not_link
  exact ⟨h.orderly.assign hslot hlinks, h.acyclic.assign hslot (not_loops_of_value hslot hw)⟩

theorem unset (h : env.Straight) (hunset : env.unset name = .ok env') : env'.Straight := by
  have hlinks := (Edit.unset h.orderly.links hunset).holds h.orderly.links
  obtain ⟨l, hl, hafter⟩ := exists_of_unset hunset
  have hslot := within_of_locate hl
  rcases hafter with rfl | ⟨entries, i, -, rfl⟩
  · exact ⟨h.orderly.erase hslot, h.acyclic.erase h.orderly hslot (h.orderly.erase hslot)⟩
  · exact ⟨h.orderly.assign hslot hlinks,
      h.acyclic.assign hslot (not_loops_of_value hslot fun _ _ hlink => by cases hlink)⟩

theorem link (h : env.Straight) (hlevel : env.stack.top.isOwn = true ∨ level = 0)
    (hlink : env.link level target name = .ok env') (hloops : ¬ env'.Loops (env.here name)) :
    env'.Straight :=
  ⟨h.orderly.link hlevel hlink, h.acyclic.link hlink hloops⟩

/-- A link out of a procedure to a level below it does not lead back. -/
theorem not_loops_of_lt (h : env.Straight) (htop : env.stack.top.isOwn = true)
    (hlevel : level < env.depth) (hlink : env.link level target name = .ok env') :
    ¬ env'.Loops (env.here name) := by
  have horderly := h.orderly.link (.inl htop) hlink
  refine horderly.not_loops_of_low htop hlink fun e he => ?_
  have hheight := (horderly.height_entryAt? he).1
  omega

/-- Neither does one to a variable of a namespace. -/
theorem not_loops_of_absolute (h : env.Straight) (htop : env.stack.top.isOwn = true)
    (habsolute : Name.Absolute target) (hlink : env.link level target name = .ok env') :
    ¬ env'.Loops (env.here name) := by
  have horderly := h.orderly.link (.inl htop) hlink
  refine horderly.not_loops_of_low htop hlink fun e he => ?_
  obtain ⟨⟨slot, key⟩, hplace, rfl⟩ := Option.map_eq_some_iff.1 he
  cases slot with
  | inNamespace id => exact Nat.zero_le _
  | frame d =>
    have hplain := Name.plain_of_splitQualified (owner?_of_slotOf? hplace).1
    exact absurd hplain (Name.not_plain_of_absolute habsolute)

theorem declare (h : env.Straight) {v : Option Value} (hv : ∀ w, v = some w → w.LinkFree)
    (hdeclares : Act.Declares v env env') : env'.Straight := by
  obtain ⟨target, tail, linked, habsolute, hlinked, hset⟩ := hdeclares
  have hstraight : linked.Straight := by
    rcases hlinked with rfl | ⟨htop, hlink⟩
    · exact h
    · exact h.link (.inl htop) hlink (h.not_loops_of_absolute htop habsolute hlink)
  rcases hset with rfl | ⟨w, hw, hset⟩
  · exact hstraight
  · exact hstraight.set (hv w hw) hset

theorem withNamespaces {namespaces : NamespaceTree κ} (h : env.Straight)
    (hextends : env.namespaces.Extends namespaces) (hlinks : namespaces.Holds .linkFree (· = 0)) :
    ({ env with namespaces } : Environment κ).Straight :=
  ⟨h.orderly.withNamespaces hextends hlinks, h.acyclic.withNamespaces hextends⟩

theorem pushed {frame : Frame} (h : env.Straight) (hframe : frame.Holds .linkFree (env.depth + 1))
    (hfree : ∀ vars, frame.storage = .own vars → ∀ e ∈ vars, e.2.LinkFree)
    (hnodup : ∀ vars, frame.storage = .own vars → (Table.names vars).Nodup) :
    (env.pushed frame).Straight :=
  have horderly := h.orderly.pushed hframe hnodup
  ⟨horderly, h.acyclic.pushed horderly hfree⟩

theorem returned (h : env.Straight) : env.returned.Straight :=
  ⟨h.orderly.returned, h.acyclic.returned h.orderly⟩

theorem withCommand (h : env.Straight) {words : List Value} (hwords : ∀ w ∈ words, w.LinkFree) :
    ({ env with stack := env.stack.modifyTop fun f => { f with command := words } } :
      Environment κ).Straight :=
  ⟨h.orderly.withCommand hwords, h.acyclic.sameVariables (SameVariables.withCommand env words)⟩

theorem modifyCommands {id : NamespaceId} {f : Table (Executable κ) → Table (Executable κ)}
    (h : env.Straight) (hlinks : (env.modifyCommands id f).Holds .linkFree (· = 0)) :
    (env.modifyCommands id f).Straight :=
  h.withNamespaces (.updateCommands env.namespaces id f) hlinks.namespaces

theorem define {parameters body : Value} (h : env.Straight) (hparameters : parameters.LinkFree)
    (hbody : body.LinkFree) (hdefine : env.defineProcedure name parameters body = .ok env') :
    env'.Straight := by
  have hlinks := (Edit.defineProcedure hparameters hbody hdefine).holds h.orderly.links
  unfold defineProcedure at hdefine
  split at hdefine
  · cases hdefine
  · split at hdefine <;> cases hdefine
    exact h.modifyCommands hlinks

theorem call {p : Procedure} {words : List Value} {locals : Table Value} (h : env.Straight)
    (hp : p.Has .linkFree) (hwords : ∀ w ∈ words, w.LinkFree)
    (hbind : p.bind (words.headD {}).text words.tail = .ok locals) :
    (env.pushed
      { storage := .own locals, namespaceId := p.namespaceId, invocation := words }).Straight := by
  have hlocals := hp.bind (fun w hw => hwords w (List.mem_of_mem_tail hw)) hbind
  refine h.pushed ⟨?_, hwords, fun w hw => by cases hw⟩ ?_ ?_
  · rintro vars ⟨⟩ e he
    exact .value (hlocals e he)
  · rintro vars ⟨⟩
    exact hlocals
  · rintro vars ⟨⟩
    exact Procedure.nodup_bind hbind

theorem enter (h : env.Straight) (path : String) :
    (({ env with namespaces := (env.namespaces.ensure env.current path).2 } : Environment κ).pushed
      { storage := .shared (env.namespaces.ensure env.current path).1,
        namespaceId := (env.namespaces.ensure env.current path).1,
        invocation := env.stack.top.command }).Straight := by
  have hensured := h.withNamespaces (.ensure env.current path)
    (h.orderly.links.namespaces.ensure env.current path)
  refine hensured.pushed ⟨?_, h.orderly.links.stack.top.command, fun w hw => by cases hw⟩ ?_ ?_
  all_goals
    rintro vars ⟨⟩

end Straight

/-! ## Work on variables -/

/-- What work on variables makes of a new interpreter's environment, as long as a link, when it is
made, does not lead back to itself, and one in a namespace leads to the global level. Another level
may have gone while the namespace still has the link, which then leads elsewhere. -/
inductive Woven (registry : Registry κ) : Environment κ → Prop
  | create (safe : Bool) : Woven registry (Interp.create registry safe).env
  | run {env : Environment κ} {words : List Value} : Woven registry env →
      (∀ w ∈ words, w.LinkFree) →
      Woven registry
        { env with stack := env.stack.modifyTop fun f => { f with command := words } }
  | record {env : Environment κ} (info : String) {code : Value} : Woven registry env →
      code.LinkFree →
      Woven registry
        ((env.assign (.inNamespace NamespaceTree.root) "errorInfo" (.string info)).assign
          (.inNamespace NamespaceTree.root) "errorCode" code)
  | define {env env' : Environment κ} {name : String} {parameters body : Value} :
      Woven registry env → parameters.LinkFree → body.LinkFree →
      env.defineProcedure name parameters body = .ok env' → Woven registry env'
  | set {env env' : Environment κ} {name : String} {v : Value} : Woven registry env →
      v.LinkFree → env.set name v = .ok env' → Woven registry env'
  | unset {env env' : Environment κ} {name : String} : Woven registry env →
      env.unset name = .ok env' → Woven registry env'
  | upvar {env env' : Environment κ} {level : Nat} {target name : String} : Woven registry env →
      env.link level target name = .ok env' → env.stack.top.isOwn = true ∨ level = 0 →
      env.stack.top.isOwn = true ∧ level < env.depth ∨ ¬ env'.Loops (env.here name) →
      Woven registry env'
  | global {env env' : Environment κ} {name : String} : Woven registry env →
      env.linkGlobal name = .ok env' →
      env.depth = 0 ∨ env.stack.top.isOwn = true ∨
        ¬ env'.Loops (env.here (Name.splitQualified name).2) →
      Woven registry env'
  | declare {s t : State κ} {name : String} {v : Option Value} : Woven registry s.interp.env →
      (∀ w, v = some w → w.LinkFree) → Act.declareVariable name v s = .ok () t →
      Woven registry t.interp.env
  | call {env : Environment κ} {p : Procedure} {words : List Value} {locals : Table Value} :
      Woven registry env → p.Has .linkFree → (∀ w ∈ words, w.LinkFree) →
      p.bind (words.headD {}).text words.tail = .ok locals →
      Woven registry (env.pushed
        { storage := .own locals, namespaceId := p.namespaceId, invocation := words })
  | enter {env : Environment κ} (path : String) : Woven registry env →
      Woven registry
        (({ env with namespaces := (env.namespaces.ensure env.current path).2 } :
          Environment κ).pushed
          { storage := .shared (env.namespaces.ensure env.current path).1,
            namespaceId := (env.namespaces.ensure env.current path).1,
            invocation := env.stack.top.command })
  | leave {env : Environment κ} : Woven registry env → Woven registry env.returned

theorem Woven.straight {registry : Registry κ} (h : Woven registry env) : env.Straight := by
  induction h with
  | create safe => exact .create registry safe
  | run _ hwords ih => exact ih.withCommand hwords
  | record info _ hcode ih =>
    have hinfo : (Environment.assign _ (.inNamespace NamespaceTree.root) "errorInfo"
        (.string info)).Straight := ih.assign trivial (.string info)
    exact hinfo.assign trivial hcode
  | define _ hparameters hbody hdefine ih => exact ih.define hparameters hbody hdefine
  | set _ hv hset ih => exact ih.set hv hset
  | unset _ hunset ih => exact ih.unset hunset
  | upvar _ hlink hlevel hback ih =>
    refine ih.link hlevel hlink ?_
    rcases hback with ⟨htop, hlow⟩ | hback
    · exact ih.not_loops_of_lt htop hlow hlink
    · exact hback
  | @global env env' name _ hlink hback ih =>
    unfold linkGlobal at hlink
    split at hlink
    · cases hlink
      exact ih
    · rename_i hdepth
      refine ih.link (.inr rfl) hlink ?_
      rcases hback with hzero | htop | hback
      · exact absurd hzero hdepth
      · exact ih.not_loops_of_lt htop (Nat.pos_of_ne_zero hdepth) hlink
      · exact hback
  | declare _ hv hdeclare ih => exact ih.declare hv (Act.declares_of_declareVariable hdeclare)
  | call _ hp hwords hbind ih => exact ih.call hp hwords hbind
  | enter path _ ih => exact ih.enter path
  | leave _ ih => exact ih.returned

/-! ## Look-ups -/

/-- What a look-up ends at: an entry that holds no link, or nothing; a name in a namespace that does
not exist; or a link to an element where an element of the variable is wanted already. -/
inductive EndsAt (env : Environment κ) (lead : Lead) : Prop
  | entry {e : Entry} : env.entryAt? lead.name lead.depth = some e →
      (∀ target depth, (env.scope e.slot).get? e.key ≠ some (.link target depth)) → EndsAt env lead
  | noNamespace : env.entryAt? lead.name lead.depth = none → EndsAt env lead
  | element {e : Entry} {target : String} {depth : Nat} :
      env.entryAt? lead.name lead.depth = some e →
      (env.scope e.slot).get? e.key = some (.link target depth) → lead.index.isSome = true →
      (Name.splitIndex target).2.isSome = true → EndsAt env lead

theorem endsAt_of_isEnd {lead : Lead} (h : (env.turn lead).isEnd = true) : env.EndsAt lead := by
  cases hplace : env.slotOf? lead.name lead.depth with
  | none => exact .noNamespace (by rw [entryAt?, hplace]; rfl)
  | some place =>
    obtain ⟨slot, key⟩ := place
    have hentry : env.entryAt? lead.name lead.depth = some ⟨env.home slot, key⟩ := by
      rw [entryAt?, hplace]
      rfl
    have hscope : env.scope (env.home slot) = env.scope slot := env.scope_home slot
    rcases turn_of_slotOf? hplace with ⟨target, depth, hget, hturn⟩ | ⟨hnot, _⟩
    · rw [hturn] at h
      unfold Turn.ofLink at h
      split at h
      · rename_i hsplit hindex
        exact .element hentry (hscope ▸ hget) (by rw [hindex]; rfl) (by rw [hsplit]; rfl)
      · cases h
      · cases h
    · exact .entry hentry (hscope.symm ▸ hnot)

/-- A link that leads back to itself has itself for a target, or another link. -/
theorem target_of_loops (hlink : env.link level target name = .ok env')
    (hloops : env'.Loops (env.here name)) :
    ∃ e, env'.entryAt? (Name.splitIndex target).1 (min level env'.depth) = some e ∧
      (e = env.here name ∨
        ∃ target' depth, (env'.scope e.slot).get? e.key = some (.link target' depth)) := by
  obtain ⟨e, hnext, hback⟩ := TransGen.head'_iff.1 hloops
  refine ⟨e, entryAt?_of_link hlink hnext, ?_⟩
  rcases hback.cases_head with heq | ⟨_, ⟨target', depth, hget, _⟩, _⟩
  · exact .inl heq
  · exact .inr ⟨target', depth, hget⟩

/-- No links lead back: every look-up ends, at no entry twice, and is given up after so many
distinct links only. Of the links that can be made, those make a cycle that lead back to themselves.
None of those out of a procedure to a level below do, nor do those to a variable that is no link. -/
theorem look_ups_end {registry : Registry κ} (h : Woven registry env) :
    env.Acyclic ∧
    (∀ lead : Lead, lead.depth ≤ env.depth → ∃ es last, env.Visits lead es last ∧
      env.EndsAt last ∧ (es ++ (env.entryAt? last.name last.depth).toList).Nodup) ∧
    (∀ name fault, env.locate name = .error fault →
      fault = .noNamespace name ∨ fault = .notArray .reach name ∨
      fault = .tooManyLinks name ∧ ∃ es last,
        env.Visits (.ofName name env.depth) es last ∧ es.Nodup ∧ es.length = maxLinks) ∧
    ∀ level target name env', env.link level target name = .ok env' →
      env.stack.top.isOwn = true ∨ level = 0 →
      (env'.Acyclic ↔ ¬ env'.Loops (env.here name)) ∧
      (env.stack.top.isOwn = true → level < env.depth → env'.Acyclic) ∧
      (¬ env'.Acyclic →
        ∃ e, env'.entryAt? (Name.splitIndex target).1 (min level env'.depth) = some e ∧
          (e = env.here name ∨
            ∃ target' depth, (env'.scope e.slot).get? e.key = some (.link target' depth))) := by
  have hstraight := h.straight
  refine ⟨hstraight.acyclic, fun lead hdepth => ?_, fun name fault hfault => ?_,
    fun level target name env' hlink hlevel => ?_⟩
  · obtain ⟨es, last, hvisits, hend⟩ := hstraight.acyclic.exists_end hdepth
    exact ⟨es, last, hvisits, endsAt_of_isEnd hend, hstraight.acyclic.nodup_visits hvisits⟩
  · rw [locate_eq_search] at hfault
    rcases fault_of_search hfault with rfl | rfl | rfl
    · exact .inl rfl
    · exact .inr (.inl rfl)
    · obtain ⟨es, last, hvisits, hlength⟩ := exists_visits_of_tooManyLinks hfault
      have hnodup := (List.nodup_append.1 (hstraight.acyclic.nodup_visits hvisits)).1
      exact .inr (.inr ⟨rfl, es, last, hvisits, hnodup, hlength⟩)
  · have hacyclic : ¬ env'.Loops (env.here name) → env'.Acyclic := fun hloops =>
      (hstraight.link hlevel hlink hloops).acyclic
    refine ⟨⟨fun hacyclic => hacyclic _, hacyclic⟩, fun htop hlow => ?_, fun hcycle => ?_⟩
    · exact hacyclic (hstraight.not_loops_of_lt htop hlow hlink)
    · exact target_of_loops hlink (Classical.not_not.1 (mt hacyclic hcycle))

/-- A procedure's `y` that stands for the global `x`: both end there. -/
theorem look_ups_end_upvar :
    let created := (Interp.create ([] : Registry Unit) false).env
    let called := created.pushed
      { storage := .own [], namespaceId := NamespaceTree.root, invocation := [.string "p"] }
    let linked := called.assign (.frame 1) "y" (.link "x" 0)
    called.link 0 "x" "y" = .ok linked ∧ linked.Acyclic ∧
      linked.locate "y" = .ok ⟨.frame 0, "x", none⟩ := by
  intro created called linked
  have hlink : called.link 0 "x" "y" = .ok linked := rfl
  have hcalled : Woven [] called := by
    refine .call (p := { parameters := [], body := .string "", namespaceId := NamespaceTree.root })
      (.create false) ⟨.string "", fun _ h => by cases h⟩ ?_ rfl
    exact List.forall_mem_singleton.2 (.string "p")
  have hlinked : Woven [] linked := .upvar hcalled hlink (.inl rfl) (.inl ⟨rfl, by decide⟩)
  exact ⟨hlink, (look_ups_end hlinked).1, rfl⟩

/-- In the frame of the root `global` makes a name a link to itself, and then the variable can
neither be read nor set nor unset. -/
theorem global_link_to_itself :
    let created := (Interp.create ([] : Registry Unit) false).env
    let ensured := created.namespaces.ensure created.current "::"
    let entered := { created with namespaces := ensured.2 }.pushed
      { storage := .shared ensured.1, namespaceId := ensured.1,
        invocation := created.stack.top.command }
    let linked := entered.assign (.frame 1) "x" (.link "x" 0)
    entered.linkGlobal "x" = .ok linked ∧
      linked.returned.read "x" = .error (.tooManyLinks "x") ∧
      linked.returned.set "x" (.string "1") = .error (.tooManyLinks "x") ∧
      linked.returned.unset "x" = .error (.tooManyLinks "x") :=
  ⟨rfl, rfl, rfl, rfl⟩

end Environment

end CommandScript
