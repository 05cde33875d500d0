import CommandScript.Proofs.Environment.Store

/-!
# Aliases

A link makes a local name another name for a variable as seen from a frame below. Reading, setting
and unsetting the local name is then the same as reading, setting and unsetting the variable in that
frame, with the frames above it taken off the stack and put back afterwards: the search from the
local name goes on, after one link, exactly as the search that starts below, since links that are
found at or below a frame lead no higher.

What was set through the link is what the variable reads once the procedure has returned, unless an
array had to be made for an element and hides the very link that led to the element: the array is
seen where the link was, and an array has no value.

* `Environment.turn_atLevel`: a search from a frame does not mind the frames above.
* `aliases_act_below`: operations on the local name are operations on the variable.
* `alias_hidden_by_new_variable`: a value set through a link that is not read back.
-/

namespace CommandScript

/-! ## Stacks taken apart and put together -/

namespace Stack

theorem toList_injective {s t : Stack} (h : s.toList = t.toList) : s = t := by
  obtain ⟨top, below⟩ := s
  obtain ⟨top', below'⟩ := t
  cases h
  rfl

theorem frame_upTo {s : Stack} {level depth : Nat} (hlevel : level ≤ s.depth) (h : depth ≤ level) :
    (s.upTo level).frame depth = s.frame depth := by
  have hframe := frame?_upTo hlevel depth
  rw [if_pos h, frame?_of_le (Nat.le_trans h hlevel)] at hframe
  exact frame_eq_of_frame? hframe

theorem upTo_putBack (frames : List Frame) (s : Stack) : (putBack frames s).upTo s.depth = s := by
  have hdepth : s.depth ≤ (putBack frames s).depth ∧
      (putBack frames s).depth - s.depth = frames.length := by
    have hlength := congrArg List.length (toList_putBack frames s)
    simp only [List.length_append, toList, List.length_cons, Stack.depth] at hlength ⊢
    omega
  refine toList_injective ?_
  rw [toList_upTo hdepth.1, toList_putBack, hdepth.2, List.drop_left]

theorem pop_putBack_cons (f : Frame) (rest : List Frame) (s : Stack) :
    (putBack (f :: rest) s).pop = putBack rest s := rfl

/-- A change of a frame is the same made with the frames above it off the stack. -/
theorem putBack_modify {s : Stack} {level depth : Nat} (hlevel : level ≤ s.depth)
    (h : depth ≤ level) (f : Frame → Frame) :
    putBack (s.above level) ((s.upTo level).modify depth f) = s.modify depth f := by
  have hcut : (s.upTo level).depth = level := depth_upTo hlevel
  have hindex : s.depth - depth = s.depth - level + (level - depth) := by omega
  refine toList_injective ?_
  rw [toList_putBack, toList_modify f (by omega), toList_modify f (by omega), toList_upTo hlevel,
    hcut, hindex, above]
  apply List.ext_getElem?
  intro i
  have hlength : (s.toList.take (s.depth - level)).length = s.depth - level := by
    simp only [List.length_take, toList, List.length_cons, Stack.depth]
    omega
  rcases Nat.lt_or_ge i (s.depth - level) with hi | hi
  · have hne : s.depth - level + (level - depth) ≠ i := by omega
    rw [List.getElem?_append_left (by omega), List.getElem?_take_of_lt hi,
      List.getElem?_modify_ne _ _ hne]
  · have hi' : s.depth - level + (i - (s.depth - level)) = i := by omega
    have hsame : level - depth = i - (s.depth - level) ↔ s.depth - level + (level - depth) = i := by
      omega
    rw [List.getElem?_append_right (by omega), hlength, List.getElem?_modify, List.getElem?_drop,
      List.getElem?_modify, hi']
    simp only [hsame]

theorem putBack_upTo {s : Stack} {level : Nat} (hlevel : level ≤ s.depth) :
    putBack (s.above level) (s.upTo level) = s := by
  refine toList_injective ?_
  rw [toList_putBack, toList_upTo hlevel, above, List.take_append_drop]

end Stack

/-! ## Seeing from a level -/

/-- The fault as it is reported of another name. -/
def VariableFault.naming (name : String) : VariableFault → VariableFault
  | noVariable access _ => noVariable access name
  | noElement access _ => noElement access name
  | isArray access _ => isArray access name
  | notArray access _ => notArray access name
  | noNamespace _ => noNamespace name
  | tooManyLinks _ => tooManyLinks name
  | oddElements => oddElements

/-- A name without index is all of the name. -/
theorem Name.splitIndex_of_none {name : String} (h : (Name.splitIndex name).2 = none) :
    Name.splitIndex name = (name, none) := by
  unfold splitIndex at h ⊢
  dsimp only at h ⊢
  split
  · split
    · simp_all
    · rfl
  · rfl

namespace Environment

variable {κ : Type} {env linked : Environment κ} {level : Nat} {slot : Slot} {lead next last : Lead}

/-- The environment without the frames above a level. -/
def atLevel (env : Environment κ) (level : Nat) : Environment κ :=
  { env with stack := env.stack.upTo level }

/-- The environment with frames put back on top. -/
def putBack (frames : List Frame) (env : Environment κ) : Environment κ :=
  { env with stack := Stack.putBack frames env.stack }

/-- The environment after the current procedure has returned. -/
def returned (env : Environment κ) : Environment κ := { env with stack := env.stack.pop }

/-- Links in a procedure's own variables lead no deeper than its frame, and those in namespaces to
the global frame. -/
structure LinksInPlace (env : Environment κ) : Prop where
  own : ∀ depth f vars, env.stack.frame? depth = some f → f.storage = .own vars →
    ∀ e ∈ vars, ∀ d ∈ e.2.linkDepth?, d ≤ depth
  shared : env.NamespaceLinks (· = 0)

/-- Links can be checked frame by frame. -/
theorem LinksInPlace.of_all
    (hown : (List.range (env.depth + 1)).all (fun depth =>
      match (env.stack.frame depth).storage with
      | .own vars => vars.all fun e => e.2.linkDepth?.all (· ≤ depth)
      | .shared _ => true) = true)
    (hshared : env.namespaces.nodes.all (fun n => n.vars.all fun e => e.2.linkDepth?.all (· == 0)) =
      true) : env.LinksInPlace where
  own depth f vars hf hvars e he d hd := by
    have hdepth : depth ∈ List.range (env.depth + 1) :=
      List.mem_range.2 (Nat.lt_succ_of_le (Stack.le_depth_of_frame? hf))
    have hvarsIn := List.all_eq_true.1 hown depth hdepth
    rw [Stack.frame_eq_of_frame? hf, hvars] at hvarsIn
    have hlink := List.all_eq_true.1 hvarsIn e he
    rw [Option.mem_def.1 hd] at hlink
    exact of_decide_eq_true hlink
  shared n hn e he d hd := by
    have hlink := List.all_eq_true.1 (List.all_eq_true.1 hshared n hn) e he
    rw [Option.mem_def.1 hd] at hlink
    exact eq_of_beq hlink

theorem depth_atLevel (h : level ≤ env.depth) : (env.atLevel level).depth = level :=
  Stack.depth_upTo h

theorem scope_atLevel (h : level ≤ env.depth) (hslot : slot.Within level) :
    (env.atLevel level).scope slot = env.scope slot := by
  cases slot with
  | frame depth => simp only [scope, atLevel, Stack.frame_upTo h hslot]
  | inNamespace id => rfl

theorem owner?_atLevel (h : level ≤ env.depth) (name : String) {depth : Nat}
    (hdepth : depth ≤ level) :
    (env.atLevel level).owner? name depth = env.owner? name depth := by
  induction depth with
  | zero => simp only [owner?, scope_atLevel h (Slot.within_frame hdepth)]
  | succ depth ih =>
    simp only [owner?, scope_atLevel h (Slot.within_frame hdepth), ih (Nat.le_of_succ_le hdepth)]

theorem slotOf?_atLevel (h : level ≤ env.depth) (name : String) {depth : Nat}
    (hdepth : depth ≤ level) : (env.atLevel level).slotOf? name depth = env.slotOf? name depth := by
  have hframe : (env.atLevel level).stack.frame depth = env.stack.frame depth :=
    Stack.frame_upTo h hdepth
  simp only [slotOf?, owner?_atLevel h name hdepth, hframe]
  rfl

/-- A link that is found at a level or below leads no higher. -/
theorem LinksInPlace.linkDepth_le (hlinks : env.LinksInPlace) (h : level ≤ env.depth)
    (hslot : slot.Within level) {key target : String} {depth : Nat}
    (hget : (env.scope slot).get? key = some (.link target depth)) : depth ≤ level := by
  have hcut : (env.atLevel level).depth = level := depth_atLevel h
  rw [← scope_atLevel h hslot] at hget
  rw [← hcut]
  refine Environment.linkDepth_le ?_ ?_ ?_ hget
  · intro depth f vars hframe
    have hframe : (env.stack.upTo level).frame? depth = some f := hframe
    rw [Stack.frame?_upTo h] at hframe
    split at hframe
    · exact hlinks.own depth f vars hframe
    · cases hframe
  · intro n hn e he d hd
    rw [hlinks.shared n hn e he d hd]
    exact Nat.zero_le _
  · rintro d rfl
    rw [hcut]
    exact hslot

/-- A search that has come to a level or below does not mind the frames above. -/
theorem turn_atLevel (hlinks : env.LinksInPlace) (h : level ≤ env.depth)
    (hlead : lead.depth ≤ level) : (env.atLevel level).turn lead = env.turn lead := by
  unfold turn
  rw [slotOf?_atLevel h _ hlead]
  cases hfound : env.slotOf? lead.name lead.depth with
  | none => rfl
  | some found =>
    obtain ⟨slot, key⟩ := found
    have hslot : slot.Within level := by
      cases slot with
      | frame d => exact Nat.le_trans (slotOf?_le hfound) hlead
      | inNamespace id => trivial
    dsimp only
    rw [scope_atLevel h hslot]
    split
    · rename_i target depth hget
      have hdepth := hlinks.linkDepth_le h hslot hget
      rw [depth_atLevel h, Nat.min_eq_left hdepth, Nat.min_eq_left (Nat.le_trans hdepth h)]
    · rfl

theorem follows_atLevel (hlinks : env.LinksInPlace) (h : level ≤ env.depth) {n : Nat}
    (hlead : lead.depth ≤ level) (hfollows : env.Follows n lead last) :
    (env.atLevel level).Follows n lead last ∧ last.depth ≤ level := by
  induction hfollows with
  | refl lead => exact ⟨.refl lead, hlead⟩
  | step hturn _ ih =>
    have hturn' := (turn_atLevel hlinks h hlead).trans hturn
    have hnext := depth_of_onward hturn'
    rw [depth_atLevel h] at hnext
    obtain ⟨hfollows, hlast⟩ := ih hnext
    exact ⟨.step hturn' hfollows, hlast⟩

/-! ## Working at a level -/

theorem putBack_modifyScope (h : level ≤ env.depth) (hslot : slot.Within level)
    (f : Table Value → Table Value) :
    ((env.atLevel level).modifyScope slot f).putBack (env.stack.above level) =
      env.modifyScope slot f := by
  have hnamespace : ∀ id, ((env.atLevel level).modifyNamespaceScope id f).putBack
      (env.stack.above level) = env.modifyNamespaceScope id f := by
    intro id
    unfold putBack modifyNamespaceScope atLevel
    dsimp only
    rw [Stack.putBack_upTo h]
  cases slot with
  | inNamespace id => exact hnamespace id
  | frame depth =>
    have hframe : (env.atLevel level).stack.frame depth = env.stack.frame depth :=
      Stack.frame_upTo h hslot
    unfold modifyScope
    dsimp only
    rw [hframe]
    split
    · unfold putBack atLevel
      dsimp only
      rw [Stack.putBack_modify h hslot]
    · exact hnamespace _

theorem depth_set {name : String} {v : Value} {after : Environment κ}
    (h : env.set name v = .ok after) : after.depth = env.depth := by
  obtain ⟨l, w, _, _, rfl⟩ := exists_of_set h
  exact depth_assign env _ _ _

/-! ## Links -/

/-- A search from a lead comes to its end before so many links. -/
def EndsWithin (env : Environment κ) (links : Nat) (lead : Lead) : Prop :=
  ∃ n last, n < links ∧ env.Follows n lead last ∧ (env.turn last).isEnd = true

section

variable {target name : String}

theorem exists_of_link (h : env.link level target name = .ok linked) :
    level ≤ env.depth ∧ (Name.splitIndex name).2 = none ∧
      linked = env.assign (.frame env.depth) name (.link target level) := by
  unfold Environment.link at h
  split at h
  · cases h
  split at h
  · cases h
  split at h
  · cases h
  split at h
  · cases h
  · rename_i _ hlevel _ hindex
    refine ⟨Nat.not_lt.1 hlevel, by simpa using hindex, ?_⟩
    split at h <;> cases h <;> rfl

theorem LinksInPlace.assign_link (hlinks : env.LinksInPlace) (htop : env.stack.top.isOwn = true)
    (hlevel : level ≤ env.depth) :
    (env.assign (.frame env.depth) name (.link target level)).LinksInPlace := by
  have hframe : env.stack.frame env.depth = env.stack.top :=
    Stack.frame_eq_of_frame? env.stack.frame?_depth
  unfold Frame.isOwn at htop
  split at htop
  · rename_i vars hvars
    have hassign : env.assign (.frame env.depth) name (.link target level) =
        { env with stack := env.stack.modify env.depth fun f =>
                     { f with storage := .own (vars.insert name (.link target level)) } } := by
      simp only [assign, modifyScope, hframe, hvars]
    rw [hassign]
    refine ⟨fun depth f vars' hf hvars' => ?_, hlinks.shared⟩
    rw [Stack.frame?_modify] at hf
    split at hf
    · rename_i hdepth
      rw [hdepth, show env.stack.frame? env.depth = some env.stack.top from
        env.stack.frame?_depth] at hf
      cases hf
      cases hvars'
      intro e he d hd
      rcases Table.mem_insert he with he | rfl
      · have := hlinks.own env.depth _ vars env.stack.frame?_depth hvars e he d hd
        omega
      · cases hd
        omega
    · exact hlinks.own depth f vars' hf hvars'
  · cases htop

theorem ofLink_none (target : String) (depth : Nat) :
    Turn.ofLink target none depth = .onward (.ofName target depth) := by
  unfold Turn.ofLink Lead.ofName
  split
  · rename_i hnone; cases hnone
  · rename_i hsplit _; rw [hsplit]
  · rename_i hsplit; rw [hsplit]

/-- The search for a name that was linked goes on with the name it was linked to. -/
theorem turn_assign_link (hname : (Name.splitQualified name).1 = none)
    (hlevel : level ≤ env.depth) :
    (env.assign (.frame env.depth) name (.link target level)).turn ⟨name, none, env.depth⟩ =
      .onward (.ofName target level) := by
  have hwithin : (Slot.frame env.depth).Within env.depth := Slot.within_frame (Nat.le_refl _)
  have howner : (env.assign (.frame env.depth) name (.link target level)).owner? name env.depth =
      some env.depth :=
    owner?_eq_some_iff.2 ⟨Nat.le_refl _, (contains_assign _ hwithin hwithin).2 (.inl ⟨rfl, rfl⟩),
      fun _ hd hle => absurd hle (Nat.not_le_of_lt hd)⟩
  unfold turn
  dsimp only
  rw [slotOf?_plain hname, howner]
  dsimp only [Option.getD_some]
  rw [get?_assign _ hwithin hwithin, if_pos ⟨rfl, rfl⟩]
  dsimp only
  rw [depth_assign, Nat.min_eq_left hlevel, ofLink_none]

theorem locate_of_turn {below : Environment κ} {name' : String}
    (hlead : Lead.ofName name env.depth = lead) (hturn : env.turn lead = .onward next)
    (hnext : Lead.ofName name' below.depth = next) (hends : env.EndsWithin (maxLinks - 1) next)
    (hbelow : ∀ n last, env.Follows n next last →
      below.Follows n next last ∧ below.turn last = env.turn last) :
    env.locate name = (below.locate name').mapError (.naming name) := by
  obtain ⟨n, last, hn, hfollows, hend⟩ := hends
  obtain ⟨hfollows', hturn'⟩ := hbelow n last hfollows
  have hsearch : env.locate name = env.search name (maxLinks - 1) next := by
    rw [locate_eq_search, hlead, show maxLinks = maxLinks - 1 + 1 from rfl, search_succ, hturn]
    rfl
  have hsearch' := hfollows'.search_end (hturn'.symm ▸ hend) name' (Nat.lt_of_lt_pred hn)
  rw [hsearch, hfollows.search_end hend name hn, locate_eq_search, hnext, hsearch', hturn']
  cases hlast : env.turn last with
  | onward lead => rw [hlast] at hend; cases hend
  | _ => rfl

end

/-! ## Names that act as others -/

/-- A name in one environment acts as another name in another environment does, if the changes made
there are carried back. -/
structure ActsAs (env : Environment κ) (name : String) (below : Environment κ) (target : String)
    (back : Environment κ → Environment κ) : Prop where
  locate : env.locate name = (below.locate target).mapError (.naming name)
  held? : ∀ l, below.locate target = .ok l → env.held? l = below.held? l
  modifyScope : ∀ l f, below.locate target = .ok l →
    env.modifyScope l.slot f = back (below.modifyScope l.slot f)

theorem mapError_ok {ε ε' α : Type} (f : ε → ε') (a : α) :
    (Except.ok a : Except ε α).mapError f = .ok a := rfl

namespace ActsAs

variable {below : Environment κ} {name target : String} {back : Environment κ → Environment κ}

theorem read (h : env.ActsAs name below target back) :
    env.read name = (below.read target).mapError (.naming name) := by
  unfold Environment.read
  rw [h.locate]
  cases hl : below.locate target with
  | error fault => rfl
  | ok l =>
    simp only [mapError_ok, bind, Except.bind, h.held? l hl]
    generalize below.held? l = held
    generalize l.index = index
    split
    · rfl
    · rename_i entries i
      cases Table.get? entries i <;> rfl
    · rfl
    · rfl
    · rfl

theorem set (h : env.ActsAs name below target back) (v : Value) :
    env.set name v = ((below.set target v).mapError (.naming name)).map back := by
  unfold Environment.set
  rw [h.locate]
  cases hl : below.locate target with
  | error fault => rfl
  | ok l =>
    simp only [mapError_ok, bind, Except.bind, h.held? l hl, assign, h.modifyScope l _ hl]
    generalize below.held? l = held
    generalize l.index = index
    split <;> rfl

theorem unset (h : env.ActsAs name below target back) :
    env.unset name = ((below.unset target).mapError (.naming name)).map back := by
  unfold Environment.unset
  rw [h.locate]
  cases hl : below.locate target with
  | error fault => rfl
  | ok l =>
    simp only [mapError_ok, bind, Except.bind, h.held? l hl, assign, h.modifyScope l _ hl]
    generalize below.held? l = held
    generalize l.index = index
    split
    · rfl
    · rfl
    · split <;> rfl
    · rfl

end ActsAs

/-- A name that was linked acts as what it was linked to, in the frame it was linked to. -/
theorem actsAs_of_link {target name : String} (hlinks : env.LinksInPlace)
    (htop : env.stack.top.isOwn = true) (hname : (Name.splitQualified name).1 = none)
    (hlink : env.link level target name = .ok linked)
    (hends : linked.EndsWithin (maxLinks - 1) (.ofName target level)) :
    linked.ActsAs name (linked.atLevel level) target (.putBack (linked.stack.above level)) := by
  obtain ⟨hlevel, hindex, rfl⟩ := exists_of_link hlink
  have hlinks : (env.assign (.frame env.depth) name (.link target level)).LinksInPlace :=
    hlinks.assign_link htop hlevel
  have hturn : (env.assign (.frame env.depth) name (.link target level)).turn
      ⟨name, none, env.depth⟩ = .onward (.ofName target level) := turn_assign_link hname hlevel
  have hdepth := depth_assign env (.frame env.depth) name (.link target level)
  generalize henv : env.assign (.frame env.depth) name (.link target level) = linked at *
  have hlevel : level ≤ linked.depth := by omega
  have hwithin : ∀ l, (linked.atLevel level).locate target = .ok l → l.slot.Within level := by
    intro l hl
    have hl := within_of_locate hl
    rwa [depth_atLevel hlevel] at hl
  refine ⟨?_, fun l hl => ?_, fun l f hl => ?_⟩
  · refine locate_of_turn ?_ hturn (by rw [depth_atLevel hlevel]) hends fun n last hfollows => ?_
    · rw [hdepth, Lead.ofName, Name.splitIndex_of_none hindex]
    · obtain ⟨hfollows, hlast⟩ := follows_atLevel hlinks hlevel (Nat.le_refl level) hfollows
      exact ⟨hfollows, turn_atLevel hlinks hlevel hlast⟩
  · unfold Environment.held?
    rw [scope_atLevel hlevel (hwithin l hl)]
  · exact (putBack_modifyScope hlevel (hwithin l hl) f).symm

/-- Once the procedure has returned, what was done below is what there is. -/
theorem atLevel_returned_putBack {after : Environment κ} (hafter : after.depth = level)
    (hlevel : level < env.depth) :
    (after.putBack (env.stack.above level)).returned.atLevel level = after := by
  have habove : (env.stack.above level).length = env.stack.depth - level := by
    simp only [Stack.above, List.length_take, Stack.toList, List.length_cons, Stack.depth]
    omega
  have hlevel : level < env.stack.depth := hlevel
  obtain ⟨f, rest, hframes⟩ := List.exists_cons_of_ne_nil
    (List.length_pos_iff.1 (show 0 < (env.stack.above level).length by omega))
  have hstack : (Stack.putBack rest after.stack).upTo level = after.stack :=
    hafter ▸ Stack.upTo_putBack rest after.stack
  unfold atLevel returned putBack
  rw [hframes, Stack.pop_putBack_cons, hstack]

end Environment

/-! ## The law of aliases -/

/-- In a procedure, with links in their places, a plain name that was linked to a variable of the
frame at a level acts as the variable does with the frames above the level off the stack: reading,
setting and unsetting it have the same outcome, up to the name in a fault, and the same effect, the
frames above being put back. A value that is neither an array nor a link, set through the name, is
what the variable reads in that frame after the procedure has returned, if and only if the place
that it was stored at hides nothing that the search for the variable passed on its way there, or
only what was passed with the same element in mind. -/
theorem aliases_act_below {κ : Type} {env linked : Environment κ} {level : Nat}
    {target name : String} (hlinks : env.LinksInPlace) (htop : env.stack.top.isOwn = true)
    (hname : (Name.splitQualified name).1 = none)
    (hlink : env.link level target name = .ok linked)
    (hends : linked.EndsWithin (Environment.maxLinks - 1) (.ofName target level)) :
    let below := linked.atLevel level
    let back := Environment.putBack (linked.stack.above level)
    linked.read name = (below.read target).mapError (.naming name) ∧
    (∀ v, linked.set name v = ((below.set target v).mapError (.naming name)).map back) ∧
    linked.unset name = ((below.unset target).mapError (.naming name)).map back ∧
    ∀ v after, (∀ entries, v ≠ .array entries) → (∀ t d, v ≠ .link t d) →
      linked.set name v = .ok after → level < env.depth →
      ∃ l, below.locate target = .ok l ∧
        ((after.returned.atLevel level).read target = .ok v ↔
          ∀ n lead, below.Follows n (.ofName target level) lead →
            below.Hides l.slot l.name lead → lead.index = l.index) := by
  intro below back
  have hacts := Environment.actsAs_of_link hlinks htop hname hlink hends
  refine ⟨hacts.read, hacts.set, hacts.unset, fun v after harray hv hset hlevel => ?_⟩
  have hdepth : linked.depth = env.depth := by
    obtain ⟨_, _, rfl⟩ := Environment.exists_of_link hlink
    exact Environment.depth_assign env _ _ _
  rw [hacts.set] at hset
  cases hbelow : below.set target v with
  | error fault => rw [hbelow] at hset; cases hset
  | ok done =>
    rw [hbelow] at hset
    cases hset
    have hcut : below.depth = level := Environment.depth_atLevel (by omega)
    obtain ⟨l, _, hl, _, _⟩ := Environment.exists_of_set hbelow
    refine ⟨l, hl, ?_⟩
    rw [Environment.atLevel_returned_putBack ((Environment.depth_set hbelow).trans hcut) (by omega),
      Environment.read_set_iff hv harray hbelow hl, hcut]

/-- A procedure that was called from a script running in a namespace makes a variable of the
namespace; it is called from a procedure and makes an element of an array that is linked itself. -/
theorem aliases_act_below_element :
    (let env : Environment Builtin :=
      { namespaces := { nodes := [{ name := "", parent := none, children := [("n", 1)] },
                                  { name := "n", parent := some 0 }] }
        stack := { top := { storage := .own [], namespaceId := 1 }
                   below := [{ storage := .shared 1, namespaceId := 1 },
                             .bottom NamespaceTree.root] } }
    ∃ linked after, env.link 1 "z" "y" = .ok linked ∧
      linked.set "y" (.string "new") = .ok after ∧
      (after.returned.atLevel 1).read "z" = .ok (.string "new")) ∧
    let env : Environment Builtin :=
      { stack := { top := { storage := .own [], namespaceId := 0 }
                   below := [{ storage := .own [("a", .link "arr" 0)], namespaceId := 0 },
                             .bottom NamespaceTree.root] } }
    ∃ linked after, env.link 1 "a(k)" "y" = .ok linked ∧
      linked.set "y" (.string "new") = .ok after ∧
      (after.returned.atLevel 1).read "a(k)" = .ok (.string "new") := by
  refine ⟨?_, ?_⟩
  · intro env
    have hlinks : env.LinksInPlace := .of_all rfl rfl
    have hlink : env.link 1 "z" "y" = .ok (env.assign (.frame 2) "y" (.link "z" 1)) := rfl
    have hlaw := aliases_act_below hlinks rfl rfl hlink
      ⟨0, ⟨"z", none, 1⟩, by decide, .refl _, rfl⟩
    obtain ⟨l, _, hback⟩ := hlaw.2.2.2 (.string "new") _ (fun _ h => by cases h)
      (fun _ _ h => by cases h) rfl (by decide)
    refine ⟨_, _, hlink, rfl, hback.2 fun n lead hfollows hhides => ?_⟩
    -- The search passed nothing: the name was found nowhere.
    cases hfollows with
    | refl =>
      obtain ⟨hname, _, _, _, howner, _⟩ := hhides
      rw [← hname] at howner
      cases howner
    | step hturn => cases hturn
  · intro env
    have hlinks : env.LinksInPlace := .of_all rfl rfl
    have hlink : env.link 1 "a(k)" "y" = .ok (env.assign (.frame 2) "y" (.link "a(k)" 1)) := rfl
    have hlaw := aliases_act_below hlinks rfl rfl hlink
      ⟨1, ⟨"arr", some "k", 0⟩, by decide, .step rfl (.refl _), rfl⟩
    obtain ⟨l, hl, hback⟩ := hlaw.2.2.2 (.string "new") _ (fun _ h => by cases h)
      (fun _ _ h => by cases h) rfl (by decide)
    cases hl
    refine ⟨_, _, hlink, rfl, hback.2 fun n lead hfollows _ => ?_⟩
    -- The element was meant from the start.
    rcases hfollows.index_eq with hnone | hsame
    · cases hnone
    · exact hsame

/-- In a script that runs in a namespace, a procedure sets a variable of that script. The variable
is a link in a call below, which leads to an element of an array of the same name that does not
exist: it is made in the namespace, where the script sees it before the link, and what the script
reads then is no value. -/
theorem alias_hidden_by_new_variable :
    let env : Environment Builtin :=
      { namespaces := { nodes := [{ name := "", parent := none, children := [("n", 1)] },
                                  { name := "n", parent := some 0 }] }
        stack := { top := { storage := .own [], namespaceId := 0 }
                   below := [{ storage := .shared 1, namespaceId := 1 },
                             { storage := .own [("base", .link "base(k)" 1)], namespaceId := 0 },
                             { storage := .shared 1, namespaceId := 1 },
                             .bottom NamespaceTree.root] } }
    env.LinksInPlace ∧ env.stack.top.isOwn = true ∧
    ∃ linked after, env.link 3 "base" "y" = .ok linked ∧
      linked.EndsWithin (Environment.maxLinks - 1) (.ofName "base" 3) ∧
      (∀ n lead, linked.Follows n (.ofName "base" 3) lead → lead.name ≠ "y") ∧
      linked.set "y" (.string "value") = .ok after ∧
      (after.returned.atLevel 3).read "base" = .error (.isArray .read "base") := by
  intro env
  let after : Environment Builtin :=
    { namespaces := { nodes := [{ name := "", parent := none, children := [("n", 1)] },
                                { name := "n", parent := some 0
                                  vars := [("base", .array [("k", .string "value")])] }] }
      stack := { env.stack with
                 top := { storage := .own [("y", .link "base" 3)], namespaceId := 0 } } }
  let linked := env.assign (.frame 4) "y" (.link "base" 3)
  have hfirst : linked.turn (.ofName "base" 3) = .onward ⟨"base", some "k", 1⟩ := rfl
  have hsecond : linked.turn ⟨"base", some "k", 1⟩ = .place (.frame 1) "base" := rfl
  refine ⟨.of_all rfl rfl, rfl, linked, after, rfl,
    ⟨1, ⟨"base", some "k", 1⟩, by decide, .step hfirst (.refl _), by rw [hsecond]; rfl⟩,
    fun n lead hfollows => ?_, rfl, rfl⟩
  cases hfollows with
  | refl => decide
  | step hturn hrest =>
    cases hfirst.symm.trans hturn
    cases hrest with
    | refl => decide
    | step hturn => cases hsecond.symm.trans hturn

end CommandScript
