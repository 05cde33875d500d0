import CommandScript.Proofs.Name.Splitting

/-!
# Names of namespaces

The full name of a namespace joins the names on the way down to it with double colons, and a name is
taken apart at double colons from the left. A namespace may have any name that such a split can
give, so it may end in a colon if it was created by the last part of a path; below it, its full name
is taken apart in another place.

* `NamespaceTree.Grown.walk_eq_some_iff`: the one way that leads from the root to a namespace.
* `NamespaceTree.Grown.find_path_iff`: which full names are found again.
* `Environment.linkedSlot?_qualified_iff`: which links lead to the namespace they were made for.
* `Environment.names_of_namespaces_found`: the names that commands give.
-/

namespace CommandScript

namespace NamespaceTree

variable {κ : Type} {t : NamespaceTree κ} {id p c start : NamespaceId} {name : String}
  {names : List String}

/-! ## Namespaces have plain names -/

theorem plain_addChild (h : ∀ i, Name.Plain (t.node i).name) (hname : Name.Plain name)
    (p i : NamespaceId) : Name.Plain ((t.addChild p name).2.node i).name := by
  unfold addChild
  dsimp only
  rw [field_update Namespace.name, node_append]
  · split
    · exact hname
    · exact h i
  · exact fun _ => rfl

theorem plain_ensureFrom (h : ∀ i, Name.Plain (t.node i).name)
    (hnames : ∀ name ∈ names, Name.Plain name) (id i : NamespaceId) :
    Name.Plain ((t.ensureFrom id names).2.node i).name := by
  induction names generalizing t id with
  | nil => exact h i
  | cons name rest ih =>
    have hrest : ∀ name ∈ rest, Name.Plain name :=
      fun name hmem => hnames name (List.mem_cons_of_mem _ hmem)
    unfold ensureFrom
    split
    · exact ih h hrest _
    · exact ih (plain_addChild h (hnames name List.mem_cons_self) id) hrest _

theorem plain_ensure (h : ∀ i, Name.Plain (t.node i).name) (start : NamespaceId) (path : String)
    (i : NamespaceId) : Name.Plain ((t.ensure start path).2.node i).name := by
  unfold ensure
  split
  · exact plain_ensureFrom h (fun _ => Name.plain_of_mem_components) _ i
  · exact plain_ensureFrom h (fun _ => Name.plain_of_mem_components) _ i

theorem name_clear (fuel : Nat) (ids : List NamespaceId) (i : NamespaceId) :
    ((t.clear fuel ids).node i).name = (t.node i).name := by
  induction fuel generalizing t ids with
  | zero => rfl
  | succ fuel ih =>
    cases ids with
    | nil => rfl
    | cons id rest =>
      rw [clear_cons, ih]
      exact field_update Namespace.name id i fun _ => rfl

theorem name_delete (id i : NamespaceId) : ((t.delete id).node i).name = (t.node i).name := by
  unfold delete
  split
  · rfl
  · dsimp only
    rw [name_clear]
    split
    · exact field_update Namespace.name _ i fun _ => rfl
    · rfl

/-- A name comes from a path that was split, so it has no double colon. -/
theorem Grown.plain (h : t.Grown) (i : NamespaceId) : Name.Plain (t.node i).name := by
  induction h generalizing i with
  | fresh hfresh =>
    obtain ⟨commands, vars, rfl⟩ := hfresh
    have hempty : Name.Plain "" := by decide
    cases i <;> exact hempty
  | ensure start path _ _ ih => exact plain_ensure ih start path i
  | delete id _ _ ih =>
    rw [name_delete]
    exact ih i
  | hold id commands vars _ _ ih =>
    rw [field_update Namespace.name]
    · exact ih i
    · exact fun _ => rfl

/-! ## The way down to a namespace -/

/-- A namespace that was not deleted, and none above it was. -/
inductive Attached (t : NamespaceTree κ) : NamespaceId → Prop
  | root : t.Attached root
  | child {c p : NamespaceId} : t.Live c → (t.node c).parent = some p → t.Attached p → t.Attached c

/-- The names on the way down to a namespace. -/
def wayTo (t : NamespaceTree κ) (id : NamespaceId) : List String := t.namesTo t.nodes.length id

theorem wayTo_root : t.wayTo root = [] := by
  unfold wayTo
  cases t.nodes.length <;> rfl

theorem Sound.wayTo_child {away : NamespaceId → Prop} (h : Sound away t) (hc : t.Live c)
    (hparent : (t.node c).parent = some p) : t.wayTo c = t.wayTo p ++ [(t.node c).name] := by
  have hne : c ≠ NamespaceTree.root := by
    rintro rfl
    rw [h.root.2] at hparent
    cases hparent
  obtain ⟨q, hq, hparent'⟩ := h.parent c hc.1 hne
  cases hparent.symm.trans hparent'
  obtain ⟨fuel, hfuel⟩ := Nat.exists_eq_add_one_of_ne_zero (Nat.ne_zero_of_lt hc.1)
  have hp : p < fuel := Nat.lt_of_lt_of_le hq (Nat.le_of_lt_succ (Nat.lt_of_lt_of_eq hc.1 hfuel))
  have hlength : p < t.nodes.length := Nat.lt_trans hq hc.1
  have hup : t.namesTo fuel p = t.wayTo p := h.namesTo_eq hlength hp hlength
  rw [← hup, wayTo, hfuel, namesTo, if_neg hne, hparent]

theorem walk_concat (names : List String) :
    t.walk id (names ++ [name]) = (t.walk id names).bind fun p => t.child? p name := by
  induction names generalizing id with
  | nil =>
    show (t.child? id name).bind some = t.child? id name
    cases t.child? id name <;> rfl
  | cons first rest ih =>
    rw [List.cons_append, walk, walk, Option.bind_assoc]
    exact Option.bind_congr fun child _ => ih

theorem Sound.walk_wayTo (h : Sound (fun _ => False) t) (hid : t.Attached id) :
    t.walk NamespaceTree.root (t.wayTo id) = some id := by
  induction hid with
  | root => rw [wayTo_root]; rfl
  | @child c p hc hparent _ ih =>
    rw [h.wayTo_child hc hparent, walk_concat, ih]
    exact h.child?_eq_some_iff.2 (h.lists p c hc hparent not_false)

theorem Sound.wayTo_of_walk (h : Sound (fun _ => False) t)
    (hwalk : t.walk NamespaceTree.root names = some id) : t.wayTo id = names := by
  induction names using List.reverseRecOn generalizing id with
  | nil =>
    cases hwalk
    exact wayTo_root
  | append_singleton init last ih =>
    rw [walk_concat] at hwalk
    obtain ⟨p, hp, hchild⟩ := Option.bind_eq_some_iff.1 hwalk
    obtain ⟨_, hlive, hname, hparent⟩ := h.listed p last id (h.child?_eq_some_iff.1 hchild)
    rw [h.wayTo_child hlive hparent, ih hp, hname]

/-- Just the names on the way down to a namespace lead to it. -/
theorem Grown.walk_eq_some_iff (h : t.Grown) (hid : t.Attached id) :
    t.walk root names = some id ↔ names = t.wayTo id := by
  constructor
  · exact fun hwalk => (h.sound.wayTo_of_walk hwalk).symm
  · rintro rfl
    exact h.sound.walk_wayTo hid

theorem Sound.ne_empty_of_mem_wayTo (h : Sound (fun _ => False) t) (hid : t.Attached id)
    (hname : name ∈ t.wayTo id) : name ≠ "" := by
  induction hid with
  | root =>
    rw [wayTo_root] at hname
    cases hname
  | @child c p hc hparent _ ih =>
    rw [h.wayTo_child hc hparent] at hname
    rcases List.mem_append.1 hname with hname | hname
    · exact ih hname
    · rw [List.mem_singleton.1 hname]
      exact (h.listed p _ c (h.lists p c hc hparent not_false)).1

theorem Grown.plain_of_mem_wayTo (h : t.Grown) (hid : t.Attached id) (hname : name ∈ t.wayTo id) :
    Name.Plain name := by
  induction hid with
  | root =>
    rw [wayTo_root] at hname
    cases hname
  | @child c p hc hparent _ ih =>
    rw [h.sound.wayTo_child hc hparent] at hname
    rcases List.mem_append.1 hname with hname | hname
    · exact ih hname
    · rw [List.mem_singleton.1 hname]
      exact h.plain c

/-! ## Full names -/

theorem path_eq (t : NamespaceTree κ) (id : NamespaceId) :
    t.path id = "::" ++ "::".intercalate (t.wayTo id) := rfl

theorem toList_path (t : NamespaceTree κ) (id : NamespaceId) :
    (t.path id).toList = ':' :: ':' :: ("::".intercalate (t.wayTo id)).toList := by
  rw [path_eq]
  simp

theorem colons_prefix_path (t : NamespaceTree κ) (id : NamespaceId) (tail : String) :
    [':', ':'] <+: (t.path id ++ "::" ++ tail).toList := by
  rw [Name.toList_qualified, toList_path]
  exact ⟨_, rfl⟩

/-- A character other than a colon is in a full name if it is in a name on the way. -/
theorem mem_path_iff {c : Char} (hc : c ≠ ':') :
    c ∈ (t.path id).toList ↔ ∃ name ∈ t.wayTo id, c ∈ name.toList := by
  rw [toList_path, List.mem_cons, List.mem_cons, Name.mem_intercalate_iff hc]
  simp [hc]

/-- A name that starts at the root is found if it is taken apart into the names on the way. -/
theorem Grown.find_iff (h : t.Grown) (hid : t.Attached id) (rest : String) :
    t.find start ("::" ++ rest) = some id ↔ Name.components rest = t.wayTo id := by
  unfold find
  rw [Name.absolute?_eq_some_iff.2 rfl]
  exact h.walk_eq_some_iff hid

theorem Grown.find_path_iff (h : t.Grown) (hid : t.Attached id) :
    t.find start (t.path id) = some id ↔
      ∀ name ∈ (t.wayTo id).dropLast, ¬ Name.EndsInColon name := by
  rw [path_eq, h.find_iff hid]
  constructor
  · intro hnames name hname
    rw [← hnames] at hname
    exact Name.not_endsInColon_of_mem_dropLast hname
  · exact Name.components_intercalate (fun _ => h.sound.ne_empty_of_mem_wayTo hid)
      (fun _ => h.plain_of_mem_wayTo hid)

theorem Sound.wayTo_ne_nil (h : Sound (fun _ => False) t) (hid : t.Attached id)
    (hne : id ≠ NamespaceTree.root) : t.wayTo id ≠ [] := by
  cases hid with
  | root => exact absurd rfl hne
  | child hc hparent _ =>
    rw [h.wayTo_child hc hparent]
    simp

end NamespaceTree

/-! ## Declared variables -/

namespace Environment

variable {κ : Type} {env : Environment κ} {id : NamespaceId} {depth : Nat} {base tail : String}

/-- The namespace that a declaration is about. -/
def declarationHome (env : Environment κ) (name : String) : Except NoNamespace NamespaceId :=
  match (Name.splitQualified name).1 with
  | none => .ok env.current
  | some qualifiers =>
    if qualifiers.isEmpty then .ok NamespaceTree.root else env.namespaceAt qualifiers

/-- The name of a variable in a namespace that a declaration makes a link to. -/
def qualified (env : Environment κ) (id : NamespaceId) (tail : String) : String :=
  if id = NamespaceTree.root then "::" ++ tail else env.namespaces.path id ++ "::" ++ tail

/-- The slot in which a link to a name looks for its variable, as seen from a depth. -/
def linkedSlot? (env : Environment κ) (target : String) (depth : Nat) : Option Slot :=
  (env.slotOf? (Name.splitIndex target).1 depth).map Prod.fst

/-- The slot of a qualified name is the namespace that the qualifiers lead to. -/
theorem slotOf?_of_qualifiers {q : String} (hq : (Name.splitQualified base).1 = some q) :
    (env.slotOf? base depth).map Prod.fst =
      if q.isEmpty then some (.inNamespace NamespaceTree.root)
      else (env.namespaces.find (env.stack.frame depth).namespaceId q).map Slot.inNamespace := by
  unfold slotOf?
  cases hsplit : Name.splitQualified base with
  | mk qualifiers tail =>
    rw [hsplit] at hq
    cases hq
    dsimp only
    split
    · rfl
    · rw [Option.map_map]
      rfl

/-- A name that starts at the root leads to another namespace just if its qualifiers are taken apart
into the names on the way there. -/
theorem slotOf?_eq_some_iff (h : env.namespaces.Grown) (hid : env.namespaces.Attached id)
    (hne : id ≠ NamespaceTree.root) (hbase : [':', ':'] <+: base.toList) {q : String}
    (hq : (Name.splitQualified base).1 = some q) :
    (env.slotOf? base depth).map Prod.fst = some (.inNamespace id) ↔
      ∃ rest, q = "::" ++ rest ∧ Name.components rest = env.namespaces.wayTo id := by
  rw [slotOf?_of_qualifiers hq]
  by_cases hempty : q = ""
  · subst hempty
    constructor
    · intro heq
      cases heq
      exact absurd rfl hne
    · rintro ⟨rest, heq, -⟩
      exact absurd (congrArg String.toList heq) (by simp)
  · obtain ⟨rest, rfl⟩ := Name.qualifiers_absolute hq hempty hbase
    rw [if_neg (by simp)]
    constructor
    · intro heq
      obtain ⟨found, hfound, hsame⟩ := Option.map_eq_some_iff.1 heq
      cases hsame
      exact ⟨rest, rfl, (h.find_iff hid rest).1 hfound⟩
    · rintro ⟨rest', heq, hrest⟩
      have hsame : rest' = rest := by
        apply String.toList_inj.1
        simpa using (congrArg String.toList heq).symm
      rw [(h.find_iff hid rest).2 (hsame ▸ hrest)]
      rfl

theorem linkedSlot?_root (htail : Name.Plain tail) :
    env.linkedSlot? ("::" ++ tail) depth = some (.inNamespace NamespaceTree.root) := by
  obtain ⟨cut, hcut, hbase⟩ := Name.splitIndex_in_tail "" (by decide) htail (by simp)
  have hq := Name.splitQualified_append "" hcut
  rw [String.empty_append] at hbase hq
  rw [linkedSlot?, hbase, slotOf?_of_qualifiers hq]
  rfl

/-- The names on the way to a namespace stand in every name that leads there from the root, and none
ends in a colon. -/
theorem wayTo_of_slotOf? (h : env.namespaces.Grown) (hid : env.namespaces.Attached id)
    (hne : id ≠ NamespaceTree.root) (hbase : [':', ':'] <+: base.toList)
    (hslot : (env.slotOf? base depth).map Prod.fst = some (.inNamespace id)) {name : String}
    (hname : name ∈ env.namespaces.wayTo id) :
    ¬ Name.EndsInColon name ∧ ∀ c ∈ name.toList, c ∈ base.toList := by
  cases hq : (Name.splitQualified base).1 with
  | none => exact absurd hbase.isInfix (Name.plain_of_splitQualified hq)
  | some q =>
    obtain ⟨hbegins, hend⟩ := Name.qualifiers_isPrefix hq
    obtain ⟨rest, rfl, hrest⟩ := (slotOf?_eq_some_iff h hid hne hbase hq).1 hslot
    rw [← hrest] at hname
    have hrestEnd : ¬ Name.EndsInColon rest := by
      intro hcolon
      refine hend ?_
      rw [Name.EndsInColon, String.toList_append, List.getLast?_append, hcolon]
      rfl
    refine ⟨Name.not_endsInColon_of_mem_components hrestEnd hname, fun c hc => hbegins.subset ?_⟩
    rw [String.toList_append]
    exact List.mem_append_right _ (Name.mem_of_mem_components hname hc)

/-- The full name of a namespace leads there if no name in it ends in a colon. -/
theorem slotOf?_of_path (h : env.namespaces.Grown) (hid : env.namespaces.Attached id)
    (hne : id ≠ NamespaceTree.root) (htail : Name.Plain tail)
    (hend : ∀ name ∈ env.namespaces.wayTo id, ¬ Name.EndsInColon name) :
    (env.slotOf? (env.namespaces.path id ++ "::" ++ tail) depth).map Prod.fst =
      some (.inNamespace id) := by
  have hfull : ∀ name ∈ env.namespaces.wayTo id, name ≠ "" :=
    fun _ => h.sound.ne_empty_of_mem_wayTo hid
  have hpathEnd : ¬ Name.EndsInColon (env.namespaces.path id) :=
    Name.not_endsInColon_intercalate (h.sound.wayTo_ne_nil hid hne) hfull hend
  have hq := Name.splitQualified_append (env.namespaces.path id) htail
  rw [Text.trimEnd_of_end hpathEnd, String.ofList_toList] at hq
  have hbase := env.namespaces.colons_prefix_path id tail
  refine (slotOf?_eq_some_iff h hid hne hbase hq).2 ⟨_, rfl, ?_⟩
  exact Name.components_intercalate hfull (fun _ => h.plain_of_mem_wayTo hid)
    fun name hname => hend name (List.dropLast_subset _ hname)

theorem linkedSlot?_path_iff (h : env.namespaces.Grown) (hid : env.namespaces.Attached id)
    (hne : id ≠ NamespaceTree.root) (htail : Name.Plain tail) :
    env.linkedSlot? (env.namespaces.path id ++ "::" ++ tail) depth = some (.inNamespace id) ↔
      (∀ name ∈ env.namespaces.wayTo id, ¬ Name.EndsInColon name) ∧
      ¬((∃ name ∈ env.namespaces.wayTo id, '(' ∈ name.toList) ∧
        tail.toList.getLast? = some ')') := by
  have hcs := env.namespaces.toList_path id
  have hstart : (env.namespaces.path id).toList.head? ≠ some '(' := by
    rw [hcs]
    simp
  have hopen : '(' ∈ (env.namespaces.path id).toList ↔
      ∃ name ∈ env.namespaces.wayTo id, '(' ∈ name.toList :=
    NamespaceTree.mem_path_iff (by decide)
  rw [← hopen]
  unfold linkedSlot?
  by_cases hcut : '(' ∈ (env.namespaces.path id).toList ∧ tail.toList.getLast? = some ')'
  · -- No parenthesis is left, so the rest is not the way to a namespace that has one in its name.
    rw [Name.splitIndex_in_qualifiers hstart hcut.1 hcut.2]
    refine iff_of_false (fun hslot => ?_) fun hnot => hnot.2 hcut
    obtain ⟨name, hname, hparen⟩ := hopen.1 hcut.1
    have hbase : [':', ':'] <+:
        (String.ofList ((env.namespaces.path id).toList.takeWhile (· != '('))).toList := by
      rw [String.toList_ofList (l := (env.namespaces.path id).toList.takeWhile _), hcs]
      exact ⟨_, rfl⟩
    have hleft := (wayTo_of_slotOf? h hid hne hbase hslot hname).2 '(' hparen
    rw [String.toList_ofList (l := (env.namespaces.path id).toList.takeWhile _)] at hleft
    simpa using List.mem_takeWhile_imp hleft
  · obtain ⟨cut, hplain, hbase⟩ := Name.splitIndex_in_tail _ hstart htail hcut
    have hbegins := env.namespaces.colons_prefix_path id cut
    rw [hbase, and_iff_left hcut]
    exact ⟨fun hslot name hname => (wayTo_of_slotOf? h hid hne hbegins hslot hname).1,
      slotOf?_of_path h hid hne hplain⟩

/-- The link that a declaration makes leads to the namespace it was made for, unless a name on the
way there ends in a colon, or has a parenthesis that the end of the link closes. -/
theorem linkedSlot?_qualified_iff (h : env.namespaces.Grown) (hid : env.namespaces.Attached id)
    (htail : Name.Plain tail) :
    env.linkedSlot? (env.qualified id tail) depth = some (.inNamespace id) ↔
      id = NamespaceTree.root ∨ (∀ name ∈ env.namespaces.wayTo id, ¬ Name.EndsInColon name) ∧
        ¬((∃ name ∈ env.namespaces.wayTo id, '(' ∈ name.toList) ∧
          tail.toList.getLast? = some ')') := by
  unfold qualified
  by_cases hne : id = NamespaceTree.root
  · subst hne
    rw [if_pos rfl]
    exact iff_of_true (linkedSlot?_root htail) (.inl rfl)
  · rw [if_neg hne, linkedSlot?_path_iff h hid hne htail, or_iff_right hne]

end Environment

/-- In a procedure a declaration makes a link and then sets the variable. -/
theorem Act.declareVariable_eq {κ : Type} {s : State κ} {id : NamespaceId} {name : String}
    (hhome : s.interp.env.declarationHome name = .ok id)
    (hown : s.interp.env.stack.top.isOwn = true) (v : Option Value) {tail target : String}
    (htail : (Name.splitQualified name).2 = tail)
    (htarget : s.interp.env.qualified id tail = target) :
    Act.declareVariable name v s =
      (Act.edit (·.link s.interp.env.depth target tail) >>= fun _ =>
        v.elim (pure ()) (Act.setVariable target) : Act κ Unit) s := by
  unfold Act.declareVariable
  refine (Action.bind_ok (show Act.env s = .ok s.interp.env s from rfl)).trans ?_
  unfold Environment.declarationHome at hhome
  subst htarget
  cases hsplit : Name.splitQualified name with
  | mk qualifiers rest =>
    rw [hsplit] at hhome htail
    cases htail
    dsimp only at hhome ⊢
    split
    · cases hhome
      refine (Action.bind_ok rfl).trans ?_
      rw [if_pos hown]
      cases v <;> rfl
    · cases hhome
      refine (Action.bind_ok rfl).trans ?_
      rw [if_pos hown]
      cases v <;> rfl
    · rename_i path hne
      have hempty : ¬ path.isEmpty = true := by simpa using hne
      dsimp only at hhome
      rw [if_neg hempty] at hhome
      rw [hhome]
      refine (Action.bind_ok rfl).trans ?_
      rw [if_pos hown]
      cases v <;> rfl

namespace Environment

variable {κ : Type} {env : Environment κ} {id : NamespaceId}

/-- The full names of the children of a namespace. -/
theorem namespaceChildren_found (h : env.namespaces.Grown) (hid : env.namespaces.Attached id)
    {path : String} (hpath : env.namespaceAt path = .ok id) :
    ∃ children, env.namespaceChildren path = .ok children ∧
      List.Forall₂ (fun c child => ∀ start, env.namespaces.find start child = some c ↔
        ∀ name ∈ env.namespaces.wayTo id, ¬ Name.EndsInColon name)
        (env.namespaces.childIds id) children := by
  refine ⟨(env.namespaces.childIds id).map env.namespaces.path, ?_, ?_⟩
  · unfold namespaceChildren
    rw [hpath]
    rfl
  · rw [List.forall₂_map_right_iff, List.forall₂_same]
    intro c hc start
    obtain ⟨e, he, rfl⟩ := List.mem_map.1 hc
    obtain ⟨_, hlive, _, hparent⟩ := h.sound.listed id e.1 e.2 he
    rw [h.find_path_iff (.child hlive hparent hid), h.sound.wayTo_child hlive hparent,
      List.dropLast_concat]

/-- A full name finds its namespace again just if no name on the way there but the last ends in a
colon, and so do the name of the current namespace and those of the children of a namespace. The
link to a variable of a namespace that a declaration makes in a procedure leads to that namespace
just if no name on the way there ends in a colon or has a parenthesis that the link's end closes;
into the root it always does. -/
theorem names_of_namespaces_found (h : env.namespaces.Grown) (hid : env.namespaces.Attached id) :
    (∀ start, env.namespaces.find start (env.namespaces.path id) = some id ↔
      ∀ name ∈ (env.namespaces.wayTo id).dropLast, ¬ Name.EndsInColon name) ∧
    (env.current = id → ∀ start, env.namespaces.find start env.currentName = some id ↔
      ∀ name ∈ (env.namespaces.wayTo id).dropLast, ¬ Name.EndsInColon name) ∧
    (∀ path, env.namespaceAt path = .ok id → ∃ children,
      env.namespaceChildren path = .ok children ∧
      List.Forall₂ (fun c child => ∀ start, env.namespaces.find start child = some c ↔
        ∀ name ∈ env.namespaces.wayTo id, ¬ Name.EndsInColon name)
        (env.namespaces.childIds id) children) ∧
    ∀ (s : State κ) (declared tail target : String) (v : Option Value), s.interp.env = env →
      env.stack.top.isOwn = true → env.declarationHome declared = .ok id →
      (Name.splitQualified declared).2 = tail → env.qualified id tail = target →
      Act.declareVariable declared v s =
        (Act.edit (·.link env.depth target tail) >>= fun _ =>
          v.elim (pure ()) (Act.setVariable target) : Act κ Unit) s ∧
      ∀ (env' : Environment κ) (depth : Nat), env'.namespaces = env.namespaces →
        (env'.linkedSlot? target depth = some (.inNamespace id) ↔
          id = NamespaceTree.root ∨ (∀ name ∈ env.namespaces.wayTo id, ¬ Name.EndsInColon name) ∧
            ¬((∃ name ∈ env.namespaces.wayTo id, '(' ∈ name.toList) ∧
              tail.toList.getLast? = some ')')) := by
  refine ⟨fun start => h.find_path_iff hid, ?_, fun path => namespaceChildren_found h hid, ?_⟩
  · rintro rfl start
    exact h.find_path_iff hid
  · intro s declared tail target v hs hown hhome htail htarget
    subst hs
    refine ⟨Act.declareVariable_eq hhome hown v htail htarget, fun env' depth hsame => ?_⟩
    have hplain : Name.Plain tail := htail ▸ Name.plain_splitQualified declared
    have htarget' : env'.qualified id tail = target := by
      rw [← htarget, qualified, qualified, hsame]
    rw [← hsame] at h hid ⊢
    rw [← htarget', linkedSlot?_qualified_iff h hid hplain]

/-- A procedure runs in a namespace with a colon and a parenthesis in its name. -/
def nestedProcedure : State Unit where
  interp :=
    { Interp.create [] false with
      env :=
        { namespaces := (({} : NamespaceTree Unit).ensure NamespaceTree.root "x:y::b(c").2
          stack :=
            { top := { storage := .own [], namespaceId := 2 }
              below := [.bottom NamespaceTree.root] } } }
  world := {}

/-- The name of the namespace is found, and a variable `v` there; one of the name `v)` is not. -/
theorem names_of_namespaces_found_nested :
    let env := nestedProcedure.interp.env
    env.namespaces.Grown ∧ env.namespaces.Attached 2 ∧
      env.namespaces.find 1 (env.namespaces.path 2) = some 2 ∧
      env.namespaces.find 1 env.currentName = some 2 ∧
      env.linkedSlot? "::x:y::b(c::v" 1 = some (.inNamespace 2) ∧
      env.linkedSlot? "::x:y::b(c::v)" 1 ≠ some (.inNamespace 2) := by
  intro env
  have hgrown : env.namespaces.Grown :=
    .ensure NamespaceTree.root "x:y::b(c" (.fresh ⟨[], [], rfl⟩) (by decide)
  have hone : env.namespaces.Attached 1 :=
    .child ⟨by decide +kernel, by decide +kernel⟩ (by decide +kernel) .root
  have htwo : env.namespaces.Attached 2 :=
    .child ⟨by decide +kernel, by decide +kernel⟩ (by decide +kernel) hone
  obtain ⟨hpath, hcurrent, -, hdeclare⟩ := names_of_namespaces_found hgrown htwo
  have hv := (hdeclare nestedProcedure "v" "v" "::x:y::b(c::v" none rfl rfl rfl
    (by decide +kernel) (by decide +kernel)).2 env 1 rfl
  have hparen := (hdeclare nestedProcedure "v)" "v)" "::x:y::b(c::v)" none rfl rfl rfl
    (by decide +kernel) (by decide +kernel)).2 env 1 rfl
  exact ⟨hgrown, htwo, (hpath 1).2 (by decide +kernel), (hcurrent rfl 1).2 (by decide +kernel),
    hv.2 (by decide +kernel), fun hslot => absurd (hparen.1 hslot) (by decide +kernel)⟩

/-- Below a namespace whose name ends in a colon, full names lead astray. -/
theorem name_below_colon_not_found :
    let t : NamespaceTree Unit :=
      ((({} : NamespaceTree Unit).ensure NamespaceTree.root "a:").2.ensure 1 "b").2
    t.Grown ∧ t.Attached 2 ∧ t.path 2 = "::a:::b" ∧
      t.find NamespaceTree.root (t.path 2) = none := by
  intro t
  have hone : t.Attached 1 :=
    .child ⟨by decide +kernel, by decide +kernel⟩ (by decide +kernel) .root
  refine ⟨?_, .child ⟨by decide +kernel, by decide +kernel⟩ (by decide +kernel) hone,
    by decide +kernel, by decide +kernel⟩
  exact .ensure 1 "b" (.ensure NamespaceTree.root "a:" (.fresh ⟨[], [], rfl⟩) (by decide))
    (by decide +kernel)

end Environment

end CommandScript
