import CommandScript.Proofs.Environment.Alias
import Mathlib.Data.List.Perm.Subperm
import Mathlib.Logic.Relation

/-!
# Entries and the links between them

A variable is known by its entry: the slot that holds it and its name there. A link leads from the
entry that holds it to another, which one depends on nothing else. So the links of an environment
are a graph in which from each entry leads one way at most, and a name is looked up by following it
from the entry that the name means.

* `Environment.Next`: the graph. `Environment.Acyclic`: no way in it leads back.
* `Environment.Visits`: looking up a name, with the entries on the way.
* `Environment.Acyclic.exists_end`: without cycles every look-up ends, at no entry twice.
* `Environment.Acyclic.of_edges`: a change makes no cycle if it makes none of the links that would
  be part of one.
-/

namespace CommandScript

open Relation (TransGen)

/-- The edges of a cycle lead to where they can be reached from. -/
theorem transGen_edges {α : Type} {r : α → α → Prop} {a b : α} (h : TransGen r a b)
    (hback : TransGen r b a) : TransGen (fun x y => r x y ∧ TransGen r y x) a b := by
  induction h with
  | single hab => exact .single ⟨hab, hback⟩
  | tail hac hcb ih =>
    have hca := TransGen.head hcb hback
    exact (ih hca).tail ⟨hcb, hback.trans hac⟩

/-- A place for a variable: the slot that holds it and its name there. -/
structure Entry where
  slot : Slot
  key : String
  deriving DecidableEq, Repr

namespace Environment

variable {κ : Type} {env env' : Environment κ} {e e' : Entry} {lead next last : Lead}

/-! ## The graph of links -/

/-- The entry that a name without index means, seen from a depth and before links are followed. -/
def entryAt? (env : Environment κ) (name : String) (depth : Nat) : Option Entry :=
  (env.slotOf? name depth).map fun place => ⟨env.home place.1, place.2⟩

/-- The link in an entry leads to another entry. -/
def Next (env : Environment κ) (e e' : Entry) : Prop :=
  ∃ target depth, (env.scope e.slot).get? e.key = some (.link target depth) ∧
    env.entryAt? (Name.splitIndex target).1 (min depth env.depth) = some e'

/-- Links lead from the entry back to it. -/
def Loops (env : Environment κ) (e : Entry) : Prop := TransGen env.Next e e

/-- No links lead back to where they come from. -/
def Acyclic (env : Environment κ) : Prop := ∀ e, ¬ env.Loops e

/-- Of a new cycle some edge has to be new. -/
theorem Acyclic.of_edges (h : env.Acyclic)
    (hedges : ∀ e e', env'.Next e e' → TransGen env'.Next e' e → env.Next e e') :
    env'.Acyclic := by
  intro e hloops
  have hold : (fun x y => env'.Next x y ∧ TransGen env'.Next y x) ≤ env.Next :=
    fun x y hedge => hedges x y hedge.1 hedge.2
  exact h e (TransGen.mono hold e e (transGen_edges hloops hloops))

theorem home_home (env : Environment κ) (slot : Slot) :
    env.home (env.home slot) = env.home slot := by
  cases slot with
  | frame depth =>
    rcases env.home_frame depth with ⟨_, _, hhome, _⟩ | ⟨_, _, hhome, _⟩
    · rw [hhome, hhome]
    · rw [hhome]
      rfl
  | inNamespace id => rfl

theorem home_within {slot : Slot} (h : slot.Within env.depth) :
    (env.home slot).Within env.depth := by
  cases slot with
  | frame depth =>
    rcases env.home_frame depth with ⟨_, _, hhome, _⟩ | ⟨_, _, hhome, _⟩
    · rw [hhome]
      exact h
    · rw [hhome]
      trivial
  | inNamespace id => trivial

/-- An entry of its own, which is not seen under another slot. -/
structure Entry.Proper (env : Environment κ) (e : Entry) : Prop where
  within : e.slot.Within env.depth
  home : env.home e.slot = e.slot

theorem within_of_slotOf? {name key : String} {depth : Nat} {slot : Slot}
    (hdepth : depth ≤ env.depth) (h : env.slotOf? name depth = some (slot, key)) :
    slot.Within env.depth := by
  cases slot with
  | frame d => exact Nat.le_trans (slotOf?_le h) hdepth
  | inNamespace id => trivial

theorem proper_of_entryAt? {name : String} {depth : Nat} (hdepth : depth ≤ env.depth)
    (h : env.entryAt? name depth = some e) : Entry.Proper env e := by
  obtain ⟨place, hplace, rfl⟩ := Option.map_eq_some_iff.1 h
  exact ⟨home_within (within_of_slotOf? hdepth hplace), env.home_home _⟩

theorem Next.proper (h : env.Next e e') : Entry.Proper env e' := by
  obtain ⟨_, _, _, hentry⟩ := h
  exact proper_of_entryAt? (Nat.min_le_right _ _) hentry

theorem proper_of_transGen (h : TransGen env.Next e e') : Entry.Proper env e' := by
  cases h with
  | single h => exact h.proper
  | tail _ h => exact h.proper

/-! ## Looking up -/

/-- Links lead from one lead to another, by way of the entries listed. -/
inductive Visits (env : Environment κ) : Lead → List Entry → Lead → Prop
  | refl (lead : Lead) : Visits env lead [] lead
  | step {lead next last : Lead} {e : Entry} {es : List Entry} :
      env.entryAt? lead.name lead.depth = some e → env.turn lead = .onward next →
      Visits env next es last → Visits env lead (e :: es) last

/-- A lead that leads onward means an entry, whose link leads to what the next one means. -/
theorem exists_entry_of_onward (h : env.turn lead = .onward next) :
    ∃ e, env.entryAt? lead.name lead.depth = some e ∧
      (∃ target depth, (env.scope e.slot).get? e.key = some (.link target depth)) ∧
      ∀ e', env.entryAt? next.name next.depth = some e' → env.Next e e' := by
  obtain ⟨slot, key, target, depth, hslot, hget, hlink⟩ := link_of_onward h
  have hget : (env.scope (env.home slot)).get? key = some (.link target depth) := by
    rw [scope_home]
    exact hget
  refine ⟨⟨env.home slot, key⟩, by rw [entryAt?, hslot]; rfl, ⟨target, depth, hget⟩, ?_⟩
  intro e' he'
  refine ⟨target, depth, hget, ?_⟩
  unfold Turn.ofLink at hlink
  split at hlink
  · cases hlink
  · rename_i hsplit _
    cases hlink
    rw [hsplit]
    exact he'
  · rename_i hsplit
    cases hlink
    rw [hsplit]
    exact he'

/-- What is visited, and what the last lead means, can be reached from an entry that leads to the
first lead. -/
theorem Visits.transGen {es : List Entry} (h : env.Visits lead es last)
    (hfirst : ∀ e', env.entryAt? lead.name lead.depth = some e' → env.Next e e') :
    ∀ e' ∈ es ++ (env.entryAt? last.name last.depth).toList, TransGen env.Next e e' := by
  induction h generalizing e with
  | refl lead =>
    intro e' he'
    rw [List.nil_append, Option.mem_toList] at he'
    exact .single (hfirst e' he')
  | @step lead next last d es hentry hturn _ ih =>
    obtain ⟨d', hentry', _, hnext⟩ := exists_entry_of_onward hturn
    obtain rfl : d = d' := Option.some.inj (hentry.symm.trans hentry')
    intro e' he'
    have hd : TransGen env.Next e d := .single (hfirst d hentry)
    rcases List.mem_cons.1 he' with rfl | he'
    · exact hd
    · exact hd.trans (ih hnext e' he')

/-- Without cycles no entry is visited twice, nor is the last one among those visited. -/
theorem Acyclic.nodup_visits (h : env.Acyclic) {es : List Entry}
    (hvisits : env.Visits lead es last) :
    (es ++ (env.entryAt? last.name last.depth).toList).Nodup := by
  induction hvisits with
  | refl lead => cases env.entryAt? lead.name lead.depth <;> simp
  | @step lead next last e es hentry hturn hrest ih =>
    obtain ⟨e', hentry', _, hnext⟩ := exists_entry_of_onward hturn
    obtain rfl : e = e' := Option.some.inj (hentry.symm.trans hentry')
    exact List.nodup_cons.2 ⟨fun hmem => h e (hrest.transGen hnext e hmem), ih⟩

/-! ## Ends -/

/-- All entries of the environment. -/
def entries (env : Environment κ) : List Entry :=
  ((List.range (env.depth + 1)).flatMap fun d =>
    (Table.names (env.scope (.frame d))).map (Entry.mk (.frame d))) ++
  (List.range env.namespaces.nodes.length).flatMap fun id =>
    (Table.names (env.scope (.inNamespace id))).map (Entry.mk (.inNamespace id))

theorem mem_entries {v : Value} (hwithin : e.slot.Within env.depth)
    (h : (env.scope e.slot).get? e.key = some v) : e ∈ env.entries := by
  obtain ⟨slot, key⟩ := e
  have hname : key ∈ Table.names (env.scope slot) := List.mem_map_of_mem (Table.mem_of_get? h)
  cases slot with
  | frame d =>
    refine List.mem_append_left _ (List.mem_flatMap.2 ⟨d, ?_, List.mem_map_of_mem hname⟩)
    exact List.mem_range.2 (Nat.lt_succ_of_le hwithin)
  | inNamespace id =>
    refine List.mem_append_right _ (List.mem_flatMap.2 ⟨id, ?_, List.mem_map_of_mem hname⟩)
    refine List.mem_range.2 (Nat.lt_of_not_le fun hle => ?_)
    rw [scope, NamespaceTree.node, List.getD_eq_getElem?_getD, List.getElem?_eq_none hle] at hname
    cases hname

theorem Visits.subset_entries {es : List Entry} (h : env.Visits lead es last)
    (hdepth : lead.depth ≤ env.depth) : es ⊆ env.entries := by
  induction h with
  | refl lead => exact List.nil_subset _
  | @step lead next last e es hentry hturn _ ih =>
    obtain ⟨e', hentry', ⟨_, _, hlink⟩, _⟩ := exists_entry_of_onward hturn
    obtain rfl : e = e' := Option.some.inj (hentry.symm.trans hentry')
    exact List.cons_subset.2
      ⟨mem_entries (proper_of_entryAt? hdepth hentry).within hlink, ih (depth_of_onward hturn)⟩

/-- A look-up goes on for as long as one likes, or comes to its end. -/
theorem exists_visits (env : Environment κ) (lead : Lead) (n : Nat) :
    ∃ es last, env.Visits lead es last ∧ (es.length = n ∨ (env.turn last).isEnd = true) := by
  induction n generalizing lead with
  | zero => exact ⟨[], lead, .refl lead, .inl rfl⟩
  | succ n ih =>
    cases hturn : env.turn lead with
    | onward next =>
      obtain ⟨e, hentry, _, _⟩ := exists_entry_of_onward hturn
      obtain ⟨es, last, hvisits, hend⟩ := ih next
      exact ⟨e :: es, last, .step hentry hturn hvisits, hend.imp_left (congrArg (· + 1))⟩
    | _ => exact ⟨[], lead, .refl lead, .inr (by rw [hturn]; rfl)⟩

/-- Without cycles a look-up comes to its end, as there are only so many entries. -/
theorem Acyclic.exists_end (h : env.Acyclic) (hdepth : lead.depth ≤ env.depth) :
    ∃ es last, env.Visits lead es last ∧ (env.turn last).isEnd = true := by
  obtain ⟨es, last, hvisits, hlength | hend⟩ :=
    env.exists_visits lead (env.entries.length + 1)
  · have hnodup := (List.nodup_append.1 (h.nodup_visits hvisits)).1
    have hle := (List.subperm_of_subset hnodup (hvisits.subset_entries hdepth)).length_le
    omega
  · exact ⟨es, last, hvisits, hend⟩

/-- A search that is given up has visited as many entries as it was allowed to. -/
theorem exists_visits_of_tooManyLinks {whole : String} {hops : Nat}
    (h : env.search whole hops lead = .error (.tooManyLinks whole)) :
    ∃ es last, env.Visits lead es last ∧ es.length = hops := by
  induction hops generalizing lead with
  | zero => exact ⟨[], lead, .refl lead, rfl⟩
  | succ hops ih =>
    rw [search_succ] at h
    cases hturn : env.turn lead with
    | onward next =>
      rw [hturn] at h
      obtain ⟨e, hentry, _, _⟩ := exists_entry_of_onward hturn
      obtain ⟨es, last, hvisits, hlength⟩ := ih h
      exact ⟨e :: es, last, .step hentry hturn hvisits, congrArg (· + 1) hlength⟩
    | _ =>
      rw [hturn] at h
      cases h

theorem fault_of_search {whole : String} {hops : Nat} {fault : VariableFault}
    (h : env.search whole hops lead = .error fault) :
    fault = .noNamespace whole ∨ fault = .notArray .reach whole ∨ fault = .tooManyLinks whole := by
  induction hops generalizing lead with
  | zero =>
    cases h
    exact .inr (.inr rfl)
  | succ hops ih =>
    rw [search_succ] at h
    cases hturn : env.turn lead with
    | onward next =>
      rw [hturn] at h
      exact ih h
    | place slot key =>
      rw [hturn] at h
      cases h
    | noNamespace =>
      rw [hturn] at h
      cases h
      exact .inl rfl
    | notArray =>
      rw [hturn] at h
      cases h
      exact .inr (.inl rfl)

end Environment

end CommandScript
