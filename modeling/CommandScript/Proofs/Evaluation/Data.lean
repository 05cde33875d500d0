import CommandScript.Interp.Eval

/-!
# Kinds of data

A kind of values has all plain values, and a list or an array just if it has all that is in it. So
whatever commands make of data of a kind is of that kind again: conversions, words, exceptions and
procedures with their calls. `Data` extends a kind to all the data that commands hand on.

* `Value.Kind.any`: the kind of all values.
* `Value.Kind.all_any`: there is no data that is not of that kind.
-/

namespace CommandScript

open CommandScript.Action (Outcome)

theorem exists_of_bind_eq_ok {ε α β : Type} {x : Except ε α} {f : α → Except ε β} {b : β}
    (h : x >>= f = .ok b) : ∃ a, x = .ok a ∧ f a = .ok b := by
  cases x with
  | error e => cases h
  | ok a => exact ⟨a, rfl, h⟩

/-! ## Values -/

structure Value.Kind where
  Has : Value → Prop
  string (s : String) : Has (.string s)
  number (x : Float) : Has (.number x)
  boolean (b : Bool) : Has (.boolean b)
  list {items : List Value} : Has (.list items) ↔ ∀ v ∈ items, Has v
  array {entries : List (String × Value)} : Has (.array entries) ↔ ∀ e ∈ entries, Has e.2

def Value.Kind.any : Value.Kind where
  Has _ := True
  string _ := trivial
  number _ := trivial
  boolean _ := trivial
  list := by simp
  array := by simp

namespace Value.Kind.Has

variable {K : Kind} {v : Value} {items : List Value} {entries : List (String × Value)}

theorem string (s : String) : K.Has (.string s) := K.string s

theorem boolean (b : Bool) : K.Has (.boolean b) := K.boolean b

theorem list (h : ∀ v ∈ items, K.Has v) : K.Has (.list items) := K.list.2 h

theorem array (h : ∀ e ∈ entries, K.Has e.2) : K.Has (.array entries) := K.array.2 h

theorem empty : K.Has {} := K.string ""

theorem ofInt (n : Int) : K.Has (.ofInt n) := by
  unfold Value.ofInt
  split
  · exact K.number _
  · exact K.string _

theorem ofNat (n : Nat) : K.Has (.ofNat n) := ofInt n

theorem operand (x : Operand) : K.Has x.toValue := by
  cases x with
  | integer n => exact ofInt _
  | real x => exact K.string _
  | boolean b => exact K.boolean b

theorem strings (texts : List String) : K.Has (.list (texts.map .string)) := by
  refine list fun v hv => ?_
  obtain ⟨s, _, rfl⟩ := List.mem_map.1 hv
  exact K.string s

theorem forall_items (h : K.Has (.list items)) : ∀ v ∈ items, K.Has v := K.list.1 h

theorem forall_entries (h : K.Has (.array entries)) : ∀ e ∈ entries, K.Has e.2 := K.array.1 h

theorem flatten (h : ∀ e ∈ entries, K.Has e.2) : ∀ v ∈ Value.flatten entries, K.Has v := by
  intro v hv
  obtain ⟨e, he, hv⟩ := List.mem_flatMap.1 hv
  rcases List.mem_cons.1 hv with rfl | hv
  · exact K.string _
  · rw [List.mem_singleton.1 hv]
    exact h e he

theorem toList (h : K.Has v) (hitems : v.toList = .ok items) : ∀ w ∈ items, K.Has w := by
  unfold Value.toList at hitems
  split at hitems
  · cases hitems; exact h.forall_items
  · split at hitems <;> cases hitems
    exact (strings _).forall_items
  · cases hitems; exact List.forall_mem_singleton.2 h
  · cases hitems; exact List.forall_mem_singleton.2 h
  · cases hitems; exact flatten h.forall_entries
  · cases hitems

theorem pairs (h : ∀ v ∈ items, K.Has v) (hpairs : pairs? items = some entries) :
    ∀ e ∈ entries, K.Has e.2 := by
  induction items using Value.pairs?.induct generalizing entries with
  | case1 => cases hpairs; exact fun _ he => by cases he
  | case2 v => cases hpairs
  | case3 key v rest ih =>
    obtain ⟨others, hothers, rfl⟩ := Option.map_eq_some_iff.1 hpairs
    intro e he
    rcases List.mem_cons.1 he with rfl | he
    · exact h v (by simp)
    · exact ih (fun w hw => h w (by simp [hw])) hothers e he

theorem insert (h : ∀ e ∈ entries, K.Has e.2) (key : String) (hv : K.Has v) :
    K.Has (.array (Table.insert entries key v)) := by
  refine .array fun e he => ?_
  rcases Table.mem_insert he with he | rfl
  · exact h e he
  · exact hv

theorem joinPieces (h : ∀ v ∈ items, K.Has v) : K.Has (joinPieces items) := by
  unfold CommandScript.joinPieces
  split
  · exact h _ List.mem_cons_self
  · exact K.string _

end Value.Kind.Has

/-! ## Exceptions -/

/-- An exception whose value and error code are of the kind. -/
structure Exception.Has (K : Value.Kind) (e : Exception) : Prop where
  value : K.Has e.value
  code : ∀ data, e.data? = some data → K.Has data.code

namespace Exception.Has

variable {K : Value.Kind} {e : Exception} {v : Value}

theorem ofKind (kind : ErrorKind) (message : String) : (Exception.ofKind kind message).Has K :=
  ⟨K.string _, fun _ h => by cases h; exact K.string _⟩

theorem ofFault {ε : Type} [Fault ε] (fault : ε) : (Exception.ofFault fault).Has K := ofKind _ _

theorem plain (code : Completion) (hv : K.Has v) : (Exception.plain code v).Has K :=
  ⟨hv, fun _ h => by cases h⟩

theorem returnWith (level : Nat) (next : Completion) (hv : K.Has v) :
    (Exception.returnWith v level next).Has K := ⟨hv, fun _ h => by cases h⟩

theorem returnError (level : Nat) {code? : Option Value} (info? : Option Value)
    (hv : K.Has v) (hcode : ∀ code, code? = some code → K.Has code) :
    (Exception.returnError v level code? info?).Has K := by
  have hdata : K.Has (code?.getD (.string "NONE")) := by
    cases code? with
    | none => exact K.string _
    | some code => exact hcode code rfl
  unfold Exception.returnError
  dsimp only
  split
  · exact ⟨hv, fun _ h => by cases h; exact hdata⟩
  · exact ⟨hv, fun _ h => by cases h; exact hdata⟩

theorem addInfo (h : e.Has K) (line : String) : (e.addInfo line).Has K := by
  cases e with
  | error v data => exact ⟨h.value, fun _ hdata => by cases hdata; exact h.code data rfl⟩
  | returning v level next data =>
    refine ⟨h.value, fun changed hdata => ?_⟩
    obtain ⟨old, hold, rfl⟩ := Option.map_eq_some_iff.1 hdata
    exact h.code old hold
  | plain code v => exact h

theorem traced (h : e.Has K) (name : String) (isProcedure : Bool) (source : String) :
    (e.traced name isProcedure source).Has K := by
  unfold Exception.traced
  split
  · exact h
  · split
    · exact (h.addInfo _).addInfo _
    · split
      · exact ((h.addInfo _).addInfo _).addInfo _
      · exact h

theorem passBoundary (h : e.Has K) : e.passBoundary.Has K := by
  unfold Exception.passBoundary
  split
  · rename_i v level next data
    split
    · unfold Exception.settle
      split
      · refine ⟨h.value, fun settled hdata => ?_⟩
        cases hdata
        cases data with
        | none => exact K.string _
        | some data => exact h.code data rfl
      · exact ⟨h.value, h.code⟩
      · exact plain _ h.value
    · exact ⟨h.value, h.code⟩
  · exact h

end Exception.Has

/-! ## Procedures -/

/-- A procedure whose body and defaults are of the kind. -/
structure Procedure.Has (K : Value.Kind) (p : Procedure) : Prop where
  body : K.Has p.body
  defaults : ∀ parameter ∈ p.parameters, ∀ v, parameter.default = some v → K.Has v

namespace Procedure.Has

variable {K : Value.Kind}

theorem parameter {procedure : String} {spec : Value} {parameter : Parameter} {v : Value}
    (h : K.Has spec) (hparse : Parameter.parse procedure spec = .ok parameter)
    (hv : parameter.default = some v) : K.Has v := by
  unfold Parameter.parse at hparse
  split at hparse <;> cases hparse
  · cases hv
  · rename_i name default hfields
    cases hv
    exact h.toList hfields _ (by simp)

theorem parameters {procedure : String} {specs : List Value} {ps : List Parameter}
    (h : ∀ spec ∈ specs, K.Has spec) (hparse : specs.mapM (Parameter.parse procedure) = .ok ps) :
    ∀ p ∈ ps, ∀ v, p.default = some v → K.Has v := by
  induction specs generalizing ps with
  | nil => cases hparse; exact fun _ hp => by cases hp
  | cons spec rest ih =>
    rw [List.mapM_cons] at hparse
    obtain ⟨first, hfirst, hparse⟩ := exists_of_bind_eq_ok hparse
    obtain ⟨others, hrest, hparse⟩ := exists_of_bind_eq_ok hparse
    cases hparse
    intro p hp v hv
    rcases List.mem_cons.1 hp with rfl | hp
    · exact parameter (h spec List.mem_cons_self) hfirst hv
    · exact ih (fun spec hspec => h spec (List.mem_cons_of_mem _ hspec)) hrest p hp v hv

theorem parse {name : String} {parameters body : Value} {id : NamespaceId} {p : Procedure}
    (hparameters : K.Has parameters) (hbody : K.Has body)
    (hparse : Procedure.parse name parameters body id = .ok p) : p.Has K := by
  unfold Procedure.parse at hparse
  split at hparse
  · cases hparse
  · rename_i specs hspecs
    obtain ⟨ps, hps, hparse⟩ := exists_of_bind_eq_ok hparse
    cases hparse
    exact ⟨hbody, Procedure.Has.parameters (hparameters.toList hspecs) hps⟩

theorem bindInto {ps : List Parameter} {locals bound : Table Value} {args : List Value}
    (hps : ∀ p ∈ ps, ∀ v, p.default = some v → K.Has v) (hlocals : ∀ e ∈ locals, K.Has e.2)
    (hargs : ∀ v ∈ args, K.Has v) (hbound : Procedure.bindInto locals ps args = some bound) :
    ∀ e ∈ bound, K.Has e.2 := by
  induction ps generalizing locals args with
  | nil =>
    cases args with
    | nil => cases hbound; exact hlocals
    | cons v args => cases hbound
  | cons p rest ih =>
    have hrest : ∀ q ∈ rest, ∀ v, q.default = some v → K.Has v :=
      fun q hq => hps q (List.mem_cons_of_mem _ hq)
    unfold Procedure.bindInto at hbound
    split at hbound
    · cases hbound
      exact (Value.Kind.Has.insert hlocals _ (.list hargs)).forall_entries
    · split at hbound
      · rename_i v args
        have hv : K.Has v := hargs v List.mem_cons_self
        exact ih hrest (Value.Kind.Has.insert hlocals _ hv).forall_entries
          (fun w hw => hargs w (List.mem_cons_of_mem _ hw)) hbound
      · rename_i v hdefault
        have hv : K.Has v := hps p List.mem_cons_self v hdefault
        exact ih hrest (Value.Kind.Has.insert hlocals _ hv).forall_entries hargs hbound
      · cases hbound

theorem bind {p : Procedure} (h : p.Has K) {name : String} {args : List Value}
    {locals : Table Value} (hargs : ∀ v ∈ args, K.Has v)
    (hbind : p.bind name args = .ok locals) : ∀ e ∈ locals, K.Has e.2 := by
  unfold Procedure.bind at hbind
  split at hbind
  · rename_i bound hbound
    cases hbind
    exact bindInto h.defaults (fun _ he => by cases he) hargs hbound
  · cases hbind

end Procedure.Has

/-! ## What commands hand on -/

/-- Data in which values stand, and what it is for all of them to be of one kind. -/
class Data (α : Type) where
  all : Value.Kind → α → Prop
  any : ∀ a, all .any a

namespace Value.Kind

abbrev All {α : Type} [Data α] (K : Kind) (a : α) : Prop := Data.all K a

theorem all_any {α : Type} [Data α] (a : α) : any.All a := Data.any a

end Value.Kind

/-- Data in which no value stands. -/
abbrev Data.plain (α : Type) : Data α := ⟨fun _ _ => True, fun _ => trivial⟩

instance : Data PUnit := .plain _
instance : Data Bool := .plain _
instance : Data Nat := .plain _
instance : Data Int := .plain _
instance : Data Int64 := .plain _
instance : Data String := .plain _
instance : Data Operand := .plain _

instance : Data Value := ⟨Value.Kind.Has, fun _ => trivial⟩
instance : Data Exception := ⟨fun K e => e.Has K, fun _ => ⟨trivial, fun _ _ => trivial⟩⟩

section

variable {α β : Type} [Data α] [Data β]

instance : Data (List α) := ⟨fun K items => ∀ a ∈ items, K.All a, fun _ a _ => Data.any a⟩
instance : Data (Option α) := ⟨fun K a? => ∀ a, a? = some a → K.All a, fun _ a _ => Data.any a⟩
instance : Data (α × β) :=
  ⟨fun K p => K.All p.1 ∧ K.All p.2, fun p => ⟨Data.any p.1, Data.any p.2⟩⟩

instance : Data (Outcome α) where
  all K
    | .value a => K.All a
    | .raised e => e.Has K
  any
    | .value a => Data.any a
    | .raised e => Data.any e

end

namespace Value.Kind

variable {K : Kind}

theorem Has.getD {v? : Option Value} (h : K.All v?) : K.Has (v?.getD {}) := by
  cases v? with
  | none => exact .empty
  | some v => exact h v rfl

theorem all_leave {outcome : Outcome Value} (h : K.All outcome) : K.All outcome.leave := by
  cases outcome with
  | value v => exact h
  | raised e =>
    have hpassed : e.passBoundary.Has K := Exception.Has.passBoundary h
    show K.All e.leave
    unfold Exception.leave
    split
    · rename_i v heq
      rw [heq] at hpassed
      exact hpassed.value
    · exact Exception.Has.ofFault _
    · exact Exception.Has.ofFault _
    · exact Exception.Has.ofFault _
    · exact hpassed

end Value.Kind

end CommandScript
