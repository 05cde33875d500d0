import CommandScript.Proofs.ListText.RoundTrip
import CommandScript.Proofs.Table.Merge
import CommandScript.Value.Convert

/-!
# Structured values and their texts

A list or an array converts to a list and to an array as its text does: the items are those that
are read from the text, each as its own text (`toList_asString`). So the same pairs are made of
them, and the same array (`toArray_asString`).

* `structured_values_convert_as_texts`: both conversions, of a value and of its text.
-/

namespace CommandScript

namespace Value

/-! ## Items and entries -/

/-- The string that a value reads as. -/
def asString (v : Value) : Value := string v.text

/-- A list, or an array in which no key comes twice. -/
inductive Structured : Value → Prop
  | list (items : List Value) : Structured (list items)
  | array {entries : Table Value} : (Table.names entries).Nodup → Structured (array entries)

theorem entryTexts_eq_map (entries : List (String × Value)) :
    entryTexts entries = (flatten entries).map text := by
  induction entries with
  | nil => rfl
  | cons e rest ih =>
    rw [entryTexts, ih]
    rfl

theorem pairs?_flatten (entries : List (String × Value)) :
    pairs? (flatten entries) = some entries := by
  induction entries with
  | nil => rfl
  | cons e rest ih =>
    have hcons : flatten (e :: rest) = string e.1 :: e.2 :: flatten rest := rfl
    rw [hcons, pairs?, ih]
    rfl

/-- Keys and values in turn give the entries that they pair up to. -/
theorem pairs?_pairs (pairs : List (Value × Value)) :
    pairs? (pairs.flatMap fun p => [p.1, p.2]) = some (pairs.map fun p => (p.1.text, p.2)) := by
  induction pairs with
  | nil => rfl
  | cons p rest ih =>
    have hcons : ((p :: rest).flatMap fun p => [p.1, p.2]) =
        p.1 :: p.2 :: rest.flatMap fun p => [p.1, p.2] := rfl
    rw [hcons, pairs?, ih]
    rfl

theorem length_pairs (pairs : List (Value × Value)) :
    (pairs.flatMap fun p => [p.1, p.2]).length = 2 * pairs.length := by
  induction pairs with
  | nil => rfl
  | cons p rest ih =>
    rw [List.flatMap_cons, List.length_append, ih, List.length_cons]
    simp only [List.length_cons, List.length_nil]
    omega

/-- A row of items is a row of pairs, or its length is odd. -/
theorem pairs?_cases (items : List Value) :
    (items.length % 2 = 1 ∧ pairs? items = none) ∨
      ∃ pairs : List (Value × Value), items = pairs.flatMap (fun p => [p.1, p.2]) ∧
        pairs? items = some (pairs.map fun p => (p.1.text, p.2)) := by
  fun_induction pairs? items with
  | case1 => exact .inr ⟨[], rfl, rfl⟩
  | case2 v => exact .inl ⟨rfl, rfl⟩
  | case3 key v rest ih =>
    rcases ih with ⟨hodd, hnone⟩ | ⟨pairs, hrest, hsome⟩
    · refine .inl ⟨?_, by rw [hnone]; rfl⟩
      rw [List.length_cons, List.length_cons]
      omega
    · refine .inr ⟨(key, v) :: pairs, ?_, by rw [hsome]; rfl⟩
      rw [hrest]
      rfl

theorem pairs?_map_asString (items : List Value) :
    pairs? (items.map asString) = (pairs? items).map (Table.mapEntries asString) := by
  fun_induction pairs? items with
  | case1 => rfl
  | case2 v => rfl
  | case3 key v rest ih =>
    rw [List.map_cons, List.map_cons, pairs?, ih, Option.map_map, Option.map_map]
    rfl

theorem arrayOfItems_map_asString (items : List Value) :
    arrayOfItems (items.map asString) = (arrayOfItems items).map (Table.mapEntries asString) := by
  rw [arrayOfItems, pairs?_map_asString, arrayOfItems]
  cases pairs? items with
  | none => rfl
  | some entries =>
    rw [Option.map_some]
    exact congrArg Except.ok (Table.ofList_mapEntries asString entries)

/-! ## Conversions -/

/-- The items of a structured value. -/
theorem Structured.exists_items {v : Value} (hv : v.Structured) :
    ∃ items, v.toList = .ok items ∧ v.toArray = arrayOfItems items ∧
      v.text = ListText.format (items.map text) := by
  cases hv with
  | list items => exact ⟨items, rfl, rfl, by rw [text, texts_eq_map]⟩
  | @array entries hkeys =>
    refine ⟨flatten entries, rfl, ?_, by rw [text, entryTexts_eq_map]⟩
    rw [arrayOfItems, pairs?_flatten]
    exact congrArg Except.ok (Table.ofList_of_nodup hkeys).symm

variable {v : Value} {items : List Value}

theorem toList_asString (h : v.text = ListText.format (items.map text)) :
    v.asString.toList = .ok (items.map asString) := by
  rw [asString, toList, h, ListText.parse_format]
  exact congrArg Except.ok (List.map_map ..)

theorem toArray_asString (h : v.text = ListText.format (items.map text)) :
    v.asString.toArray = (arrayOfItems items).map (Table.mapEntries asString) := by
  have hlist : v.asString.toArray = v.asString.toList >>= arrayOfItems := rfl
  rw [hlist, toList_asString h, ← arrayOfItems_map_asString]
  rfl

end Value

/-- **Structured values convert as their texts do.** A list or an array and the string that it reads
as convert to lists of the same length, whose items have the same texts. If their number is odd,
neither converts to an array, and that is a fault of conversion. Else they are pairs, and both
convert to an array: its keys are the texts of the first of each pair, each where it came first, and
the value of a key is that of its last pair, as it is or as its text. An array is made into itself
that way. -/
theorem structured_values_convert_as_texts {v : Value} (hv : v.Structured) :
    ∃ items elements, v.toList = .ok items ∧ v.asString.toList = .ok elements ∧
      elements.map Value.text = items.map Value.text ∧
      ((items.length % 2 = 1 ∧ Fault.kind CastFault.oddElements = .cast ∧
          v.toArray = .error .oddElements ∧ v.asString.toArray = .error .oddElements) ∨
        ∃ pairs : List (Value × Value), items = pairs.flatMap (fun p => [p.1, p.2]) ∧
          ∃ table read, v.toArray = .ok table ∧ v.asString.toArray = .ok read ∧
            Table.names table = (pairs.map fun p => p.1.text).eraseDups ∧
            (∀ key, Table.get? table key =
              (pairs.reverse.find? fun p => p.1.text == key).map Prod.snd) ∧
            Table.mapEntries Value.text read = Table.mapEntries Value.text table ∧
            ∀ entries, v = .array entries → table = entries) := by
  obtain ⟨items, hlist, harray, htext⟩ := hv.exists_items
  have hread := Value.toArray_asString htext
  refine ⟨items, _, hlist, Value.toList_asString htext, ?_, ?_⟩
  · rw [List.map_map]
    rfl
  rcases Value.pairs?_cases items with ⟨hodd, hnone⟩ | ⟨pairs, hpairs, hsome⟩
  · have hfault : Value.arrayOfItems items = .error .oddElements := by
      rw [Value.arrayOfItems, hnone]
    rw [hfault] at harray hread
    exact .inl ⟨hodd, rfl, harray, hread⟩
  · have hok : Value.arrayOfItems items = .ok (.ofList (pairs.map fun p => (p.1.text, p.2))) := by
      rw [Value.arrayOfItems, hsome]
    rw [hok] at harray hread
    refine .inr ⟨pairs, hpairs, _, _, harray, hread, ?_, fun key => ?_, ?_, ?_⟩
    · rw [Table.names_ofList, List.map_map]
      rfl
    · rw [Table.get?_ofList, ← List.map_reverse, List.find?_map, Option.map_map]
      rfl
    · rw [Table.mapEntries, Table.mapEntries, List.map_map]
      rfl
    · rintro entries rfl
      exact (Except.ok.inj harray).symm

example : (Value.list [.string "k", .string "1", .string "x", .string "2", .string "k",
    .list [.string "\x7b", .boolean true]]).asString.toArray.toOption.map
      (Table.mapEntries Value.text) = some [("k", "\\\x7b 1"), ("x", "2")] := by
  decide +kernel

/-- An array of a list with an escaped and an array with a grouped element. -/
def nestedArray : List (String × Value) :=
  [("a b", .list [.string "\x7d", .boolean true]), ("", .array [("k", .string "x y")])]

theorem structured_values_convert_as_texts_nested :
    (Table.names nestedArray).Nodup ∧
      ∃ read, (Value.array nestedArray).asString.toArray = .ok read ∧
        Table.mapEntries Value.text read = [("a b", "\\\x7d 1"), ("", "k \x7bx y\x7d")] := by
  have hkeys : (Table.names nestedArray).Nodup := by decide
  refine ⟨hkeys, ?_⟩
  obtain ⟨items, _, hlist, -, -, h⟩ := structured_values_convert_as_texts (.array hkeys)
  rcases h with ⟨hodd, -⟩ | ⟨_, _, table, read, -, hread, -, -, htexts, hself⟩
  · have hitems : Value.flatten nestedArray = items := Except.ok.inj hlist
    rw [← hitems] at hodd
    exact absurd hodd (by decide)
  · refine ⟨read, hread, htexts.trans ?_⟩
    rw [hself nestedArray rfl]
    decide +kernel

end CommandScript
