import CommandScript.Proofs.Integer.Arithmetic
import Mathlib.Data.List.Induction
import Mathlib.Data.List.TakeWhile

/-!
# How integers are written

An integer is written as a sign, a mark of its radix and digits, of which the first two may be
missing. `Integer.Written` is that grammar with the number denoted, and says nothing about how one
is read. `Integer.parse?` takes off blanks, sign and mark one after the other and adds up what is
left.

* `digits_iff`: digits and their value, against the check and the sum of the reader.
* `ofChars?_eq_some_iff`: the reader accepts just what is written and fits.
* `parse?_eq_some_iff`: with blanks around it, and within 64 bits.
-/

namespace CommandScript.Integer

/-! ## The grammar -/

/-- A digit of a radix and what it counts. From ten on digits are letters, in either case. -/
def Digit (radix : Nat) (c : Char) (d : Nat) : Prop :=
  d < radix ∧ (c = Nat.digitChar d ∨ c = (Nat.digitChar d).toUpper)

/-- One or more digits, the most significant first, and the number they denote. -/
inductive Digits (radix : Nat) : List Char → Nat → Prop
  | one {c : Char} {d : Nat} : Digit radix c d → Digits radix [c] d
  | more {cs : List Char} {n : Nat} {c : Char} {d : Nat} : Digits radix cs n → Digit radix c d →
      Digits radix (cs ++ [c]) (n * radix + d)

/-- The mark of a radix. Decimals have none. -/
inductive Mark : List Char → Nat → Prop
  | decimal : Mark [] 10
  | hexadecimal {x : Char} : x = 'x' ∨ x = 'X' → Mark ['0', x] 16
  | octal {o : Char} : o = 'o' ∨ o = 'O' → Mark ['0', o] 8
  | binary {b : Char} : b = 'b' ∨ b = 'B' → Mark ['0', b] 2

/-- A sign, or none, and what it multiplies by. -/
inductive Sign : List Char → Int → Prop
  | none : Sign [] 1
  | plus : Sign ['+'] 1
  | minus : Sign ['-'] (-1)

/-- An integer of any size as it is written, without blanks around it. -/
inductive Written : List Char → Int → Prop
  | intro {sign mark digits : List Char} {unit : Int} {radix m : Nat} : Sign sign unit →
      Mark mark radix → Digits radix digits m → Written (sign ++ (mark ++ digits)) (unit * m)

/-! ## Digits -/

theorem le_iff_toNat_le {a c : Char} : a ≤ c ↔ a.toNat ≤ c.toNat := UInt32.le_iff_toNat_le

/-- The codes of the digits. -/
theorem digit_iff_toNat {radix d : Nat} {c : Char} (hradix : radix ≤ 16) :
    Digit radix c d ↔ d < radix ∧
      (d < 10 ∧ c.toNat = 48 + d ∨ 10 ≤ d ∧ (c.toNat = 87 + d ∨ c.toNat = 55 + d)) := by
  have hcodes : ∀ d < 16, (Nat.digitChar d).toNat = (if d < 10 then 48 + d else 87 + d) ∧
      (Nat.digitChar d).toUpper.toNat = (if d < 10 then 48 + d else 55 + d) := by decide
  unfold Digit
  refine and_congr_right fun hd => ?_
  obtain ⟨hlower, hupper⟩ := hcodes d (Nat.lt_of_lt_of_le hd hradix)
  rw [← Char.toNat_inj, ← Char.toNat_inj, hlower, hupper]
  split <;> omega

/-- The radixes that a number may be written in. -/
def IsRadix (radix : Nat) : Prop := radix = 2 ∨ radix = 8 ∨ radix = 10 ∨ radix = 16

theorem isDigitOf_iff_toNat {radix : Nat} (hradix : IsRadix radix) {c : Char} :
    isDigitOf radix c = true ↔ 48 ≤ c.toNat ∧ c.toNat < 48 + radix ∧ c.toNat ≤ 57 ∨
      radix = 16 ∧ (97 ≤ c.toNat ∧ c.toNat ≤ 102 ∨ 65 ≤ c.toNat ∧ c.toNat ≤ 70) := by
  have hcodes : '0'.toNat = 48 ∧ '9'.toNat = 57 ∧ 'a'.toNat = 97 ∧ 'f'.toNat = 102 ∧
      'A'.toNat = 65 ∧ 'F'.toNat = 70 := by decide
  unfold isDigitOf
  split
  · rename_i hsixteen
    simp only [Bool.or_eq_true, Bool.and_eq_true, decide_eq_true_eq, Char.isDigit_iff_toNat,
      le_iff_toNat_le, hcodes, hsixteen, true_and]
    omega
  · simp only [Bool.and_eq_true, decide_eq_true_eq, le_iff_toNat_le, hcodes]
    unfold IsRadix at hradix
    omega

theorem digitValue_eq (c : Char) :
    digitValue c = if 48 ≤ c.toNat ∧ c.toNat ≤ 57 then c.toNat - 48
      else if 97 ≤ c.toNat then c.toNat - 97 + 10 else c.toNat - 65 + 10 := by
  unfold digitValue
  simp only [Char.isDigit_iff_toNat, le_iff_toNat_le]
  rfl

theorem digit_iff {radix d : Nat} (hradix : IsRadix radix) {c : Char} :
    Digit radix c d ↔ isDigitOf radix c = true ∧ d = digitValue c := by
  have hle : radix ≤ 16 := by
    unfold IsRadix at hradix
    omega
  rw [digit_iff_toNat hle, isDigitOf_iff_toNat hradix, digitValue_eq]
  unfold IsRadix at hradix
  constructor
  · rintro ⟨hd, hcode⟩
    split_ifs <;> omega
  · rintro ⟨hcode, hd⟩
    split_ifs at hd <;> omega

/-- A row of digits is checked digit by digit and added up from the left. -/
theorem digits_iff {radix m : Nat} (hradix : IsRadix radix) {cs : List Char} :
    Digits radix cs m ↔
      cs ≠ [] ∧ (∀ c ∈ cs, isDigitOf radix c = true) ∧ m = ofDigits radix cs := by
  have hconcat : ∀ cs c, ofDigits radix (cs ++ [c]) = ofDigits radix cs * radix + digitValue c :=
    fun cs c => by rw [ofDigits, List.foldl_append]; rfl
  constructor
  · intro h
    induction h with
    | @one c d hd =>
      obtain ⟨hdigit, rfl⟩ := (digit_iff hradix).1 hd
      refine ⟨List.cons_ne_nil _ _, List.forall_mem_singleton.2 hdigit, ?_⟩
      exact (Nat.zero_add _).symm.trans (by rw [ofDigits, List.foldl_cons, Nat.zero_mul]; rfl)
    | @more cs n c d _ hd ih =>
      obtain ⟨hdigit, rfl⟩ := (digit_iff hradix).1 hd
      obtain ⟨-, hall, rfl⟩ := ih
      refine ⟨by simp, ?_, (hconcat cs c).symm⟩
      exact List.forall_mem_append.2 ⟨hall, List.forall_mem_singleton.2 hdigit⟩
  · rintro ⟨hne, hall, rfl⟩
    induction cs using List.reverseRecOn with
    | nil => exact absurd rfl hne
    | append_singleton cs c ih =>
      obtain ⟨hcs, hc⟩ := List.forall_mem_append.1 hall
      have hdigit : Digit radix c (digitValue c) :=
        (digit_iff hradix).2 ⟨hc c List.mem_cons_self, rfl⟩
      by_cases hnil : cs = []
      · subst hnil
        have hone : ofDigits radix ([] ++ [c]) = digitValue c := by
          rw [hconcat]
          exact (congrArg (· + _) (Nat.zero_mul radix)).trans (Nat.zero_add _)
        rw [hone]
        exact .one hdigit
      · rw [hconcat]
        exact .more (ih hnil hcs) hdigit

theorem isDigitOf_ten {c : Char} (h : c.isDigit = true) : isDigitOf 10 c = true := by
  rw [Char.isDigit_iff_toNat] at h
  rw [isDigitOf_iff_toNat (.inr (.inr (.inl rfl)))]
  exact .inl ⟨h.1, Nat.lt_succ_of_le h.2, h.2⟩

theorem ofDigits_eq (radix : Nat) {ds : List Char} (h : ∀ c ∈ ds, c.isDigit = true) :
    ofDigits radix ds = Nat.ofDigitChars radix ds 0 := by
  have hfold : ∀ n : Nat, ds.foldl (fun n c => n * radix + digitValue c) n =
      Nat.ofDigitChars radix ds n := by
    induction ds with
    | nil => exact fun _ => rfl
    | cons d ds ih =>
      intro n
      have hd : digitValue d = d.toNat - '0'.toNat := by
        simp [digitValue, h d List.mem_cons_self]
      rw [List.foldl_cons, Nat.ofDigitChars_cons, hd, Nat.mul_comm n,
        ih fun c hc => h c (List.mem_cons_of_mem _ hc)]
  exact hfold 0

/-! ## Signs and marks -/

variable {cs sign mark digits : List Char} {radix m : Nat}

theorem Mark.isRadix (h : Mark mark radix) : IsRadix radix := by
  cases h with
  | decimal => exact .inr (.inr (.inl rfl))
  | hexadecimal => exact .inr (.inr (.inr rfl))
  | octal => exact .inr (.inl rfl)
  | binary => exact .inl rfl

theorem mark_iff_radixOf? {x : Char} : Mark ['0', x] radix ↔ radixOf? x = some radix := by
  constructor
  · intro h
    cases h with
    | hexadecimal hx | octal hx | binary hx => rcases hx with rfl | rfl <;> rfl
  · intro h
    unfold radixOf? at h
    split at h <;> cases h
    · exact .hexadecimal (.inl rfl)
    · exact .hexadecimal (.inr rfl)
    · exact .octal (.inl rfl)
    · exact .octal (.inr rfl)
    · exact .binary (.inl rfl)
    · exact .binary (.inr rfl)

/-- What the splitting of a sign means. -/
theorem sign_splitSign (cs : List Char) :
    ∃ sign, cs = sign ++ (splitSign cs).2 ∧ Sign sign (if (splitSign cs).1 then -1 else 1) := by
  unfold splitSign
  split
  · exact ⟨['-'], rfl, .minus⟩
  · exact ⟨['+'], rfl, .plus⟩
  · exact ⟨[], rfl, .none⟩

theorem mark_splitRadix (cs : List Char) :
    ∃ mark, cs = mark ++ (splitRadix cs).2 ∧ Mark mark (splitRadix cs).1 := by
  unfold splitRadix
  split
  · rename_i x digits
    split
    · rename_i radix hradix
      exact ⟨['0', x], rfl, mark_iff_radixOf?.2 hradix⟩
    · exact ⟨[], rfl, .decimal⟩
  · exact ⟨[], rfl, .decimal⟩

theorem ne_sign_of_isDigitOf (hradix : IsRadix radix) {c : Char} (h : isDigitOf radix c = true) :
    c ≠ '-' ∧ c ≠ '+' := by
  rw [isDigitOf_iff_toNat hradix] at h
  constructor
  all_goals
    rintro rfl
    revert h
    simp

theorem splitSign_cons {c : Char} (h : c ≠ '-' ∧ c ≠ '+') (cs : List Char) :
    splitSign (c :: cs) = (false, c :: cs) := by
  unfold splitSign
  split
  · rename_i heq
    exact absurd (List.cons.inj heq).1 h.1
  · rename_i heq
    exact absurd (List.cons.inj heq).1 h.2
  · rfl

theorem radixOf?_eq_none {c : Char} (h : c.isDigit = true ∨ c = ' ') :
    Integer.radixOf? c = none := by
  unfold Integer.radixOf?
  split <;> first | rfl | exact absurd h (by decide)

/-- No mark and no digit is taken for a sign. -/
theorem splitSign_append {unit : Int} (hsign : Sign sign unit) (hmark : Mark mark radix)
    (hdigits : Digits radix digits m) :
    splitSign (sign ++ (mark ++ digits)) = (decide (unit < 0), mark ++ digits) := by
  cases hsign with
  | plus | minus => rfl
  | none =>
    obtain ⟨hne, hall, -⟩ := (digits_iff hmark.isRadix).1 hdigits
    obtain ⟨c, rest, hcons, hc⟩ : ∃ c rest, mark ++ digits = c :: rest ∧ c ≠ '-' ∧ c ≠ '+' := by
      cases hmark with
      | hexadecimal | octal | binary => exact ⟨'0', _, rfl, by decide, by decide⟩
      | decimal =>
        obtain ⟨c, rest, rfl⟩ := List.exists_cons_of_ne_nil hne
        exact ⟨c, rest, rfl, ne_sign_of_isDigitOf Mark.decimal.isRadix (hall c List.mem_cons_self)⟩
    rw [List.nil_append, hcons]
    exact splitSign_cons hc rest

/-- Nor is a digit taken for a mark. -/
theorem splitRadix_append (hmark : Mark mark radix) (hdigits : Digits radix digits m) :
    splitRadix (mark ++ digits) = (radix, digits) := by
  obtain ⟨-, hall, -⟩ := (digits_iff hmark.isRadix).1 hdigits
  cases hmark with
  | hexadecimal hx | octal hx | binary hx => rcases hx with rfl | rfl <;> rfl
  | decimal =>
    rw [List.nil_append]
    unfold splitRadix
    split
    · rename_i x rest
      have hx := (isDigitOf_iff_toNat Mark.decimal.isRadix).1
        (hall x (List.mem_cons_of_mem _ List.mem_cons_self))
      have hdigit : x.isDigit = true := by
        rw [Char.isDigit_iff_toNat, show '0'.toNat = 48 from rfl, show '9'.toNat = 57 from rfl]
        omega
      rw [radixOf?_eq_none (.inl hdigit)]
    · rfl

/-! ## What is read -/

theorem magnitude?_eq_some_iff {w : UInt64} :
    magnitude? radix digits = some w ↔
      (digits ≠ [] ∧ ∀ c ∈ digits, isDigitOf radix c = true) ∧ ofDigits radix digits = w.toNat := by
  unfold magnitude?
  split
  · rename_i hbad
    refine iff_of_false (by simp) fun h => ?_
    simp [h.1.1, List.all_eq_true.2 h.1.2] at hbad
  · rename_i hvalid
    have hvalid : digits ≠ [] ∧ ∀ c ∈ digits, isDigitOf radix c = true := by simpa using hvalid
    rw [and_iff_right hvalid]
    split
    · rename_i hroom
      rw [Option.some.injEq, ← UInt64.toNat_inj, UInt64.toNat_ofNat_of_lt' hroom]
    · rename_i hroom
      exact iff_of_false (by simp) fun h => hroom (h ▸ w.toNat_lt_size)

/-- A magnitude with a sign is the word for the integer, where there is one. -/
theorem ofMagnitude?_eq_some_iff {negative : Bool} {w : UInt64} {n : Int} :
    (ofMagnitude? negative w).map Int64.toInt = some n ↔
      (if negative then -(w.toNat : Int) else w.toNat) = n ∧ fits n = true := by
  have hword : w.toNat < 2 ^ 63 → w.toInt64.toInt = w.toNat := by
    intro h
    rw [UInt64.toInt64, Int64.toInt, Int64.toBitVec, BitVec.toInt_eq_toNat_of_lt]
    · rfl
    · simp only [UInt64.toNat_toBitVec]
      omega
  have hmagnitude : ((1 : UInt64) <<< 63).toNat = 2 ^ 63 := by decide
  rw [fits_iff]
  unfold ofMagnitude?
  simp only [UInt64.lt_iff_toNat_lt, hmagnitude]
  split
  · rename_i hleast
    obtain ⟨rfl, rfl⟩ : negative = true ∧ w = (1 : UInt64) <<< 63 := by simpa using hleast
    have hmin : Int64.minValue.toInt = -2 ^ 63 := by decide
    rw [Option.map_some, Option.some.injEq, hmin, hmagnitude]
    simp only [if_true]
    omega
  · rename_i hleast
    have hne : negative = true → w.toNat ≠ 2 ^ 63 := by
      rintro rfl h
      exact hleast (by simpa using UInt64.toNat.inj h)
    split
    · rename_i hroom
      have hw := hword hroom
      rw [Option.map_some, Option.some.injEq]
      cases negative with
      | false =>
        simp only [Bool.false_eq_true, if_false, hw]
        omega
      | true =>
        simp only [if_true, Int64.toInt_neg, hw]
        rw [Int.bmod_eq_of_le (by omega) (by omega)]
        omega
    · refine iff_of_false (by simp) ?_
      rintro ⟨rfl, hlow, hhigh⟩
      cases negative with
      | false =>
        simp only [Bool.false_eq_true, if_false] at hhigh
        omega
      | true =>
        have hne := hne rfl
        simp only [if_true] at hlow
        omega

/-- Without blanks around it, a text denotes an integer just if it is written so and fits. -/
theorem ofChars?_eq_some_iff {n : Int} :
    (ofChars? cs).map Int64.toInt = some n ↔ Written cs n ∧ fits n = true := by
  constructor
  · intro h
    obtain ⟨v, hv, hn⟩ := Option.map_eq_some_iff.1 h
    have hread : (magnitude? (splitRadix (splitSign cs).2).1 (splitRadix (splitSign cs).2).2).bind
        (ofMagnitude? (splitSign cs).1) = some v := hv
    obtain ⟨w, hw, hv⟩ := Option.bind_eq_some_iff.1 hread
    obtain ⟨hvalid, hvalue⟩ := magnitude?_eq_some_iff.1 hw
    obtain ⟨hsigned, hfits⟩ := ofMagnitude?_eq_some_iff.1 (Option.map_eq_some_iff.2 ⟨v, hv, hn⟩)
    obtain ⟨sign, hcs, hsign⟩ := sign_splitSign cs
    obtain ⟨mark, hrest, hmark⟩ := mark_splitRadix (splitSign cs).2
    have hdigits := (digits_iff hmark.isRadix).2 ⟨hvalid.1, hvalid.2, rfl⟩
    have hwritten := Written.intro hsign hmark hdigits
    rw [← hrest, ← hcs, hvalue] at hwritten
    refine ⟨?_, hfits⟩
    rw [← hsigned]
    cases hneg : (splitSign cs).1 <;> rw [hneg] at hwritten <;> simpa using hwritten
  · rintro ⟨⟨hsign, hmark, hdigits⟩, hfits⟩
    rename_i sign mark digits unit radix m
    obtain ⟨hne, hall, rfl⟩ := (digits_iff hmark.isRadix).1 hdigits
    have hrange := fits_iff.1 hfits
    have hroom : ofDigits radix digits < 2 ^ 64 := by cases hsign <;> omega
    have hmagnitude := magnitude?_eq_some_iff.2
      ⟨⟨hne, hall⟩, (UInt64.toNat_ofNat_of_lt' hroom).symm⟩
    simp only [ofChars?, splitSign_append hsign hmark hdigits, splitRadix_append hmark hdigits,
      hmagnitude, Option.bind_some]
    refine ofMagnitude?_eq_some_iff.2 ⟨?_, hfits⟩
    rw [UInt64.toNat_ofNat_of_lt' hroom]
    cases hsign <;> simp

/-- A text is written as one integer only. -/
theorem Written.eq_split {n : Int} (h : Written cs n) :
    n = (if (splitSign cs).1 then -1 else 1) *
      ofDigits (splitRadix (splitSign cs).2).1 (splitRadix (splitSign cs).2).2 := by
  obtain ⟨hsign, hmark, hdigits⟩ := h
  obtain ⟨-, -, rfl⟩ := (digits_iff hmark.isRadix).1 hdigits
  rw [splitSign_append hsign hmark hdigits, splitRadix_append hmark hdigits]
  cases hsign <;> simp

theorem isBlank_of_graphic {c : Char} (hlow : 32 < c.toNat) (hhigh : c.toNat < 127) :
    Text.isBlank c = false := by
  simp only [Text.isBlank, Bool.or_eq_false_iff, Bool.and_eq_false_iff, beq_eq_false_iff_ne,
    decide_eq_false_iff_not]
  omega

/-- Blanks are no part of it. -/
theorem Written.not_blank {n : Int} (h : Written cs n) : ∀ c ∈ cs, Text.isBlank c = false := by
  obtain ⟨hsign, hmark, hdigits⟩ := h
  have hradix := hmark.isRadix
  obtain ⟨-, hall, -⟩ := (digits_iff hradix).1 hdigits
  refine List.forall_mem_append.2 ⟨?_, List.forall_mem_append.2 ⟨?_, ?_⟩⟩
  · cases hsign with
    | none => exact fun _ hc => by cases hc
    | plus | minus => exact List.forall_mem_singleton.2 (by decide)
  · cases hmark with
    | decimal => exact fun _ hc => by cases hc
    | hexadecimal hx | octal hx | binary hx =>
      rcases hx with rfl | rfl <;>
        exact List.forall_mem_cons.2 ⟨by decide, List.forall_mem_singleton.2 (by decide)⟩
  · intro c hc
    have hcode := (isDigitOf_iff_toNat hradix).1 (hall c hc)
    exact isBlank_of_graphic (by omega) (by omega)

/-! ## Blanks around it -/

/-- A text is `core` with blanks around it. -/
def Padded (core cs : List Char) : Prop :=
  ∃ before after, cs = before ++ (core ++ after) ∧
    (∀ c ∈ before, Text.isBlank c = true) ∧ ∀ c ∈ after, Text.isBlank c = true

theorem padded_trimBoth (cs : List Char) : Padded (Text.trimBoth Text.isBlank cs) cs := by
  refine ⟨cs.takeWhile Text.isBlank,
    ((cs.dropWhile Text.isBlank).reverse.takeWhile Text.isBlank).reverse, ?_, ?_, ?_⟩
  · rw [Text.trimBoth, Text.trimEnd, Text.trimStart, ← List.reverse_append,
      List.takeWhile_append_dropWhile, List.reverse_reverse, List.takeWhile_append_dropWhile]
  · exact List.all_eq_true.1 List.all_takeWhile
  · exact fun c hc => List.all_eq_true.1 List.all_takeWhile c (List.mem_reverse.1 hc)

/-- A text without blanks is left as it is. -/
theorem trimBoth_eq_self {cs : List Char} (h : ∀ c ∈ cs, Text.isBlank c = false) :
    Text.trimBoth Text.isBlank cs = cs := by
  have hkeep : ∀ cs : List Char, (∀ c ∈ cs, Text.isBlank c = false) →
      cs.dropWhile Text.isBlank = cs := by
    intro cs h
    cases cs with
    | nil => rfl
    | cons c cs => rw [List.dropWhile_cons_of_neg (by simp [h c List.mem_cons_self])]
  unfold Text.trimBoth Text.trimEnd Text.trimStart
  rw [hkeep cs h, hkeep cs.reverse fun c hc => h c (List.mem_reverse.1 hc), List.reverse_reverse]

/-- Trimming finds a core without blanks. -/
theorem Padded.trimBoth {core : List Char} (h : Padded core cs)
    (hcore : ∀ c ∈ core, Text.isBlank c = false) : Text.trimBoth Text.isBlank cs = core := by
  obtain ⟨before, after, rfl, hbefore, hafter⟩ := h
  have hend : Text.trimEnd Text.isBlank (core ++ after) = Text.trimEnd Text.isBlank core := by
    unfold Text.trimEnd
    rw [List.reverse_append,
      List.dropWhile_append_of_pos fun c hc => hafter c (List.mem_reverse.1 hc)]
  have hself := trimBoth_eq_self hcore
  rw [Text.trimBoth, Text.trimStart, List.dropWhile_append_of_pos hbefore]
  cases core with
  | nil =>
    rw [List.nil_append, List.dropWhile_eq_nil_iff.2 hafter]
    rfl
  | cons c core =>
    have hc : Text.isBlank c = false := hcore c List.mem_cons_self
    rw [List.cons_append, List.dropWhile_cons_of_neg (by simp [hc]), ← List.cons_append, hend]
    rwa [Text.trimBoth, Text.trimStart, List.dropWhile_cons_of_neg (by simp [hc])] at hself

/-- A 64-bit integer is read from a text just if it is written there, blanks around it apart. -/
theorem parse?_eq_some_iff {s : String} {n : Int} :
    (parse? s).map Int64.toInt = some n ↔
      (∃ core, Padded core s.toList ∧ Written core n) ∧ -2 ^ 63 ≤ n ∧ n < 2 ^ 63 := by
  constructor
  · intro h
    obtain ⟨v, hv, rfl⟩ := Option.map_eq_some_iff.1 h
    refine ⟨⟨_, padded_trimBoth _, ?_⟩, v.le_toInt, v.toInt_lt⟩
    exact (ofChars?_eq_some_iff.1 (Option.map_eq_some_iff.2 ⟨v, hv, rfl⟩)).1
  · rintro ⟨⟨core, hpadded, hwritten⟩, hrange⟩
    rw [parse?, hpadded.trimBoth hwritten.not_blank]
    exact ofChars?_eq_some_iff.2 ⟨hwritten, fits_iff.2 hrange⟩

/-- Without blanks, only the size can be wrong. -/
theorem parse?_of_written {n : Int} (h : Written cs n) :
    parse? (String.ofList cs) = if fits n then some (.ofInt n) else none := by
  rw [parse?, String.toList_ofList, trimBoth_eq_self h.not_blank]
  split
  · rename_i hfits
    obtain ⟨v, hv, rfl⟩ := Option.map_eq_some_iff.1 (ofChars?_eq_some_iff.2 ⟨h, hfits⟩)
    rw [hv, Int64.ofInt_toInt]
  · rename_i hfits
    cases hv : ofChars? cs with
    | none => rfl
    | some v =>
      obtain ⟨hwritten, hroom⟩ := ofChars?_eq_some_iff.1 (Option.map_eq_some_iff.2 ⟨v, hv, rfl⟩)
      exact absurd (h.eq_split ▸ hwritten.eq_split ▸ hroom) hfits

/-! ## What is written -/

/-- Digits after a mark, or after none, are written without a sign. -/
theorem Mark.written (hmark : Mark mark radix) (hne : digits ≠ [])
    (hall : ∀ c ∈ digits, isDigitOf radix c = true) :
    Written (mark ++ digits) (ofDigits radix digits) := by
  have hdigits := (digits_iff hmark.isRadix).2 ⟨hne, hall, rfl⟩
  simpa only [List.nil_append, one_mul] using Written.intro .none hmark hdigits

theorem isDigit_of_mem_toDigits {m : Nat} : ∀ c ∈ Nat.toDigits 10 m, c.isDigit = true :=
  fun _ => Nat.isDigit_of_mem_toDigits (by decide) (by decide)

theorem digits_toDigits (m : Nat) : Digits 10 (Nat.toDigits 10 m) m := by
  refine (digits_iff Mark.decimal.isRadix).2 ⟨Nat.toDigits_ne_nil, fun c hc => ?_, ?_⟩
  · exact isDigitOf_ten (isDigit_of_mem_toDigits c hc)
  · rw [ofDigits_eq 10 isDigit_of_mem_toDigits, Nat.ofDigitChars_toDigits (by decide) (by decide)]

theorem written_toDigits (m : Nat) : Written (Nat.toDigits 10 m) m := by
  simpa only [List.nil_append, one_mul] using Written.intro .none .decimal (digits_toDigits m)

theorem toList_toText {n : Int64} (h : 0 ≤ n.toInt) :
    (toText n).toList = Nat.toDigits 10 n.toInt.toNat := by
  obtain ⟨m, hm⟩ := Int.eq_ofNat_of_zero_le h
  rw [toText, hm]
  exact Nat.toList_repr

theorem toList_toText_of_neg {n : Int64} (h : n.toInt < 0) :
    (toText n).toList = '-' :: Nat.toDigits 10 n.toInt.natAbs := by
  obtain ⟨m, hm⟩ := Int.eq_negSucc_of_lt_zero h
  rw [toText, hm]
  simp [toString, Int.repr]

/-- The text of an integer is one way to write it. -/
theorem written_toText (n : Int64) : Written (toText n).toList n.toInt := by
  rcases Int.lt_or_le n.toInt 0 with hneg | hpos
  · have hwritten := Written.intro .minus .decimal (digits_toDigits n.toInt.natAbs)
    rw [show -1 * (n.toInt.natAbs : Int) = n.toInt by omega] at hwritten
    rw [toList_toText_of_neg hneg]
    exact hwritten
  · have hwritten := written_toDigits n.toInt.toNat
    rwa [Int.toNat_of_nonneg hpos, ← toList_toText hpos] at hwritten

theorem fits_toInt (n : Int64) : fits n.toInt = true := fits_iff.2 ⟨n.le_toInt, n.toInt_lt⟩

/-- The text of any integer is read as that integer. -/
theorem parse?_toText (n : Int64) : parse? (toText n) = some n := by
  have hread := parse?_of_written (written_toText n)
  rwa [String.ofList_toList, if_pos (fits_toInt n), Int64.ofInt_toInt] at hread

end CommandScript.Integer
