import CommandScript.Text.Octets

/-!
# The bytes of characters

An ASCII character is one byte, which is the character itself. Any other character has several
bytes, none of which is ASCII (`Text.octetsOf_cases`). So whoever looks for ASCII characters in a
text finds them in its bytes at the same places: `Text.octets_eq_cons_iff` for a single character,
`Text.takeWhile_octets` for a run.
-/

namespace CommandScript

namespace Text

/-! ## The bytes of characters -/

/-- The bytes of a character. -/
def octetsOf (c : Char) : List Char := (String.utf8EncodeChar c).map fun b => Char.ofNat b.toNat

/-- The bytes of characters. -/
def octets (cs : List Char) : List Char := cs.flatMap octetsOf

@[simp] theorem octets_nil : octets [] = [] := rfl

@[simp] theorem octets_cons (c : Char) (cs : List Char) :
    octets (c :: cs) = octetsOf c ++ octets cs := rfl

@[simp] theorem octets_append (cs ds : List Char) : octets (cs ++ ds) = octets cs ++ octets ds :=
  List.flatMap_append

theorem toNat_octet (n : Nat) : (Char.ofNat (UInt8.ofNat n).toNat).toNat = n % 256 := by
  have hlt : n % 256 < 256 := Nat.mod_lt _ (by decide)
  have hvalid : (n % 256).isValidChar := .inl (by omega)
  rw [UInt8.toNat_ofNat', show 2 ^ 8 = 256 from rfl, Char.ofNat, dif_pos hvalid]
  rfl

/-- An ASCII character is its own byte. Any other has a byte that begins it and bytes that go on
with it, and none of them is ASCII. -/
theorem octetsOf_cases (c : Char) :
    (c.toNat < 128 ∧ octetsOf c = [c]) ∨
      (128 ≤ c.toNat ∧ ∃ b bs, octetsOf c = b :: bs ∧ 192 ≤ b.toNat ∧
        ∀ x ∈ bs, 128 ≤ x.toNat ∧ x.toNat < 192) := by
  have hlead : ∀ n, 192 ≤ n % 256 → 192 ≤ (Char.ofNat (UInt8.ofNat n).toNat).toNat := fun n hn => by
    rwa [toNat_octet]
  have hmore : ∀ n, 128 ≤ (Char.ofNat (UInt8.ofNat (n % 64 + 128)).toNat).toNat ∧
      (Char.ofNat (UInt8.ofNat (n % 64 + 128)).toNat).toNat < 192 := fun n => by
    rw [toNat_octet]
    omega
  unfold octetsOf String.utf8EncodeChar
  rw [show c.val.toNat = c.toNat from rfl]
  dsimp only
  split
  · have hc : Char.ofNat (UInt8.ofNat c.toNat).toNat = c := by
      rw [← Char.toNat_inj, toNat_octet]
      omega
    exact .inl ⟨by omega, by rw [List.map_singleton, hc]⟩
  · refine .inr ⟨by omega, ?_⟩
    split
    · exact ⟨_, _, rfl, hlead _ (by omega), by simpa using hmore _⟩
    · split
      · exact ⟨_, _, rfl, hlead _ (by omega), by simpa using ⟨hmore _, hmore _⟩⟩
      · exact ⟨_, _, rfl, hlead _ (by omega), by simpa using ⟨hmore _, hmore _, hmore _⟩⟩

section

variable {c d : Char} {cs ds : List Char}

theorem octetsOf_ascii (h : c.toNat < 128) : octetsOf c = [c] := by
  rcases octetsOf_cases c with ⟨-, hbytes⟩ | ⟨hc, -⟩
  · exact hbytes
  · omega

theorem octets_cons_ascii (h : c.toNat < 128) (cs : List Char) :
    octets (c :: cs) = c :: octets cs := by
  rw [octets_cons, octetsOf_ascii h]
  rfl

theorem octets_of_ascii (h : ∀ c ∈ cs, c.toNat < 128) : octets cs = cs := by
  induction cs with
  | nil => rfl
  | cons c cs ih =>
    rw [octets_cons_ascii (h c List.mem_cons_self), ih fun d hd => h d (List.mem_cons_of_mem _ hd)]

/-- Whether a text has only ASCII characters. -/
def isAscii (s : String) : Bool := s.toList.all fun c => c.toNat < 128

theorem octets_of_isAscii {s : String} (h : isAscii s = true) : octets s.toList = s.toList :=
  octets_of_ascii fun c hc => of_decide_eq_true (List.all_eq_true.1 h c hc)

theorem ne_of_beyond (hc : 128 ≤ c.toNat) (hd : d.toNat < 128) : c ≠ d := by
  rintro rfl
  omega

/-- A character has a first byte, and no byte after it is ASCII. -/
theorem octetsOf_eq_cons (c : Char) : ∃ b bs, octetsOf c = b :: bs ∧ ∀ x ∈ bs, 128 ≤ x.toNat := by
  rcases octetsOf_cases c with ⟨-, hbytes⟩ | ⟨-, b, bs, hbytes, -, hmore⟩
  · exact ⟨c, [], hbytes, fun x hx => absurd hx List.not_mem_nil⟩
  · exact ⟨b, bs, hbytes, fun x hx => (hmore x hx).1⟩

/-- The bytes of a character that is not ASCII are not. -/
theorem beyond_of_mem_octetsOf (hc : 128 ≤ c.toNat) (hd : d ∈ octetsOf c) : 128 ≤ d.toNat := by
  rcases octetsOf_cases c with ⟨hlt, -⟩ | ⟨-, b, bs, hbytes, hlead, hmore⟩
  · omega
  · rw [hbytes, List.mem_cons] at hd
    rcases hd with rfl | hd
    · omega
    · exact (hmore d hd).1

/-- Bytes begin with an ASCII character only if the characters do. -/
theorem octets_eq_cons_iff (hd : d.toNat < 128) :
    octets cs = d :: ds ↔ ∃ rest, cs = d :: rest ∧ octets rest = ds := by
  constructor
  · intro h
    cases cs with
    | nil => cases h
    | cons c cs =>
      rcases octetsOf_cases c with ⟨-, hbytes⟩ | ⟨-, b, bs, hbytes, hlead, -⟩
      · rw [octets_cons, hbytes] at h
        cases h
        exact ⟨cs, rfl, rfl⟩
      · rw [octets_cons, hbytes] at h
        cases h
        omega
  · rintro ⟨rest, rfl, rfl⟩
    rw [octets_cons, octetsOf_ascii hd]
    rfl

end

/-! ## Classes of ASCII characters -/

/-- No character of the class is other than ASCII. -/
def WithinAscii (p : Char → Bool) : Prop := ∀ c : Char, 128 ≤ c.toNat → p c = false

section

variable {p : Char → Bool} {v : Bool}

theorem takeWhile_octets (hp : ∀ c : Char, 128 ≤ c.toNat → p c = v) (cs : List Char) :
    (octets cs).takeWhile p = octets (cs.takeWhile p) := by
  induction cs with
  | nil => rfl
  | cons c cs ih =>
    rcases octetsOf_cases c with ⟨-, hbytes⟩ | ⟨hc, b, bs, hbytes, hlead, -⟩
    · cases hv : p c <;> simp [hbytes, hv, ih]
    · cases v with
      | true =>
        have hall : ∀ x ∈ octetsOf c, p x = true := fun x hx => hp x (beyond_of_mem_octetsOf hc hx)
        rw [octets_cons, List.takeWhile_append_of_pos hall, ih,
          List.takeWhile_cons_of_pos (hp c hc), octets_cons]
      | false =>
        have hb : p b = false := hp b (by omega)
        simp [hbytes, hb, hp c hc]

theorem WithinAscii.lt {c : Char} (hp : WithinAscii p) (h : p c = true) : c.toNat < 128 :=
  Nat.lt_of_not_le fun hc => by
    rw [hp c hc] at h
    cases h

theorem WithinAscii.of_mem_takeWhile {c : Char} {cs : List Char} (hp : WithinAscii p)
    (h : c ∈ cs.takeWhile p) : c.toNat < 128 :=
  hp.lt (List.all_eq_true.1 List.all_takeWhile c h)

theorem WithinAscii.takeWhile (hp : WithinAscii p) (cs : List Char) :
    (octets cs).takeWhile p = cs.takeWhile p := by
  rw [takeWhile_octets hp]
  exact octets_of_ascii fun c hc => hp.of_mem_takeWhile hc

theorem WithinAscii.any_head? (hp : WithinAscii p) (cs : List Char) :
    (octets cs).head?.any p = cs.head?.any p := by
  cases cs with
  | nil => rfl
  | cons c cs =>
    rcases octetsOf_cases c with ⟨-, hbytes⟩ | ⟨hc, b, bs, hbytes, hlead, -⟩
    · simp [hbytes]
    · simp [hbytes, hp c hc, hp b (by omega)]

theorem dropWhile_octets (hp : ∀ c : Char, 128 ≤ c.toNat → p c = v) (cs : List Char) :
    (octets cs).dropWhile p = octets (cs.dropWhile p) := by
  have hsplit : octets (cs.takeWhile p) ++ octets (cs.dropWhile p) = octets cs := by
    rw [← octets_append, List.takeWhile_append_dropWhile]
  rw [← List.takeWhile_append_dropWhile (p := p) (l := octets cs), takeWhile_octets hp] at hsplit
  exact (List.append_cancel_left hsplit).symm

end

/-! ## Texts of bytes -/

theorem toList_loop_bytes (bytes : ByteArray) (i : Nat) (found : List UInt8) :
    ByteArray.toList.loop bytes i found = found.reverse ++ bytes.data.toList.drop i := by
  fun_induction ByteArray.toList.loop bytes i found with
  | case1 i found hlt ih =>
    have hlt : i < bytes.data.toList.length := by simpa using hlt
    have hget : bytes.get! i = bytes.data.toList[i] := by
      show bytes.data[i]! = _
      rw [Array.getElem_toList, getElem!_pos]
    rw [ih, hget, List.drop_eq_getElem_cons hlt]
    simp
  | case2 i found hge =>
    have hge : bytes.data.toList.length ≤ i := by simpa using hge
    rw [List.drop_eq_nil_of_le hge, List.append_nil]

theorem toOctets_ofList (cs : List Char) :
    toOctets (String.ofList cs) = String.ofList (octets cs) := by
  have hbytes : (String.ofList cs).toUTF8.toList = cs.flatMap String.utf8EncodeChar := by
    show ByteArray.toList.loop (String.ofList cs).toByteArray 0 [] = _
    rw [toList_loop_bytes, String.toByteArray_ofList, List.utf8Encode, List.toList_data_toByteArray]
    rfl
  rw [toOctets, hbytes, List.map_flatMap]
  rfl

theorem toList_toOctets (s : String) : (toOctets s).toList = octets s.toList := by
  rw [← String.ofList_toList (s := s), toOctets_ofList, String.toList_ofList, String.toList_ofList]

theorem octet_inj {a b : UInt8} (h : Char.ofNat a.toNat = Char.ofNat b.toNat) : a = b := by
  have ha := toNat_octet a.toNat
  have hb := toNat_octet b.toNat
  have hlt := a.toNat_lt
  have hlt' := b.toNat_lt
  rw [UInt8.ofNat_toNat] at ha hb
  rw [h] at ha
  exact UInt8.toNat_inj.1 (by omega)

/-- A text is known by its bytes. -/
theorem toOctets_inj {s t : String} (h : toOctets s = toOctets t) : s = t := by
  have hbytes : ∀ u : String, u.toUTF8.toList = u.toByteArray.data.toList := fun u =>
    toList_loop_bytes u.toByteArray 0 []
  have hmap := String.ofList_injective h
  rw [hbytes, hbytes] at hmap
  have hlist := (List.map_inj_right fun _ _ => octet_inj).1 hmap
  exact String.toByteArray_inj.1 (ByteArray.ext (Array.toList_inj.1 hlist))

theorem length_octetsOf (c : Char) : (octetsOf c).length = c.utf8Size := by
  rw [octetsOf, List.length_map, String.length_utf8EncodeChar]

theorem length_octets (cs : List Char) : (octets cs).length = (String.ofList cs).utf8ByteSize := by
  induction cs with
  | nil => rfl
  | cons c cs ih =>
    rw [octets_cons, List.length_append, length_octetsOf, ih, String.ofList_cons,
      String.utf8ByteSize_append, String.utf8ByteSize_singleton]

/-- A text has no more characters than bytes. -/
theorem length_le_utf8ByteSize (cs : List Char) : cs.length ≤ (String.ofList cs).utf8ByteSize := by
  induction cs with
  | nil => exact Nat.le_refl 0
  | cons c cs ih =>
    have hpos := c.utf8Size_pos
    rw [String.ofList_cons, String.utf8ByteSize_append, String.utf8ByteSize_singleton,
      List.length_cons]
    omega

end Text

end CommandScript
