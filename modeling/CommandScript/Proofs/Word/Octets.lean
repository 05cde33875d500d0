import CommandScript.Proofs.ListText.Quoting
import CommandScript.Proofs.Word.Endings
import CommandScript.Proofs.Text.Octets

/-!
# Readers of bytes

The readers of words look for ASCII characters only. Given the bytes of a text, each kept as the
character with its number, they do with the bytes what they do with the characters: what a reader
takes, leaves and gives as text are the bytes of what it takes, leaves and gives of the characters
(`enclosed_octets`, `quoted_octets`, `literalRun_octets` and so on, each by induction along the
reader). A backslash may part the first byte of a character from the others, but those are then
ordinary and are taken as well.
-/

namespace CommandScript

namespace Lexeme

open Text

/-! ## Delimited text -/

section

variable {opening closing : Char} (ho : opening.toNat < 128) (hc : closing.toNat < 128)

include ho hc

theorem enclosed_beyond {bs : List Char} (hbs : ∀ b ∈ bs, 128 ≤ b.toNat) (depth : Nat)
    (cs : List Char) :
    enclosed opening closing depth (bs ++ cs) =
      (enclosed opening closing depth cs).map (·.map (bs ++ ·) id) := by
  induction bs with
  | nil => simp [Prod.map]
  | cons b bs ih =>
    have hb := hbs b List.mem_cons_self
    rw [List.cons_append, enclosed_ordinary (ne_of_beyond hb (by decide)) (ne_of_beyond hb ho)
      (ne_of_beyond hb hc), ih fun x hx => hbs x (List.mem_cons_of_mem _ hx), Option.map_map]
    rfl

theorem enclosed_octets (ho' : opening ≠ '\\') (hc' : closing ≠ '\\') (depth : Nat)
    (cs : List Char) :
    enclosed opening closing depth (octets cs) =
      (enclosed opening closing depth cs).map (Prod.map octets octets) := by
  fun_induction enclosed opening closing depth cs with
  | case1 | case2 => simp [enclosed, octetsOf_ascii]
  | case3 depth c cs ih =>
    obtain ⟨b, bs, hbytes, hbs⟩ := octetsOf_eq_cons c
    simp [octetsOf_ascii, hbytes, enclosed, enclosed_beyond ho hc hbs, ih, Function.comp_def,
      Prod.map]
  | case4 depth cs hlast hesc ih =>
    simp [octetsOf_ascii ho, enclosed_opening ho', ih, Function.comp_def, Prod.map]
  | case5 cs hlast hesc hopen => simp [octetsOf_ascii hc, enclosed, hc', hopen]
  | case6 cs hlast hesc depth hopen ih =>
    simp [octetsOf_ascii hc, enclosed, hc', hopen, ih, Function.comp_def, Prod.map]
  | case7 depth c cs hlast hesc hopen hclose ih =>
    rcases octetsOf_cases c with ⟨-, hbytes⟩ | ⟨hbeyond, -⟩
    · simp [hbytes, enclosed_ordinary (ne_backslash hlast hesc) hopen hclose, ih, Function.comp_def,
        Prod.map]
    · rw [octets_cons, enclosed_beyond ho hc fun x hx => beyond_of_mem_octetsOf hbeyond hx, ih]
      simp [Function.comp_def, Prod.map]

end

theorem quoted_ordinary {b : Char} (hb : 128 ≤ b.toNat) (depth : Nat) (cs : List Char) :
    quoted depth (b :: cs) = (quoted depth cs).map (·.map (b :: ·) id) := by
  have hne : ∀ d : Char, d.toNat < 128 → b ≠ d := fun d hd => ne_of_beyond hb hd
  cases depth <;>
    simp [quoted, hne '\\' (by decide), hne '"' (by decide), hne '[' (by decide),
      hne ']' (by decide)]

theorem except_map_map {ε α β γ : Type} (x : Except ε α) (f : α → β) (g : β → γ) :
    (x.map f).map g = x.map (g ∘ f) := by
  cases x <;> rfl

theorem quoted_beyond {bs : List Char} (hbs : ∀ b ∈ bs, 128 ≤ b.toNat) (depth : Nat)
    (cs : List Char) :
    quoted depth (bs ++ cs) = (quoted depth cs).map (·.map (bs ++ ·) id) := by
  induction bs with
  | nil => cases hq : quoted depth cs <;> simp [hq, Except.map, Prod.map]
  | cons b bs ih =>
    rw [List.cons_append, quoted_ordinary (hbs b List.mem_cons_self),
      ih fun x hx => hbs x (List.mem_cons_of_mem _ hx), except_map_map]
    rfl

theorem quoted_octets (depth : Nat) (cs : List Char) :
    quoted depth (octets cs) = (quoted depth cs).map (Prod.map octets octets) := by
  fun_induction quoted depth cs with
  | case1 | case2 | case3 | case4 => simp [quoted, octetsOf_ascii, Except.map]
  | case5 depth c cs ih =>
    obtain ⟨b, bs, hbytes, hbs⟩ := octetsOf_eq_cons c
    simp [octetsOf_ascii, hbytes, quoted, quoted_beyond hbs, ih, except_map_map, Function.comp_def,
      Prod.map]
  | case6 cs => simp [octetsOf_ascii, quoted, Except.map]
  | case7 cs _ _ _ ih | case9 _ cs _ _ ih | case10 _ cs _ _ _ ih =>
    simp [octetsOf_ascii, quoted, ih, except_map_map, Function.comp_def, Prod.map]
  | case8 c cs hlast hesc hquote hopen ih =>
    rcases octetsOf_cases c with ⟨-, hbytes⟩ | ⟨hbeyond, -⟩
    · simp [hbytes, quoted, ne_backslash hlast hesc, hquote, hopen, ih, except_map_map,
        Function.comp_def, Prod.map]
    · rw [octets_cons, quoted_beyond fun x hx => beyond_of_mem_octetsOf hbeyond hx, ih]
      simp [except_map_map, Function.comp_def, Prod.map]
  | case11 depth c cs hlast hesc hopen hclose ih =>
    rcases octetsOf_cases c with ⟨-, hbytes⟩ | ⟨hbeyond, -⟩
    · simp [hbytes, quoted, ne_backslash hlast hesc, hopen, hclose, ih, except_map_map,
        Function.comp_def, Prod.map]
    · rw [octets_cons, quoted_beyond fun x hx => beyond_of_mem_octetsOf hbeyond hx, ih]
      simp [except_map_map, Function.comp_def, Prod.map]

/-- The lexeme in the bytes of its characters. -/
def inOctets (lex : Lexeme) : Lexeme :=
  ⟨lex.kind, octets lex.taken, octets lex.text, octets lex.rest⟩

theorem unterminated_octets {message : String} (h : isAscii message = true) (cs : List Char) :
    unterminated (octets cs) message = (unterminated cs message).inOctets := by
  simp [unterminated, inOctets, octets_of_isAscii h]

theorem delimited_octets {opening closing : Char} (ho : opening.toNat < 128)
    (hc : closing.toNat < 128) (ho' : opening ≠ '\\') (hc' : closing ≠ '\\') (kind : WordKind)
    {missing : String} (h : isAscii missing = true) (cs : List Char) :
    delimited kind opening closing missing (octets (opening :: cs)) =
      (delimited kind opening closing missing (opening :: cs)).inOctets := by
  have hopen : octets (opening :: cs) = opening :: octets cs := octets_cons_ascii ho cs
  unfold delimited
  rw [hopen, List.tail_cons, List.tail_cons, enclosed_octets ho hc ho' hc']
  cases enclosed opening closing 0 cs with
  | none => rw [← hopen]; exact unterminated_octets h _
  | some found => simp [inOctets, octetsOf_ascii ho, octetsOf_ascii hc]

theorem missing_of_quoted {depth : Nat} {cs : List Char} {missing : String}
    (h : quoted depth cs = .error missing) :
    missing = "missing \"" ∨ missing = "missing close-bracket" := by
  fun_induction quoted depth cs with
  | case1 | case3 => cases h; exact .inl rfl
  | case2 | case4 => cases h; exact .inr rfl
  | case6 => cases h
  | case5 _ c cs ih | case7 cs _ _ _ ih | case8 c cs _ _ _ _ ih | case9 _ cs _ _ ih
  | case10 _ cs _ _ _ ih | case11 _ c cs _ _ _ _ ih =>
    exact ih (eq_error_of_map h)

theorem quote_octets (cs : List Char) :
    quote (octets ('"' :: cs)) = (quote ('"' :: cs)).inOctets := by
  have hopen : octets ('"' :: cs) = '"' :: octets cs := octets_cons_ascii (by decide) cs
  unfold quote
  rw [hopen, List.tail_cons, List.tail_cons, quoted_octets]
  cases hq : quoted 0 cs with
  | error missing =>
    rw [← hopen]
    rcases missing_of_quoted hq with rfl | rfl <;> exact unterminated_octets rfl _
  | ok found => simp [Except.map, inOctets, octetsOf_ascii]

/-! ## Blanks, comments and names -/

theorem withinAscii_isSpace : WithinAscii isSpace := by
  intro c hc
  simp [isSpace, ne_of_beyond hc]

theorem withinAscii_isDigit : WithinAscii Char.isDigit := by
  intro c hc
  have hval : 128 ≤ c.val.toNat := hc
  simp only [Char.isDigit, ge_iff_le, UInt32.le_iff_toNat_le, Bool.and_eq_false_iff,
    decide_eq_false_iff_not]
  exact .inr fun hle => absurd (Nat.le_trans hval hle) (by decide)

theorem withinAscii_isAlpha : WithinAscii Char.isAlpha := by
  intro c hc
  have hval : 128 ≤ c.val.toNat := hc
  have hnot : ∀ d : Char, d.toNat < 128 → ¬c.val ≤ d.val := fun d hd hle =>
    absurd (Nat.le_trans hval (UInt32.le_iff_toNat_le.1 hle)) (Nat.not_le_of_lt hd)
  have hupper : c.isUpper = false := decide_eq_false fun hle => hnot 'Z' (by decide) hle.2
  have hlower : c.isLower = false := by
    show (decide ('a'.val ≤ c.val) && decide (c.val ≤ 'z'.val)) = false
    rw [decide_eq_false (hnot 'z' (by decide)), Bool.and_false]
  show (c.isUpper || c.isLower) = false
  rw [hupper, hlower]
  rfl

theorem withinAscii_isNameChar : WithinAscii isNameChar := by
  intro c hc
  simp [isNameChar, Char.isAlphanum, withinAscii_isAlpha c hc, withinAscii_isDigit c hc,
    ne_of_beyond hc]

section

variable {c : Char} {cs : List Char}

theorem blanks_cons (newlines : Bool) (hesc : ∀ ds, c = '\\' → cs = '\n' :: ds → False) :
    blanks newlines (c :: cs) =
      if isSpace c || (newlines && c == '\n') then (blanks newlines cs).map (c :: ·) id
      else ([], c :: cs) := by
  rw [blanks]
  exact hesc

theorem nameRun_cons (hcolons : ∀ ds, c = ':' → cs = ':' :: ds → False) :
    nameRun (c :: cs) = if isNameChar c then (nameRun cs).map (c :: ·) id else ([], c :: cs) := by
  rw [nameRun]
  exact hcolons

theorem commentText_cons (hc : c ≠ '\\') :
    commentText (c :: cs) =
      if c = '\n' then ([], c :: cs) else (commentText cs).map (c :: ·) id := by
  rw [commentText]
  · exact fun h _ => hc h
  · exact fun _ _ h _ => hc h

end

/-- What two characters in a row are in bytes. -/
theorem pair_of_octets {c d e : Char} {cs ds : List Char} (hd : e.toNat < 128)
    (h : ∀ rest, c = d → cs = e :: rest → False) : c = d → octets cs = e :: ds → False := by
  intro hc hcs
  obtain ⟨rest, hrest, -⟩ := (octets_eq_cons_iff hd).1 hcs
  exact h rest hc hrest

theorem blanks_octets (newlines : Bool) (cs : List Char) :
    blanks newlines (octets cs) = (blanks newlines cs).map octets octets := by
  fun_induction blanks newlines cs with
  | case1 cs ih => simp [octetsOf_ascii, blanks, ih, Prod.map]
  | case2 c cs hesc hblank ih =>
    rcases octetsOf_cases c with ⟨-, hbytes⟩ | ⟨hbeyond, -⟩
    · rw [octets_cons, hbytes, List.singleton_append,
        blanks_cons newlines fun ds => pair_of_octets (by decide) hesc, if_pos hblank, ih]
      simp [Prod.map, hbytes]
    · simp [withinAscii_isSpace c hbeyond, ne_of_beyond hbeyond] at hblank
  | case3 c cs hesc hblank =>
    rcases octetsOf_cases c with ⟨-, hbytes⟩ | ⟨-, b, bs, hbytes, hlead, -⟩
    · rw [octets_cons, hbytes, List.singleton_append,
        blanks_cons newlines fun ds => pair_of_octets (by decide) hesc, if_neg hblank]
      simp [hbytes]
    · have hb : 128 ≤ b.toNat := by omega
      rw [octets_cons, hbytes, List.cons_append,
        blanks_cons newlines fun ds h => absurd h (ne_of_beyond hb (by decide))]
      simp [withinAscii_isSpace b hb, ne_of_beyond hb, hbytes]
  | case4 => rfl

theorem commentText_beyond {bs : List Char} (hbs : ∀ b ∈ bs, 128 ≤ b.toNat) (cs : List Char) :
    commentText (bs ++ cs) = (commentText cs).map (bs ++ ·) id := by
  induction bs with
  | nil => simp [Prod.map]
  | cons b bs ih =>
    have hb := hbs b List.mem_cons_self
    rw [List.cons_append, commentText_cons (ne_of_beyond hb (by decide)),
      if_neg (ne_of_beyond hb (by decide)), ih fun x hx => hbs x (List.mem_cons_of_mem _ hx)]
    rfl

theorem commentText_octets (cs : List Char) :
    commentText (octets cs) = (commentText cs).map octets octets := by
  fun_induction commentText cs with
  | case1 | case2 => simp [octetsOf_ascii, commentText]
  | case3 c cs ih =>
    obtain ⟨b, bs, hbytes, hbs⟩ := octetsOf_eq_cons c
    simp [octetsOf_ascii, hbytes, commentText, commentText_beyond hbs, ih, Prod.map]
  | case4 cs => simp [octetsOf_ascii, commentText_cons]
  | case5 c cs hlast hesc hnewline ih =>
    rcases octetsOf_cases c with ⟨-, hbytes⟩ | ⟨hbeyond, -⟩
    · simp [hbytes, commentText_cons (ne_backslash hlast hesc), hnewline, ih, Prod.map]
    · rw [octets_cons, commentText_beyond fun x hx => beyond_of_mem_octetsOf hbeyond hx, ih]
      simp [Prod.map]

theorem nameRun_octets (cs : List Char) :
    nameRun (octets cs) = (nameRun cs).map octets octets := by
  fun_induction nameRun cs with
  | case1 cs ih => simp [octetsOf_ascii, nameRun, ih, Prod.map]
  | case2 c cs hcolons hname ih =>
    rcases octetsOf_cases c with ⟨-, hbytes⟩ | ⟨hbeyond, -⟩
    · rw [octets_cons, hbytes, List.singleton_append,
        nameRun_cons fun ds => pair_of_octets (by decide) hcolons, if_pos hname, ih]
      simp [Prod.map, hbytes]
    · rw [withinAscii_isNameChar c hbeyond] at hname
      cases hname
  | case3 c cs hcolons hname =>
    rcases octetsOf_cases c with ⟨-, hbytes⟩ | ⟨-, b, bs, hbytes, hlead, -⟩
    · rw [octets_cons, hbytes, List.singleton_append,
        nameRun_cons fun ds => pair_of_octets (by decide) hcolons, if_neg hname]
      simp [hbytes]
    · have hb : 128 ≤ b.toNat := by omega
      rw [octets_cons, hbytes, List.cons_append,
        nameRun_cons fun ds h => absurd h (ne_of_beyond hb (by decide)),
        withinAscii_isNameChar b hb]
      simp [hbytes]
  | case4 => rfl

theorem not_mem_octets {d : Char} (hd : d.toNat < 128) {cs : List Char} (h : d ∉ cs) :
    d ∉ octets cs := by
  intro hmem
  obtain ⟨c, hc, hbytes⟩ := List.mem_flatMap.1 hmem
  rcases octetsOf_cases c with ⟨-, hone⟩ | ⟨hbeyond, -⟩
  · rw [hone] at hbytes
    exact h (List.mem_singleton.1 hbytes ▸ hc)
  · have hd' := beyond_of_mem_octetsOf hbeyond hbytes
    omega

theorem octets_ne_cons {d : Char} (hd : d.toNat < 128) {cs : List Char}
    (h : ∀ inner, cs ≠ d :: inner) : ∀ inner, octets cs ≠ d :: inner := by
  intro inner heq
  obtain ⟨rest, hrest, -⟩ := (octets_eq_cons_iff hd).1 heq
  exact h rest hrest

theorem nameRun_octets_cons {cs name rest : List Char} {c : Char}
    (h : nameRun cs = (c :: name, rest)) :
    ∃ b bs, octetsOf c = b :: bs ∧
      nameRun (octets cs) = (b :: (bs ++ octets name), octets rest) := by
  obtain ⟨b, bs, hbytes, -⟩ := octetsOf_eq_cons c
  refine ⟨b, bs, hbytes, ?_⟩
  rw [nameRun_octets, h, Prod.map, octets_cons, hbytes, List.cons_append]

theorem variableRef_octets (cs : List Char) :
    variableRef (octets ('$' :: cs)) = (variableRef ('$' :: cs)).inOctets := by
  have hopen : octets ('$' :: cs) = '$' :: octets cs := octets_cons_ascii (by decide) cs
  have hparen : ∀ inner, octets ('(' :: inner) = '(' :: octets inner :=
    octets_cons_ascii (by decide)
  have henclosed : ∀ inner, enclosed '(' ')' 0 (octets inner) = _ :=
    enclosed_octets (by decide) (by decide) (by decide) (by decide) 0
  have href := reference cs
  generalize variableRef ('$' :: cs) = lex at href ⊢
  rw [hopen]
  cases href with
  | @braced name rest htext hname =>
    have htext' : octets cs = '{' :: (octets name ++ '}' :: octets rest) := by
      simp [htext, octetsOf_ascii]
    rw [(Reference.braced htext' (not_mem_octets (by decide) hname)).eq]
    simp [inOctets, octetsOf_ascii]
  | openBrace htext hclose =>
    have htext' := (congrArg octets htext).trans (octets_cons_ascii (by decide) _)
    rw [(Reference.openBrace htext' (not_mem_octets (by decide) hclose)).eq, ← hopen]
    exact unterminated_octets rfl _
  | alone hbrace hrun =>
    have hrun' := (nameRun_octets cs).trans (congrArg (Prod.map octets octets) hrun)
    rw [(Reference.alone (octets_ne_cons (by decide) hbrace) hrun').eq]
    simp [verbatim, inOctets, octetsOf_ascii]
  | plain hbrace hrun hrest =>
    obtain ⟨b, bs, hbytes, hrun'⟩ := nameRun_octets_cons hrun
    rw [(Reference.plain (octets_ne_cons (by decide) hbrace) hrun'
      (octets_ne_cons (by decide) hrest)).eq]
    simp [inOctets, octetsOf_ascii, hbytes]
  | @element c name inner index rest hbrace hrun hindex =>
    obtain ⟨b, bs, hbytes, hrun'⟩ := nameRun_octets_cons hrun
    have hindex' := (henclosed inner).trans (congrArg (Option.map (Prod.map octets octets)) hindex)
    rw [(Reference.element (octets_ne_cons (by decide) hbrace) (hparen inner ▸ hrun') hindex').eq]
    simp [inOctets, octetsOf_ascii, hbytes]
  | @openIndex c name inner hbrace hrun hindex =>
    obtain ⟨b, bs, hbytes, hrun'⟩ := nameRun_octets_cons hrun
    have hindex' := (henclosed inner).trans (congrArg (Option.map (Prod.map octets octets)) hindex)
    rw [(Reference.openIndex (octets_ne_cons (by decide) hbrace) (hparen inner ▸ hrun') hindex').eq,
      ← hopen]
    exact unterminated_octets rfl _

/-! ## Literals -/

/-- The run in the bytes of its characters. -/
def Run.inOctets (r : Run) : Run := ⟨octets r.taken, octets r.text, octets r.rest⟩

theorem Run.inOctets_after (taken text : List Char) (r : Run) :
    (r.after taken text).inOctets = r.inOctets.after (octets taken) (octets text) := by
  simp [Run.after, Run.inOctets]

theorem ascii_of_escape? {c e : Char} (h : escape? c = some e) : c.toNat < 128 ∧ e.toNat < 128 := by
  unfold escape? at h
  split at h <;> cases h <;> decide

theorem escape?_of_beyond {c : Char} (hc : 128 ≤ c.toNat) : escape? c = none := by
  cases h : escape? c with
  | none => rfl
  | some e =>
    have := (ascii_of_escape? h).1
    omega

section

variable {stop : Char → Bool} (hstop : WithinAscii stop)

include hstop

theorem literalRun_octet {b : Char} (hb : 128 ≤ b.toNat) (joining : Bool) (cs : List Char) :
    literalRun stop joining (b :: cs) = (literalRun stop false cs).after [b] [b] := by
  simp [literalRun, ne_of_beyond hb, hstop b hb]

theorem literalRun_beyond {bs : List Char} (hbs : ∀ b ∈ bs, 128 ≤ b.toNat) (cs : List Char) :
    literalRun stop false (bs ++ cs) = (literalRun stop false cs).after bs bs := by
  induction bs with
  | nil => rfl
  | cons b bs ih =>
    rw [List.cons_append, literalRun_octet hstop (hbs b List.mem_cons_self),
      ih fun x hx => hbs x (List.mem_cons_of_mem _ hx)]
    rfl

theorem literalRun_octets (joining : Bool) (cs : List Char) :
    literalRun stop joining (octets cs) = (literalRun stop joining cs).inOctets := by
  fun_induction literalRun stop joining cs with
  | case1 => rfl
  | case2 => simp [octetsOf_ascii, literalRun, Run.inOctets]
  | case3 _ cs hblank => simp [octetsOf_ascii, literalRun, Run.inOctets, hblank]
  | case4 _ cs hblank ih =>
    simp [octetsOf_ascii, literalRun, hblank, ih, Run.inOctets_after]
  | case5 _ c cs hnewline e hesc ih =>
    obtain ⟨hc, he⟩ := ascii_of_escape? hesc
    simp [octetsOf_ascii, hc, he, literalRun, hnewline, hesc, ih, Run.inOctets_after]
  | case6 _ c cs hnewline hesc ih =>
    -- The backslash stands for itself; what follows it is read again.
    obtain ⟨b, bs, hbytes, hb, hb'⟩ :
        ∃ b bs, octetsOf c = b :: bs ∧ b ≠ '\n' ∧ escape? b = none := by
      rcases octetsOf_cases c with ⟨-, hbytes⟩ | ⟨-, b, bs, hbytes, hlead, -⟩
      · exact ⟨c, [], hbytes, hnewline, hesc⟩
      · exact ⟨b, bs, hbytes, ne_of_beyond (by omega) (by decide), escape?_of_beyond (by omega)⟩
    rw [octets_cons, hbytes, List.cons_append] at ih
    simp [octetsOf_ascii, hbytes, literalRun, hb, hb', ih, Run.inOctets_after]
  | case7 joining c cs hlast hesc hjoin ih =>
    have hc : c.toNat < 128 := by
      simp only [Bool.and_eq_true, Bool.or_eq_true, beq_iff_eq] at hjoin
      rcases hjoin.2 with rfl | rfl <;> decide
    simp [octetsOf_ascii hc, literalRun, ne_backslash hlast hesc, hjoin, ih, Run.inOctets_after]
  | case8 joining c cs hlast hesc hjoin hend =>
    simp [octetsOf_ascii (hstop.lt hend), literalRun, ne_backslash hlast hesc, hjoin, hend,
      Run.inOctets]
  | case9 joining c cs hlast hesc hjoin hend ih =>
    rcases octetsOf_cases c with ⟨-, hbytes⟩ | ⟨hbeyond, b, bs, hbytes, hlead, hmore⟩
    · simp [hbytes, literalRun, ne_backslash hlast hesc, hjoin, hend, ih, Run.inOctets_after]
    · have hbs := literalRun_beyond hstop (fun x hx => (hmore x hx).1) (octets cs)
      rw [octets_cons, hbytes, List.cons_append, literalRun_octet hstop (by omega), hbs, ih]
      simp [Run.after, Run.inOctets, hbytes]

end

/-! ## Numbers and operators -/

theorem withinAscii_isNumberTail : WithinAscii isNumberTail := by
  intro c hc
  simp [isNumberTail, withinAscii_isNameChar c hc, ne_of_beyond hc]

theorem withinAscii_isDigitOf {radix : Nat} (h : radix ≤ 16) :
    WithinAscii (Integer.isDigitOf radix) := by
  intro c hc
  have hval : 128 ≤ c.val.toNat := hc
  have hletter : ∀ d : Char, d.toNat < 128 → ¬c ≤ d := fun d hd hle =>
    absurd (Nat.le_trans hval (UInt32.le_iff_toNat_le.1 hle)) (Nat.not_le_of_lt hd)
  have hdigit : '0'.toNat = 48 := rfl
  unfold Integer.isDigitOf
  split
  · simp [withinAscii_isDigit c hc, hletter 'f' (by decide), hletter 'F' (by decide)]
  · simp only [hdigit, Bool.and_eq_false_iff, decide_eq_false_iff_not]
    exact .inr (by omega)

theorem ascii_of_radixOf? {mark : Char} {radix : Nat} (h : Integer.radixOf? mark = some radix) :
    mark.toNat < 128 ∧ radix ≤ 16 := by
  unfold Integer.radixOf? at h
  split at h <;> cases h <;> decide

/-- An exponent is a letter and digits, with a sign before the digits or not. -/
theorem exponentPart_cons (e : Char) (cs : List Char) :
    exponentPart (e :: cs) =
      if e == 'e' || e == 'E' then
        if cs.head?.any (fun sign => sign == '+' || sign == '-') &&
            cs.tail.head?.any Char.isDigit then
          e :: (cs.take 1 ++ cs.tail.takeWhile Char.isDigit)
        else if cs.head?.any Char.isDigit then e :: cs.takeWhile Char.isDigit
        else []
      else [] := by
  cases cs with
  | nil => simp [exponentPart]
  | cons sign cs =>
    cases cs with
    | nil =>
      cases he : e == 'e' || e == 'E' <;> cases hdigit : sign.isDigit <;>
        simp [exponentPart, he, hdigit]
    | cons d cs => rfl

theorem exponentPart_octets (cs : List Char) : exponentPart (octets cs) = exponentPart cs := by
  have hsign : WithinAscii fun sign => sign == '+' || sign == '-' := fun c hc => by
    simp [ne_of_beyond hc]
  cases cs with
  | nil => rfl
  | cons e cs =>
    rcases octetsOf_cases e with ⟨-, hbytes⟩ | ⟨hbeyond, b, bs, hbytes, hlead, -⟩
    · rw [octets_cons, hbytes, List.singleton_append, exponentPart_cons, exponentPart_cons,
        hsign.any_head?, withinAscii_isDigit.any_head?, withinAscii_isDigit.takeWhile]
      cases cs with
      | nil => rfl
      | cons sign cs =>
        rcases octetsOf_cases sign with ⟨-, hbytes'⟩ | ⟨hbeyond', -⟩
        · rw [octets_cons, hbytes', List.singleton_append, List.tail_cons,
            withinAscii_isDigit.any_head?, withinAscii_isDigit.takeWhile]
          rfl
        · simp [hsign sign hbeyond']
    · have hb : 128 ≤ b.toNat := by omega
      simp [hbytes, exponentPart_cons, ne_of_beyond hb, ne_of_beyond hbeyond]

section

variable {cs : List Char}

theorem ascii_of_mem_exponentPart {c : Char} (h : c ∈ exponentPart cs) : c.toNat < 128 := by
  cases cs with
  | nil => cases h
  | cons e cs =>
    rw [exponentPart_cons] at h
    split at h
    · rename_i he
      have he : e.toNat < 128 := by
        simp only [Bool.or_eq_true, beq_iff_eq] at he
        rcases he with rfl | rfl <;> decide
      split at h
      · rename_i hsign
        obtain ⟨sign, rest, rfl⟩ : ∃ sign rest, cs = sign :: rest := by
          cases cs with
          | nil => cases hsign
          | cons sign rest => exact ⟨sign, rest, rfl⟩
        simp only [List.head?_cons, Option.any_some, Bool.and_eq_true, Bool.or_eq_true,
          beq_iff_eq] at hsign
        simp only [List.take_succ_cons, List.take_zero, List.tail_cons, List.mem_cons,
          List.mem_append, List.not_mem_nil, or_false] at h
        rcases h with rfl | rfl | h
        · exact he
        · rcases hsign.1 with rfl | rfl <;> decide
        · exact withinAscii_isDigit.of_mem_takeWhile h
      · split at h
        · rcases List.mem_cons.1 h with rfl | h
          · exact he
          · exact withinAscii_isDigit.of_mem_takeWhile h
        · cases h
    · cases h

theorem decimalPart_of_point {after : List Char} (h : cs.dropWhile Char.isDigit = '.' :: after) :
    decimalPart cs =
      (cs.takeWhile Char.isDigit ++ '.' :: after.takeWhile Char.isDigit ++
        exponentPart (after.dropWhile Char.isDigit), false) := by
  simp [decimalPart, h]

theorem decimalPart_of_no_point (h : ∀ after, cs.dropWhile Char.isDigit ≠ '.' :: after) :
    decimalPart cs =
      (cs.takeWhile Char.isDigit ++ exponentPart (cs.dropWhile Char.isDigit),
        (exponentPart (cs.dropWhile Char.isDigit)).isEmpty) := by
  unfold decimalPart
  split
  rename_i heq
  split at heq
  · rename_i after hafter
    exact absurd hafter (h after)
  · cases heq
    simp

theorem ascii_of_mem_decimalPart {c : Char} (h : c ∈ (decimalPart cs).1) : c.toNat < 128 := by
  by_cases hpoint : ∃ after, cs.dropWhile Char.isDigit = '.' :: after
  · obtain ⟨after, hafter⟩ := hpoint
    rw [decimalPart_of_point hafter] at h
    simp only [List.mem_append, List.mem_cons] at h
    rcases h with (h | rfl | h) | h
    · exact withinAscii_isDigit.of_mem_takeWhile h
    · decide
    · exact withinAscii_isDigit.of_mem_takeWhile h
    · exact ascii_of_mem_exponentPart h
  · rw [decimalPart_of_no_point fun after hafter => hpoint ⟨after, hafter⟩] at h
    rcases List.mem_append.1 h with h | h
    · exact withinAscii_isDigit.of_mem_takeWhile h
    · exact ascii_of_mem_exponentPart h

end

theorem decimalPart_octets (cs : List Char) : decimalPart (octets cs) = decimalPart cs := by
  have hdrop := dropWhile_octets withinAscii_isDigit cs
  by_cases hpoint : ∃ after, cs.dropWhile Char.isDigit = '.' :: after
  · obtain ⟨after, hafter⟩ := hpoint
    rw [hafter, octets_cons_ascii (by decide)] at hdrop
    rw [decimalPart_of_point hafter, decimalPart_of_point hdrop, withinAscii_isDigit.takeWhile,
      withinAscii_isDigit.takeWhile, dropWhile_octets withinAscii_isDigit, exponentPart_octets]
  · have hno : ∀ after, cs.dropWhile Char.isDigit ≠ '.' :: after := fun after hafter =>
      hpoint ⟨after, hafter⟩
    have hno' : ∀ after, (octets cs).dropWhile Char.isDigit ≠ '.' :: after := by
      intro after hafter
      obtain ⟨rest, hrest, -⟩ := (octets_eq_cons_iff (by decide)).1 (hdrop.symm.trans hafter)
      exact hno rest hrest
    rw [decimalPart_of_no_point hno, decimalPart_of_no_point hno', withinAscii_isDigit.takeWhile,
      hdrop, exponentPart_octets]

theorem numberFrom_octets {cs taken : List Char} (htaken : ∀ c ∈ taken, c.toNat < 128)
    (hfront : taken <+: cs) (kind : WordKind) (bare : Bool) :
    numberFrom (octets cs) taken kind bare = (numberFrom cs taken kind bare).inOctets := by
  obtain ⟨rest, rfl⟩ := hfront
  unfold numberFrom
  rw [octets_append, octets_of_ascii htaken, List.drop_left, List.drop_left,
    withinAscii_isNumberTail.any_head?]
  split
  · have htail : octets (rest.takeWhile isNumberTail) = rest.takeWhile isNumberTail :=
      octets_of_ascii fun c hc => withinAscii_isNumberTail.of_mem_takeWhile hc
    have hmessage : octets "malformed number \"".toList = "malformed number \"".toList :=
      octets_of_isAscii rfl
    simp only [malformedNumber, inOctets, octets_append, octets_of_ascii htaken, htail, hmessage,
      withinAscii_isNumberTail.takeWhile, dropWhile_octets withinAscii_isNumberTail]
    rfl
  · simp [verbatim, inOctets, octets_of_ascii htaken]

theorem number_octets (cs : List Char) : number (octets cs) = (number cs).inOctets := by
  rcases number_cases cs with ⟨mark, digits, radix, rfl, hradix⟩ | hnone
  · obtain ⟨hascii, hle⟩ := ascii_of_radixOf? hradix
    have hdigits := withinAscii_isDigitOf hle
    rw [octets_cons_ascii (by decide), octets_cons_ascii hascii, number_of_mark hradix,
      number_of_mark hradix, hdigits.takeWhile, ← octets_cons_ascii hascii,
      ← octets_cons_ascii (by decide)]
    refine numberFrom_octets (fun c hc => ?_) ?_ _ _
    · simp only [List.mem_cons] at hc
      rcases hc with rfl | rfl | hc
      · decide
      · exact hascii
      · exact hdigits.of_mem_takeWhile hc
    · exact (List.prefix_cons_inj _).mpr ((List.prefix_cons_inj _).mpr (List.takeWhile_prefix _))
  · have hnone' : ∀ mark digits, octets cs = '0' :: mark :: digits →
        Integer.radixOf? mark = none := by
      intro mark digits hcs
      obtain ⟨rest, rfl, hrest⟩ := (octets_eq_cons_iff (by decide)).1 hcs
      refine Option.eq_none_iff_forall_ne_some.2 fun radix hradix => ?_
      obtain ⟨digits, rfl, -⟩ := (octets_eq_cons_iff (ascii_of_radixOf? hradix).1).1 hrest
      cases (hnone mark digits rfl).symm.trans hradix
    rw [number_of_decimal hnone, number_of_decimal hnone', decimalPart_octets]
    exact numberFrom_octets (fun c hc => ascii_of_mem_decimalPart hc) (decimalPart_isPrefix cs) _ _

theorem operator?_of_beyond {d : Char} (hd : 128 ≤ d.toNat) (c : Char) :
    operator? c (some d) = operator? c none := by
  have hne : ∀ x : Char, x.toNat < 128 → d ≠ x := fun x hx => ne_of_beyond hd hx
  unfold operator?
  split <;> simp_all

theorem operator?_octets (c : Char) (cs : List Char) :
    operator? c (octets cs).head? = operator? c cs.head? := by
  cases cs with
  | nil => rfl
  | cons d cs =>
    rcases octetsOf_cases d with ⟨-, hbytes⟩ | ⟨hbeyond, b, bs, hbytes, hlead, -⟩
    · rw [octets_cons, hbytes]
      rfl
    · rw [octets_cons, hbytes, List.cons_append, List.head?_cons, List.head?_cons,
        operator?_of_beyond (by omega), operator?_of_beyond hbeyond]

/-- An operator is one character, or two that are both ASCII. -/
theorem size_of_operator? {c : Char} {next : Option Char} {kind : WordKind} {size : Nat}
    (h : operator? c next = some (kind, size)) :
    size = 1 ∨ size = 2 ∧ ∃ d, next = some d ∧ d.toNat < 128 := by
  unfold operator? at h
  split at h <;> cases h <;> first | exact .inl rfl | exact .inr ⟨rfl, _, rfl, by decide⟩

theorem operator_octets {c : Char} (hc : c.toNat < 128) (cs : List Char) :
    operator c (octets cs) = (operator c cs).inOctets := by
  unfold operator
  rw [operator?_octets]
  cases hop : operator? c cs.head? with
  | none =>
    have hmessage : octets "unexpected character \"".toList = "unexpected character \"".toList :=
      octets_of_isAscii rfl
    simp only [inOctets, octets_append, hmessage, octets_cons_ascii hc]
    rfl
  | some found =>
    obtain ⟨kind, size⟩ := found
    rcases size_of_operator? hop with rfl | ⟨rfl, d, hd, hascii⟩
    · simp [verbatim, inOctets, octetsOf_ascii hc]
    · obtain ⟨rest, rfl⟩ := List.head?_eq_some_iff.1 hd
      simp [verbatim, inOctets, octetsOf_ascii hc, octetsOf_ascii hascii]

end Lexeme

end CommandScript
