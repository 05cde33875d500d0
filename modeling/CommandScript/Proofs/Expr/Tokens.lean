import CommandScript.Proofs.Expr.Rendering
import CommandScript.Proofs.Integer.Grammar

/-!
# Reading tokens

A token that is written before a blank, or at the end of a text, is read back as one word of its
kind and text (`Token.Readable`). So the words of a tree's text are the tokens of the tree
(`words_render`).
-/

namespace CommandScript

/-! ## Delimiters -/

namespace Lexeme

theorem nameRun_of_isNameText {cs : List Char} (h : isNameText cs = true) (rest : List Char)
    (hrest : ∀ c ∈ rest.head?, c = ' ' ∨ c = '(') : nameRun (cs ++ rest) = (cs, rest) := by
  fun_induction isNameText cs with
  | case1 =>
    cases rest with
    | nil => rfl
    | cons c r =>
      have hblank : isNameChar ' ' = false := by decide
      have hparen : isNameChar '(' = false := by decide
      rcases hrest c rfl with rfl | rfl <;> simp [nameRun, hblank, hparen]
  | case2 cs ih => simp [nameRun, ih h]
  | case3 c cs hcolon ih =>
    simp only [Bool.and_eq_true] at h
    have hne : c ≠ ':' := by rintro rfl; exact absurd h.1 (by decide)
    simp [nameRun, hne, h.1, ih h.2]

end Lexeme

/-! ## Digits -/

namespace Integer

theorem isDigit_of_mem_toText {n : Int64} (h : 0 ≤ n.toInt) {c : Char}
    (hc : c ∈ (Integer.toText n).toList) : c.isDigit = true := by
  rw [toList_toText h] at hc
  exact Nat.isDigit_of_mem_toDigits (by decide) (by decide) hc

end Integer

/-! ## Single tokens -/

namespace Token

/-- A token ends at the end of the text or before a blank. -/
def Ended (rest : List Char) : Prop := rest = [] ∨ ∃ r, rest = ' ' :: r

/-- A token is read as one word wherever it ends. -/
structure Readable (t : Token) : Prop where
  lexeme : ∀ rest, Ended rest →
    Scanner.expressionLexeme (t.source.toList ++ rest) =
      ⟨t.kind, t.source.toList, t.text.toList, rest⟩
  start : ∃ c cs, t.source.toList = c :: cs ∧ Lexeme.isSpaceOrNewline c = false
  kind_ne_eof : t.kind ≠ .eof

theorem Ended.head {rest : List Char} (h : Ended rest) : ∀ c ∈ rest.head?, c = ' ' := by
  rcases h with rfl | ⟨r, rfl⟩
  · exact fun _ h => by cases h
  · exact fun c hc => (Option.some.inj hc).symm

/-- A class without the blank ends with the token. -/
theorem Ended.split {rest : List Char} (h : Ended rest) {p : Char → Bool} (hp : p ' ' = false)
    {cs : List Char} (hcs : ∀ c ∈ cs, p c = true) :
    (cs ++ rest).takeWhile p = cs ∧ (cs ++ rest).dropWhile p = rest := by
  have hrest : rest.takeWhile p = [] ∧ rest.dropWhile p = rest := by
    rcases h with rfl | ⟨r, rfl⟩ <;> simp [hp]
  rw [List.takeWhile_append_of_pos hcs, List.dropWhile_append_of_pos hcs, hrest.1, hrest.2]
  simp

theorem readable_leftParen : leftParen.Readable where
  lexeme := by rintro _ (rfl | ⟨r, rfl⟩) <;> rfl
  start := ⟨_, _, rfl, by decide⟩
  kind_ne_eof := by decide

theorem readable_rightParen : rightParen.Readable where
  lexeme := by rintro _ (rfl | ⟨r, rfl⟩) <;> rfl
  start := ⟨_, _, rfl, by decide⟩
  kind_ne_eof := by decide

theorem readable_comma : comma.Readable where
  lexeme := by rintro _ (rfl | ⟨r, rfl⟩) <;> rfl
  start := ⟨_, _, rfl, by decide⟩
  kind_ne_eof := by decide

theorem readable_colon : colon.Readable where
  lexeme := by rintro _ (rfl | ⟨r, rfl⟩) <;> rfl
  start := ⟨_, _, rfl, by decide⟩
  kind_ne_eof := by decide

theorem readable_unary (op : UnaryOp) : (unary op).Readable where
  lexeme := by cases op <;> rintro _ (rfl | ⟨r, rfl⟩) <;> rfl
  start := by cases op <;> exact ⟨_, _, rfl, by decide⟩
  kind_ne_eof := by cases op <;> decide

theorem readable_operator (op : InfixOp) : (operator op).Readable where
  lexeme := by
    rcases op with op | _ | _ | _
    · cases op <;> rintro _ (rfl | ⟨r, rfl⟩) <;> rfl
    all_goals rintro _ (rfl | ⟨r, rfl⟩) <;> rfl
  start := by
    rcases op with op | _ | _ | _
    · cases op <;> exact ⟨_, _, rfl, by decide⟩
    all_goals exact ⟨_, _, rfl, by decide⟩
  kind_ne_eof := by
    rcases op with op | _ | _ | _
    · cases op <;> decide
    all_goals decide

theorem isSpaceOrNewline_eq_false {p : Char → Bool} (hp : [' ', '\t', '\r', '\n'].any p = false)
    {c : Char} (hc : p c = true) : Lexeme.isSpaceOrNewline c = false := by
  rw [Bool.eq_false_iff]
  intro hspace
  have hmem : c ∈ [' ', '\t', '\r', '\n'] := by
    simpa [Lexeme.isSpaceOrNewline, Lexeme.isSpace, or_assoc] using hspace
  exact List.any_eq_false.mp hp c hmem hc

theorem isDigit_eq_false_of_isAlpha {c : Char} (h : c.isAlpha = true) : c.isDigit = false := by
  rw [Bool.eq_false_iff]
  intro hdigit
  have h : (decide (c.val ≥ 'A'.val ∧ c.val ≤ 'Z'.val) ||
      (decide (c.val ≥ 'a'.val) && decide (c.val ≤ 'z'.val))) = true := h
  simp only [Char.isDigit, Bool.or_eq_true, Bool.and_eq_true, decide_eq_true_eq, ge_iff_le,
    UInt32.le_iff_toNat_le] at h hdigit
  simp at h hdigit
  omega

/-- A word of letters, digits and underscores that does not begin with a digit. -/
theorem readable_name (text : String) (h : Lexeme.isFunctionName text.toList = true) :
    (plain .literal text).Readable := by
  obtain ⟨hfirst, hall⟩ := Bool.and_eq_true_iff.1 h
  rw [List.all_eq_true] at hall
  obtain ⟨c, cs, hcs⟩ : ∃ c cs, text.toList = c :: cs := by
    cases hcs : text.toList with
    | nil => rw [hcs] at hfirst; cases hfirst
    | cons c cs => exact ⟨c, cs, rfl⟩
  rw [hcs] at hfirst
  have hletter : c.isAlpha = true ∨ c = '_' := by simpa using hfirst
  have hdigit : c.isDigit = false := by
    rcases hletter with hc | rfl
    · exact isDigit_eq_false_of_isAlpha hc
    · decide
  have hdot : c ≠ '.' := by
    rintro rfl
    exact absurd hletter (by decide)
  refine ⟨fun rest hrest => ?_, ⟨c, cs, hcs, ?_⟩, fun hkind => by cases hkind⟩
  · obtain ⟨htake, hdrop⟩ := hrest.split (p := Lexeme.isNameChar) (by decide) hall
    show Scanner.expressionLexeme (text.toList ++ rest) =
      ⟨.literal, text.toList, text.toList, rest⟩
    rw [hcs] at htake hdrop ⊢
    rw [List.cons_append] at htake hdrop ⊢
    simp [Scanner.expressionLexeme, hdigit, hdot, hletter, htake, hdrop, Lexeme.verbatim]
  · exact isSpaceOrNewline_eq_false (by decide) (hall c (hcs ▸ List.mem_cons_self))

/-! ### Integers -/

theorem number_digits {d : Char} {ds rest : List Char} (hds : ∀ c ∈ d :: ds, c.isDigit = true)
    (hrest : Ended rest) :
    Lexeme.number (d :: ds ++ rest) = .verbatim .integer (d :: ds) rest := by
  obtain ⟨htake, hdrop⟩ := hrest.split (p := Char.isDigit) (by decide) hds
  have hdecimal : Lexeme.decimalPart (d :: ds ++ rest) = (d :: ds, true) := by
    unfold Lexeme.decimalPart
    rw [htake, hdrop]
    rcases hrest with rfl | ⟨r, rfl⟩
    · simp [Lexeme.exponentPart]
    · rcases r with _ | ⟨c, _ | ⟨c', r⟩⟩ <;> simp [Lexeme.exponentPart]
  have hend : rest.head?.any Lexeme.isNumberTail = false := by
    rcases hrest with rfl | ⟨r, rfl⟩
    · rfl
    · show Lexeme.isNumberTail ' ' = false
      decide
  -- The character after a leading zero is a digit or a blank, so it marks no other radix.
  have hmark : ∀ mark digits, d :: ds ++ rest = '0' :: mark :: digits →
      Integer.radixOf? mark = none := by
    intro mark digits heq
    refine Integer.radixOf?_eq_none ?_
    rcases ds with _ | ⟨d', ds⟩
    · rcases hrest with rfl | ⟨r, rfl⟩
      · cases heq
      · simp at heq; exact .inr heq.2.1.symm
    · simp at heq
      exact .inl (heq.2.1 ▸ hds d' (by simp))
  unfold Lexeme.number
  dsimp only
  split
  · rename_i mark digits heq
    rw [hmark mark digits heq, hdecimal]
    simp [hend]
  · rw [hdecimal]
    simp [hend]

theorem readable_digits {ds : List Char} (hne : ds ≠ []) (hds : ∀ c ∈ ds, c.isDigit = true) :
    (plain .integer (String.ofList ds)).Readable := by
  obtain ⟨d, ds, rfl⟩ := List.exists_cons_of_ne_nil hne
  have hd := hds d List.mem_cons_self
  have hlist : (String.ofList (d :: ds)).toList = d :: ds := String.toList_ofList
  refine ⟨fun rest hrest => ?_, ⟨d, ds, hlist, ?_⟩, fun hkind => by cases hkind⟩
  · show Scanner.expressionLexeme ((String.ofList (d :: ds)).toList ++ rest) =
      .verbatim .integer (String.ofList (d :: ds)).toList rest
    rw [hlist, ← number_digits hds hrest]
    simp [Scanner.expressionLexeme, hd]
  · exact isSpaceOrNewline_eq_false (by decide) hd

theorem readable_integer {n : Int64} (h : 0 ≤ n.toInt) :
    (plain .integer (Integer.toText n)).Readable := by
  have hne : (Integer.toText n).toList ≠ [] := by
    rw [Integer.toList_toText h]
    exact Nat.toDigits_ne_nil
  rw [← String.ofList_toList (s := Integer.toText n)]
  exact readable_digits hne fun c => Integer.isDigit_of_mem_toText h

/-! ### Variables and scripts -/

theorem variableRef_bare {cs : List Char} (h : Lexeme.isBareName cs = true) {rest : List Char}
    (hrest : Ended rest) :
    Lexeme.variableRef ('$' :: (cs ++ rest)) = ⟨.varRef, '$' :: cs, cs, rest⟩ := by
  obtain ⟨base, index, rfl, hbase, hname, hindex⟩ : ∃ base index, base ++ index = cs ∧ base ≠ [] ∧
      Lexeme.isNameText base = true ∧ (index = [] ∨ ∃ inner, index = '(' :: (inner ++ [')']) ∧
        Lexeme.balancedFrom '(' ')' 0 inner = true) := by
    simp only [Lexeme.isBareName, Bool.and_eq_true, Bool.not_eq_true',
      List.isEmpty_eq_false_iff] at h
    obtain ⟨⟨hbase, hname⟩, hindex⟩ := h
    refine ⟨_, _, List.takeWhile_append_dropWhile, hbase, hname, ?_⟩
    cases hdrop : cs.dropWhile (· != '(') with
    | nil => exact .inl rfl
    | cons paren after =>
      have hparen : paren = '(' := by
        have hne : cs.dropWhile (· != '(') ≠ [] := by rw [hdrop]; exact List.cons_ne_nil _ _
        simpa [hdrop] using List.head_dropWhile_not (· != '(') hne
      rw [hdrop] at hindex
      simp only [Bool.and_eq_true, beq_iff_eq] at hindex
      obtain ⟨inner, rfl⟩ := List.getLast?_eq_some_iff.1 hindex.1
      rw [List.dropLast_concat] at hindex
      exact .inr ⟨inner, by rw [hparen], hindex.2⟩
  obtain ⟨b, base, rfl⟩ := List.exists_cons_of_ne_nil hbase
  -- The first character of a name is not the brace that would open a braced one.
  have hb : b ≠ '{' := by
    rintro rfl
    simp [Lexeme.isNameText, Lexeme.isNameChar] at hname
  rcases hindex with rfl | ⟨inner, rfl, hinner⟩
  · have hrun := Lexeme.nameRun_of_isNameText hname rest fun c hc => .inl (hrest.head c hc)
    rw [List.cons_append] at hrun
    rcases hrest with rfl | ⟨r, rfl⟩ <;> simp_all [Lexeme.variableRef]
  · have hrun := Lexeme.nameRun_of_isNameText hname ('(' :: (inner ++ ')' :: rest))
      fun c hc => .inr (Option.some.inj hc).symm
    have hinner := Lexeme.enclosed_of_balancedFrom (by decide) (by decide) (by decide) rest hinner
    rw [List.cons_append] at hrun
    simp [Lexeme.variableRef, hb, hrun, hinner]

theorem readable_variableRef {name : String}
    (h : (Lexeme.isBareName name.toList || !name.toList.contains '}') = true) :
    (variableRef name).Readable := by
  refine ⟨fun rest hrest => ?_, ?_, fun hkind => by cases hkind⟩
  · cases hbare : Lexeme.isBareName name.toList with
    | true =>
      have hsource : (variableRef name).source.toList = '$' :: name.toList := by
        simp [variableRef, hbare]
      rw [hsource, List.cons_append]
      exact variableRef_bare hbare hrest
    | false =>
      have hname : '}' ∉ name.toList := by simpa [hbare] using h
      have hsource : (variableRef name).source.toList =
          '$' :: '{' :: (name.toList ++ ['}']) := by
        simp [variableRef, hbare]
      rw [hsource, List.cons_append, List.cons_append, List.append_assoc]
      exact (Lexeme.Reference.braced rfl hname).eq
  · cases hbare : Lexeme.isBareName name.toList with
    | true => exact ⟨'$', name.toList, by simp [variableRef, hbare], by decide⟩
    | false =>
      exact ⟨'$', '{' :: (name.toList ++ ['}']), by simp [variableRef, hbare], by decide⟩

theorem readable_script {text : String}
    (h : Lexeme.balancedFrom '[' ']' 0 text.toList = true) : (script text).Readable where
  lexeme rest _ := by
    have hinner := Lexeme.enclosed_of_balancedFrom (by decide) (by decide) (by decide) rest h
    have hsource : (script text).source.toList = '[' :: (text.toList ++ [']']) := by
      simp [script]
    rw [hsource]
    show Scanner.expressionLexeme _ = ⟨.script, _, text.toList, rest⟩
    simp [Scanner.expressionLexeme, Lexeme.script, Lexeme.delimited, hinner]
  start := ⟨'[', text.toList ++ [']'], by simp [script], by decide⟩
  kind_ne_eof := fun h => by cases h

end Token

/-! ## The words of a rendering -/

/-- The mode of a scanner that reads nothing but an expression. -/
abbrev expressionMode : Nat → ScanMode := fun _ => .expression

namespace Scanner

theorem readWith_expression {s : Scanner} {lex : Lexeme}
    (h : expressionLexeme (s.rest.dropWhile Lexeme.isSpaceOrNewline) = lex)
    (hkind : lex.kind ≠ .eof) (fuel i : Nat) :
    ∃ (w : Word) (s' : Scanner),
      w.token = ⟨lex.kind, String.ofList lex.text, String.ofList lex.taken⟩ ∧ s'.rest = lex.rest ∧
        (s.readWith expressionMode (fuel + 1) i).1 =
          w :: (s'.readWith expressionMode fuel (i + 1)).1 := by
  subst h
  refine ⟨(s.next .expression).1, (s.next .expression).2, rfl, rfl, ?_⟩
  have hkind : (s.next .expression).1.kind ≠ .eof := hkind
  rw [readWith]
  show (if (s.next .expression).1.kind = .eof then _ else _ : List Word × Scanner).1 = _
  rw [if_neg hkind]
  rfl

theorem readWith_expression_end {s : Scanner}
    (h : s.rest.dropWhile Lexeme.isSpaceOrNewline = []) (fuel i : Nat) :
    (s.readWith expressionMode (fuel + 1) i).1.map Word.token = [Token.eof] := by
  have hlex : (s.skipBlanks .expression).lexeme .expression = .verbatim .eof [] [] := by
    show expressionLexeme (s.rest.dropWhile Lexeme.isSpaceOrNewline) = _
    rw [h]
    rfl
  simp [readWith, next, hlex, Lexeme.verbatim, Word.token, Token.eof, Token.plain]

/-- The characters of some tokens with blanks between them. -/
def written (ts : List Token) : List Char := [' '].intercalate (ts.map fun t => t.source.toList)

/-- What tokens are written as does not begin with a blank. -/
theorem dropWhile_written {ts : List Token} (hts : ∀ t ∈ ts, t.Readable) :
    (written ts).dropWhile Lexeme.isSpaceOrNewline = written ts := by
  cases ts with
  | nil => rfl
  | cons t ts =>
    obtain ⟨c, cs, hsource, hc⟩ := (hts t List.mem_cons_self).start
    obtain ⟨r, hr⟩ : ∃ r, written (t :: ts) = c :: r := by
      cases ts with
      | nil => exact ⟨cs, by simp [written, hsource]⟩
      | cons t' ts =>
        exact ⟨_, by rw [written, List.map_cons, List.map_cons, List.intercalate_cons_cons, hsource,
          List.cons_append, List.cons_append]⟩
    rw [hr]
    simp [List.dropWhile, hc]

/-- After the first of some tokens comes the end, or a blank and the other tokens. -/
theorem written_cons {t : Token} {ts : List Token} (hts : ∀ t ∈ ts, t.Readable) :
    ∃ rest, written (t :: ts) = t.source.toList ++ rest ∧ Token.Ended rest ∧
      rest.dropWhile Lexeme.isSpaceOrNewline = written ts := by
  cases ts with
  | nil => exact ⟨[], by simp [written], .inl rfl, rfl⟩
  | cons t' ts =>
    refine ⟨' ' :: written (t' :: ts), ?_, .inr ⟨_, rfl⟩, ?_⟩
    · simp only [written, List.map_cons, List.intercalate_cons_cons]
      simp
    · have hspace : Lexeme.isSpaceOrNewline ' ' = true := by decide
      rw [List.dropWhile_cons_of_pos hspace]
      exact dropWhile_written hts

/-- A scanner before the first of some tokens reads them all, and then the end. -/
theorem readWith_tokens {ts : List Token} (hts : ∀ t ∈ ts, t.Readable) {s : Scanner}
    (hs : s.rest.dropWhile Lexeme.isSpaceOrNewline = written ts) {fuel : Nat}
    (hfuel : s.rest.length < fuel) (i : Nat) :
    (s.readWith expressionMode fuel i).1.map Word.token = ts ++ [Token.eof] := by
  induction ts generalizing s fuel i with
  | nil =>
    obtain ⟨fuel, rfl⟩ : ∃ n, fuel = n + 1 := ⟨fuel - 1, by omega⟩
    exact readWith_expression_end hs fuel i
  | cons t ts ih =>
    obtain ⟨fuel, rfl⟩ : ∃ n, fuel = n + 1 := ⟨fuel - 1, by omega⟩
    have ht := hts t List.mem_cons_self
    have hts : ∀ t ∈ ts, t.Readable := fun t ht => hts t (List.mem_cons_of_mem _ ht)
    obtain ⟨rest, hrest, hended, hnext⟩ := written_cons (t := t) hts
    have hlex := ht.lexeme rest hended
    rw [← hrest, ← hs] at hlex
    obtain ⟨w, s', hw, hs', hread⟩ := readWith_expression hlex ht.kind_ne_eof fuel i
    have hshorter : s'.rest.length < fuel := by
      obtain ⟨c, cs, hsource, -⟩ := ht.start
      have hle := (List.dropWhile_suffix Lexeme.isSpaceOrNewline (l := s.rest)).length_le
      rw [hs, hrest, hsource] at hle
      simp only [hs', List.cons_append, List.length_cons, List.length_append] at hle ⊢
      omega
    rw [hread, List.map_cons, hw, ih hts (by rw [hs']; exact hnext) hshorter]
    simp

end Scanner

namespace Expr

theorem readable_wrap {needed : Bool} {ts : List Token} (h : ∀ t ∈ ts, t.Readable) :
    ∀ t ∈ Token.wrap needed ts, t.Readable := by
  intro t ht
  unfold Token.wrap at ht
  split at ht
  · rcases List.mem_cons.1 ht with rfl | ht
    · exact Token.readable_leftParen
    · rcases List.mem_append.1 ht with ht | ht
      · exact h t ht
      · rw [List.mem_singleton.1 ht]
        exact Token.readable_rightParen
  · exact h t ht

/-- The tokens of two operands with an operator between them. -/
theorem readable_operation {left right : List Token} (op : InfixOp) (hl : ∀ t ∈ left, t.Readable)
    (hr : ∀ t ∈ right, t.Readable) : ∀ t ∈ left ++ .operator op :: right, t.Readable := by
  intro t ht
  rcases List.mem_append.1 ht with ht | ht
  · exact hl t ht
  · rcases List.mem_cons.1 ht with rfl | ht
    · exact Token.readable_operator op
    · exact hr t ht

mutual

theorem readable_tokens (e : Expr) (h : e.isWritable = true) : ∀ t ∈ e.tokens, t.Readable := by
  match e with
  | .literal (.integer n) =>
    have hn : 0 ≤ n.toInt := by simpa [isWritable] using h
    exact List.forall_mem_singleton.2 (Token.readable_integer hn)
  | .literal (.boolean true) =>
    exact List.forall_mem_singleton.2 (Token.readable_name "true" (by decide))
  | .literal (.boolean false) =>
    exact List.forall_mem_singleton.2 (Token.readable_name "false" (by decide))
  | .literal (.real _) => cases h
  | .varRef name => exact List.forall_mem_singleton.2 (Token.readable_variableRef h)
  | .script text => exact List.forall_mem_singleton.2 (Token.readable_script h)
  | .quote _ => cases h
  | .block _ => cases h
  | .unary op arg =>
    exact List.forall_mem_cons.2
      ⟨Token.readable_unary op, readable_wrap (readable_tokens arg h)⟩
  | .binary _ left right | .and left right | .or left right =>
    obtain ⟨hl, hr⟩ := Bool.and_eq_true_iff.1 h
    exact readable_operation _ (readable_wrap (readable_tokens left hl))
      (readable_wrap (readable_tokens right hr))
  | .ternary condition yes no =>
    obtain ⟨h, hno⟩ := Bool.and_eq_true_iff.1 h
    obtain ⟨hcondition, hyes⟩ := Bool.and_eq_true_iff.1 h
    refine readable_operation _ (readable_wrap (readable_tokens condition hcondition)) ?_
    refine List.forall_mem_append.2 ⟨readable_tokens yes hyes, ?_⟩
    exact List.forall_mem_cons.2 ⟨Token.readable_colon, readable_tokens no hno⟩
  | .call function args =>
    obtain ⟨hname, hargs⟩ := Bool.and_eq_true_iff.1 h
    refine List.forall_mem_cons.2 ⟨Token.readable_name _ hname, ?_⟩
    refine List.forall_mem_cons.2 ⟨Token.readable_leftParen, ?_⟩
    refine List.forall_mem_append.2 ⟨readable_argumentTokens args hargs, ?_⟩
    exact List.forall_mem_singleton.2 Token.readable_rightParen

theorem readable_argumentTokens (args : List Expr) (h : areWritable args = true) :
    ∀ t ∈ argumentTokens args, t.Readable := by
  match args with
  | [] => exact fun _ ht => by cases ht
  | [e] => exact readable_tokens e (Bool.and_eq_true_iff.1 h).1
  | e :: e' :: rest =>
    obtain ⟨he, hrest⟩ := Bool.and_eq_true_iff.1 h
    refine List.forall_mem_append.2 ⟨readable_tokens e he, ?_⟩
    exact List.forall_mem_cons.2 ⟨Token.readable_comma, readable_argumentTokens (e' :: rest) hrest⟩

end

/-- The words of a tree's text are its tokens. -/
theorem words_render {e : Expr} (h : e.isWritable = true) :
    (words .expression e.render).map Word.token = e.tokens ++ [Token.eof] := by
  have htext : (Scanner.ofString e.render).rest = Scanner.written e.tokens := by
    simp [Scanner.ofString, Scanner.written, render, String.toList_intercalate, Function.comp_def]
  refine Scanner.readWith_tokens (readable_tokens e h) (s := .ofString e.render) ?_
    (Nat.lt_succ_self _) 0
  rw [htext]
  exact Scanner.dropWhile_written (readable_tokens e h)

end Expr

end CommandScript
