import CommandScript.Proofs.Expr.Tokens

/-!
# Precedence

The parser realises the table of operators: what a tree is written as is parsed into that tree, if
no more expressions have to be nested than the parser allows, and is refused for its nesting if
more have to be (`parse_inverts_render`).

The induction is on the tree. Its invariant, `Reads`, is about the words of a tree in front of
others that do not bind tighter than the operators of the tree: the parser reads the tree and then
stands in its loop over operators, with the tree on the left and those other words to come.
-/

namespace CommandScript

/-! ## The table and the parser -/

namespace InfixOp

theorem power_eq_strength (op : InfixOp) : op.power = op.strength := by
  rcases op with op | _ | _ | _
  · cases op <;> rfl
  all_goals rfl

theorem grouping_eq (op : InfixOp) : op.grouping = if op.groupsRight then .right else .left := by
  rcases op with op | _ | _ | _
  · cases op <;> rfl
  all_goals rfl

theorem ofKind?_kind (op : InfixOp) : ofKind? op.kind = some op := by
  rcases op with op | _ | _ | _
  · cases op <;> rfl
  all_goals rfl

theorem strength_pos (op : InfixOp) : 0 < op.strength := by
  rcases op with op | _ | _ | _
  · cases op <;> decide
  all_goals decide

theorem strength_lt_unary (op : InfixOp) : op.strength < UnaryOp.strength := by
  rcases op with op | _ | _ | _
  · cases op <;> decide
  all_goals decide

/-- Just the first and the last row group to the right. -/
theorem groupsRight_iff (op : InfixOp) :
    op.groupsRight = true ↔ op.strength = 1 ∨ op.strength = 12 := by
  rcases op with op | _ | _ | _
  · cases op <;> decide
  all_goals decide

/-- An operand that stands on the left of an operator without parentheses binds tighter. -/
theorem of_wrapsLeft_eq_false {op top : InfixOp} (h : op.wrapsLeft top = false) :
    op.strength ≤ top.strength ∧ op.strength ≤ top.rightBound := by
  have hop := groupsRight_iff op
  have htop := groupsRight_iff top
  simp only [wrapsLeft, grouping_eq, power_eq_strength] at h
  unfold rightBound
  cases hr : op.groupsRight <;> cases hr' : top.groupsRight <;> simp_all <;> omega

/-- So does one that stands on the right without parentheses, and it ends no later. -/
theorem of_wrapsRight_eq_false {op top : InfixOp} (h : op.wrapsRight top = false) :
    op.rightBound < top.strength ∧ op.rightBound ≤ top.rightBound := by
  have hop := strength_pos op
  simp only [wrapsRight, grouping_eq, power_eq_strength] at h
  unfold rightBound
  cases hr : op.groupsRight <;> cases hr' : top.groupsRight <;> simp_all <;> omega

end InfixOp

namespace Expr

/-! ## Reading words in front of others -/

/-- No operator that binds tighter than `bound` follows, and no list of arguments. -/
def Stops (bound : Nat) (rest : List Word) : Prop :=
  kindOf rest ≠ .leftParen ∧
    ∀ op, InfixOp.ofKind? (kindOf rest) = some op → op.strength ≤ bound

theorem Stops.mono {bound bound' : Nat} {rest : List Word} (h : Stops bound rest)
    (hle : bound ≤ bound') : Stops bound' rest :=
  ⟨h.1, fun op hop => Nat.le_trans (h.2 op hop) hle⟩

/-- A word that is no operator. -/
theorem Stops.of_kind {w : Word} (hkind : w.kind ≠ .leftParen)
    (hop : InfixOp.ofKind? w.kind = none) (bound : Nat) (rest : List Word) :
    Stops bound (w :: rest) := by
  refine ⟨hkind, fun op h => ?_⟩
  rw [show InfixOp.ofKind? (kindOf (w :: rest)) = none from hop] at h
  cases h

theorem Stops.operator {w : Word} (op : InfixOp) (hw : w.kind = op.kind) {bound : Nat}
    (hbound : op.strength ≤ bound) (rest : List Word) : Stops bound (w :: rest) := by
  have hop : InfixOp.ofKind? (kindOf (w :: rest)) = some op := by
    show InfixOp.ofKind? w.kind = some op
    rw [hw, InfixOp.ofKind?_kind]
  refine ⟨fun hparen => ?_, fun op' h => ?_⟩
  · rw [hparen] at hop
    cases hop
  · rw [hop] at h
    cases h
    exact hbound

/-- With room for `nesting` expressions, the words `es` are read as the tree `e`, which takes
`depth` of them, in front of words that stop at `edge`; then come the operators after the tree. -/
def Reads (es : List Word) (e : Expr) (depth edge nesting bound : Nat) : Prop :=
  ∀ rest, Stops edge rest →
    if depth ≤ nesting then
      ∃ n fuel, nesting = n + 1 ∧ rest.length ≤ fuel ∧
        expression nesting bound (es ++ rest) = operators (expression n) bound fuel e rest
    else expression nesting bound (es ++ rest) = .error .tooDeep

section

variable {es ls rs : List Word} {e l r : Expr} {depth dl dr edge nesting bound : Nat}

theorem operators_stop {nested : Nat → List Word → Except ExprSyntaxFault (Read Expr)}
    {rest : List Word} (h : Stops bound rest) (fuel : Nat) (left : Expr) :
    operators nested bound fuel left rest = .ok (left, rest) := by
  cases fuel with
  | zero => rfl
  | succ fuel =>
    unfold operators
    split
    · rfl
    · rename_i op hop
      rw [if_pos (h.2 op hop)]

/-- A tree is all that is read, if what follows stops at the bound. -/
theorem Reads.whole (h : Reads es e depth edge nesting bound) (hedge : bound ≤ edge)
    (rest : List Word) (hrest : Stops bound rest) :
    expression nesting bound (es ++ rest) =
      if depth ≤ nesting then .ok (e, rest) else .error .tooDeep := by
  have h := h rest (hrest.mono hedge)
  split at h
  · rename_i hdepth
    obtain ⟨n, fuel, -, -, heq⟩ := h
    rw [if_pos hdepth, heq, operators_stop hrest]
  · rename_i hdepth
    rw [if_neg hdepth, h]

/-- What is read as an operand, with `depth` expressions nested in it. -/
theorem reads_of_operand
    (h : ∀ n rest, Stops edge rest → operand (expression n) (es ++ rest) =
      if depth ≤ n then .ok (e, rest) else .error .tooDeep) (nesting bound : Nat) :
    Reads es e (depth + 1) edge nesting bound := by
  intro rest hrest
  cases nesting with
  | zero => rfl
  | succ n =>
    have h := h n rest hrest
    split
    · rename_i hdepth
      rw [if_pos (by omega)] at h
      refine ⟨n, rest.length, rfl, Nat.le_refl _, ?_⟩
      rw [expression, h]
      rfl
    · rename_i hdepth
      rw [if_neg (by omega)] at h
      rw [expression, h]
      rfl

/-- Parentheses around a tree. -/
theorem reads_parenthesized (h : ∀ n, Reads es e depth edge n 0) {w w' : Word}
    (hw : w.kind = .leftParen) (hw' : w'.kind = .rightParen) (edge' nesting bound : Nat) :
    Reads (w :: (es ++ [w'])) e (depth + 1) edge' nesting bound := by
  refine reads_of_operand (fun n rest _ => ?_) nesting bound
  have hinner := (h n).whole (Nat.zero_le _) (w' :: rest)
    (.of_kind (by rw [hw']; decide) (by rw [hw']; rfl) 0 rest)
  have hclose : expect .rightParen ")" (w' :: rest) = .ok rest := by simp [expect, hw']
  rw [List.cons_append, List.append_assoc]
  simp only [operand, hw, List.singleton_append, hinner]
  split
  · show (do let ws ← expect .rightParen ")" (w' :: rest); pure (e, ws)) = _
    rw [hclose]
    rfl
  · rfl

/-- Two operands with an operator between them that makes the tree `build l r`. -/
theorem reads_operation {op : InfixOp} {build : Expr → Expr → Expr}
    (hbuild : ∀ nested left ws, rightSide nested op left ws = do
      let (right, ws) ← nested op.rightBound ws
      return (build left right, ws))
    {w : Word} (hw : w.kind = op.kind) (hbound : bound < op.strength)
    (hl : Reads ls l dl op.strength nesting bound)
    (hr : ∀ n, Reads rs r dr op.rightBound n op.rightBound) :
    Reads (ls ++ w :: rs) (build l r) (max dl (dr + 1)) op.rightBound nesting bound := by
  intro rest hrest
  have hl := hl (w :: (rs ++ rest)) (.operator op hw (Nat.le_refl _) _)
  rw [List.append_assoc, List.cons_append]
  by_cases hdl : dl ≤ nesting
  · rw [if_pos hdl] at hl
    obtain ⟨n, fuel, rfl, hfuel, heq⟩ := hl
    obtain ⟨fuel, rfl⟩ : ∃ k, fuel = k + 1 := ⟨fuel - 1, by simp at hfuel; omega⟩
    have hright := (hr n).whole (Nat.le_refl _) rest hrest
    have hop : InfixOp.ofKind? (kindOf (w :: (rs ++ rest))) = some op := by
      show InfixOp.ofKind? w.kind = some op
      rw [hw, InfixOp.ofKind?_kind]
    rw [heq, operators, hop]
    simp only [if_neg (Nat.not_le.2 hbound), hbuild, List.tail_cons, hright]
    by_cases hdr : dr ≤ n
    · rw [if_pos (by omega), if_pos hdr]
      exact ⟨n, fuel, rfl, by simp at hfuel; omega, rfl⟩
    · rw [if_neg (by omega), if_neg hdr]
      rfl
  · rw [if_neg hdl] at hl
    rw [if_neg (by omega), hl]

theorem reads_ternary {ys ns : List Word} {yes no : Expr} {dy dn edgeY edgeN : Nat} {w w' : Word}
    (hw : w.kind = .question) (hw' : w'.kind = .colon) (hbound : bound < 1)
    (hl : Reads ls l dl 1 nesting bound) (hy : ∀ n, Reads ys yes dy edgeY n 0)
    (hn : ∀ n, Reads ns no dn edgeN n 0) :
    Reads (ls ++ w :: (ys ++ w' :: ns)) (.ternary l yes no) (max dl (max dy dn + 1)) 0
      nesting bound := by
  intro rest hrest
  have hl := hl (w :: (ys ++ w' :: (ns ++ rest)))
    (.operator .ternary hw (Nat.le_refl _) _)
  simp only [List.append_assoc, List.cons_append]
  by_cases hdl : dl ≤ nesting
  · rw [if_pos hdl] at hl
    obtain ⟨n, fuel, rfl, hfuel, heq⟩ := hl
    obtain ⟨fuel, rfl⟩ : ∃ k, fuel = k + 1 := ⟨fuel - 1, by simp at hfuel; omega⟩
    have hyes := (hy n).whole (Nat.zero_le _) (w' :: (ns ++ rest))
      (.of_kind (by rw [hw']; decide) (by rw [hw']; rfl) 0 _)
    have hno := (hn n).whole (Nat.zero_le _) rest hrest
    have hop : InfixOp.ofKind? (kindOf (w :: (ys ++ w' :: (ns ++ rest)))) = some .ternary := by
      show InfixOp.ofKind? w.kind = some .ternary
      rw [hw]
      rfl
    have hcolon : expect .colon ":" (w' :: (ns ++ rest)) = .ok (ns ++ rest) := by
      simp [expect, hw']
    have hzero : InfixOp.ternary.rightBound = 0 := rfl
    rw [heq, operators, hop]
    simp only [if_neg (show ¬InfixOp.ternary.strength ≤ bound from Nat.not_le.2 hbound), rightSide,
      List.tail_cons, hyes, hzero]
    by_cases hdy : dy ≤ n
    · rw [if_pos hdy]
      by_cases hdn : dn ≤ n
      · rw [if_pos (by omega)]
        refine ⟨n, fuel, rfl, by simp at hfuel; omega, ?_⟩
        simp [bind, Except.bind, hcolon, hno, hdn, pure, Except.pure]
      · rw [if_neg (by omega)]
        simp [bind, Except.bind, hcolon, hno, hdn]
    · rw [if_neg (by omega), if_neg hdy]
      rfl
  · rw [if_neg hdl] at hl
    rw [if_neg (by omega), hl]

/-! ## Trees -/

/-- The bound at which what follows a tree has to stop. -/
def endBound (e : Expr) : Nat := (e.top?.map InfixOp.rightBound).getD UnaryOp.strength

/-- The words of a tree are read in front of what stops at its edge, under a bound that its
outermost operator exceeds. -/
def IsRead (e : Expr) : Prop :=
  ∀ es : List Word, es.map Word.token = e.tokens → ∀ nesting bound,
    (∀ op, e.top? = some op → bound < op.strength) →
      Reads es e e.activations e.endBound nesting bound

theorem Reads.mono {edge' : Nat} (h : Reads es e depth edge nesting bound) (hle : edge' ≤ edge) :
    Reads es e depth edge' nesting bound := fun rest hrest => h rest (hrest.mono hle)

/-- An operand, in parentheses if it needs them. -/
theorem IsRead.wrap (h : IsRead e) {needed : Bool}
    (hes : es.map Word.token = Token.wrap needed e.tokens) {edge' : Nat} (nesting : Nat)
    (hfree : needed = false →
      (∀ op, e.top? = some op → bound < op.strength) ∧ edge' ≤ e.endBound) :
    Reads es e (wrappedDepth needed e.activations) edge' nesting bound := by
  cases needed with
  | false =>
    obtain ⟨hbound, hedge⟩ := hfree rfl
    exact (h es hes nesting bound hbound).mono hedge
  | true =>
    obtain ⟨w, es, rfl, hw, hes⟩ := List.map_eq_cons_iff.1 hes
    obtain ⟨es, ws, rfl, hinner, hws⟩ := List.map_eq_append_iff.1 hes
    obtain ⟨w', ws, rfl, hw', hnil⟩ := List.map_eq_cons_iff.1 hws
    obtain rfl := List.map_eq_nil_iff.1 hnil
    exact reads_parenthesized
      (fun n => h es hinner n 0 fun op _ => op.strength_pos) (congrArg Token.kind hw)
      (congrArg Token.kind hw') edge' nesting bound

/-- An operand on the left of an operator. -/
theorem IsRead.left (h : IsRead e) {op : InfixOp} (hbound : bound < op.strength)
    (hes : es.map Word.token = Token.wrap (wrapsLeft op e) e.tokens) (nesting : Nat) :
    Reads es e (wrappedDepth (wrapsLeft op e) e.activations) op.strength nesting bound := by
  refine h.wrap hes nesting fun hneeded => ?_
  unfold wrapsLeft at hneeded
  unfold endBound
  cases htop : e.top? with
  | none => exact ⟨(fun _ h => by cases h), Nat.le_of_lt op.strength_lt_unary⟩
  | some top =>
    rw [htop] at hneeded
    obtain ⟨hstrength, hright⟩ := InfixOp.of_wrapsLeft_eq_false hneeded
    exact ⟨(fun _ h => by cases h; omega), hright⟩

/-- An operand on the right of an operator. -/
theorem IsRead.right (h : IsRead e) {op : InfixOp}
    (hes : es.map Word.token = Token.wrap (wrapsRight op e) e.tokens) (nesting : Nat) :
    Reads es e (wrappedDepth (wrapsRight op e) e.activations) op.rightBound nesting
      op.rightBound := by
  refine h.wrap hes nesting fun hneeded => ?_
  unfold wrapsRight at hneeded
  unfold endBound
  cases htop : e.top? with
  | none =>
    have hunary := op.strength_lt_unary
    refine ⟨(fun _ h => by cases h), ?_⟩
    show op.rightBound ≤ UnaryOp.strength
    unfold InfixOp.rightBound
    split <;> omega
  | some top =>
    rw [htop] at hneeded
    obtain ⟨hstrength, hright⟩ := InfixOp.of_wrapsRight_eq_false hneeded
    exact ⟨(fun _ h => by cases h; exact hstrength), hright⟩

/-- Two operands with an operator between them. -/
theorem IsRead.operation (hl : IsRead l) (hr : IsRead r) (op : InfixOp) (build : Expr → Expr → Expr)
    (hbuild : ∀ nested left ws, rightSide nested op left ws = do
      let (right, ws) ← nested op.rightBound ws
      return (build left right, ws))
    (hes : es.map Word.token = Token.wrap (wrapsLeft op l) l.tokens ++
      .operator op :: Token.wrap (wrapsRight op r) r.tokens)
    (hbound : bound < op.strength) (nesting : Nat) :
    Reads es (build l r)
      (max (wrappedDepth (wrapsLeft op l) l.activations)
        (wrappedDepth (wrapsRight op r) r.activations + 1)) op.rightBound nesting bound := by
  obtain ⟨ls, ws, rfl, hls, hws⟩ := List.map_eq_append_iff.1 hes
  obtain ⟨w, rs, rfl, hw, hrs⟩ := List.map_eq_cons_iff.1 hws
  exact reads_operation hbuild (congrArg Token.kind hw) hbound (hl.left hbound hls nesting)
    fun n => hr.right hrs n

/-! ### Leaves and functions -/

/-- A tree that is one word. -/
theorem isRead_of_word {t : Token} (htokens : e.tokens = [t])
    (hdepth : e.activations = 1)
    (hoperand : ∀ (w : Word) nested rest, w.kind = t.kind → w.text = t.text →
      kindOf rest ≠ .leftParen → operand nested (w :: rest) = .ok (e, rest)) : IsRead e := by
  intro es hes nesting bound _
  rw [htokens] at hes
  obtain ⟨w, ws, rfl, hw, hnil⟩ := List.map_eq_cons_iff.1 hes
  obtain rfl := List.map_eq_nil_iff.1 hnil
  rw [hdepth]
  show Reads _ e (0 + 1) _ nesting bound
  refine reads_of_operand (fun n rest hrest => ?_) nesting bound
  rw [if_pos (Nat.zero_le n)]
  exact hoperand w _ rest (congrArg Token.kind hw) (congrArg Token.text hw) hrest.1

/-- A tree begins with a word that neither closes a list of arguments nor ends the text. -/
def Opens (ts : List Token) : Prop :=
  ∃ t rest, ts = t :: rest ∧ t.kind ≠ .rightParen ∧ t.kind ≠ .eof

theorem Opens.wrap {ts : List Token} (h : Opens ts) (needed : Bool) :
    Opens (Token.wrap needed ts) := by
  cases needed with
  | false => exact h
  | true => exact ⟨.leftParen, _, rfl, by decide, by decide⟩

theorem Opens.append {ts : List Token} (h : Opens ts) (us : List Token) : Opens (ts ++ us) := by
  obtain ⟨t, rest, rfl, ht⟩ := h
  exact ⟨t, rest ++ us, rfl, ht⟩

theorem opens_tokens (e : Expr) : Opens e.tokens := by
  match e with
  | .literal (.integer _) => exact ⟨_, _, rfl, (fun h => by cases h), fun h => by cases h⟩
  | .literal (.real _) => exact ⟨_, _, rfl, (fun h => by cases h), fun h => by cases h⟩
  | .literal (.boolean _) => exact ⟨_, _, rfl, (fun h => by cases h), fun h => by cases h⟩
  | .varRef _ => exact ⟨_, _, rfl, (fun h => by cases h), fun h => by cases h⟩
  | .script _ => exact ⟨_, _, rfl, (fun h => by cases h), fun h => by cases h⟩
  | .quote _ => exact ⟨_, _, rfl, (fun h => by cases h), fun h => by cases h⟩
  | .block _ => exact ⟨_, _, rfl, (fun h => by cases h), fun h => by cases h⟩
  | .unary op _ => exact ⟨_, _, rfl, by cases op <;> decide, by cases op <;> decide⟩
  | .binary _ left _ => exact ((opens_tokens left).wrap _).append _
  | .and left _ => exact ((opens_tokens left).wrap _).append _
  | .or left _ => exact ((opens_tokens left).wrap _).append _
  | .ternary condition _ _ => exact ((opens_tokens condition).wrap _).append _
  | .call _ _ => exact ⟨_, _, rfl, (fun h => by cases h), fun h => by cases h⟩

/-- So what follows a parenthesis or begins the text is a tree. -/
theorem Opens.kindOf_ne {ts : List Token} (h : Opens ts) (hes : es.map Word.token = ts)
    (rest : List Word) : kindOf (es ++ rest) ≠ .rightParen ∧ kindOf (es ++ rest) ≠ .eof := by
  obtain ⟨t, ts, rfl, hparen, heof⟩ := h
  obtain ⟨w, ws, rfl, hw, -⟩ := List.map_eq_cons_iff.1 hes
  have hkind : kindOf (w :: ws ++ rest) = t.kind := congrArg Token.kind hw
  rw [hkind]
  exact ⟨hparen, heof⟩

theorem opens_argumentTokens (e : Expr) (rest : List Expr) :
    Opens (argumentTokens (e :: rest)) := by
  cases rest with
  | nil => exact opens_tokens e
  | cons e' rest => exact (opens_tokens e).append _

theorem length_le_argumentTokens (args : List Expr) :
    args.length ≤ (argumentTokens args).length := by
  induction args with
  | nil => exact Nat.le_refl _
  | cons e rest ih =>
    obtain ⟨t, ts, hts, -⟩ := opens_tokens e
    cases rest with
    | nil => simp [argumentTokens, hts]
    | cons e' rest =>
      simp only [argumentTokens, hts, List.length_cons, List.length_append] at ih ⊢
      omega

theorem operand_call {nested : Nat → List Word → Except ExprSyntaxFault (Read Expr)} {w w' : Word}
    (hw : w.kind = .literal) (hw' : w'.kind = .leftParen) {ws : List Word}
    (hws : kindOf ws ≠ .rightParen) :
    operand nested (w :: w' :: ws) = do
      let (args, ws) ← arguments nested (ws.length + 1) ws
      return (.call w.text args, ws) := by
  simp [operand, hw, show kindOf (w' :: ws) = .leftParen from hw', hws]

/-- A tree is read as a whole in front of a word that is no operator. -/
theorem IsRead.whole (h : IsRead e) (hes : es.map Word.token = e.tokens) {w : Word}
    (hkind : w.kind ≠ .leftParen) (hop : InfixOp.ofKind? w.kind = none) (n : Nat)
    (rest : List Word) :
    expression n 0 (es ++ w :: rest) =
      if e.activations ≤ n then .ok (e, w :: rest) else .error .tooDeep :=
  (h es hes n 0 fun op _ => op.strength_pos).whole (Nat.zero_le _) _ (.of_kind hkind hop 0 rest)

/-- The words of arguments are read up to the parenthesis that closes their list. -/
def AreRead (args : List Expr) : Prop :=
  ∀ (as : List Word), as.map Word.token = argumentTokens args →
    ∀ (w : Word), w.kind = .rightParen → ∀ fuel, args.length ≤ fuel → ∀ n rest,
      arguments (expression n) fuel (as ++ w :: rest) =
        if mostActivations args ≤ n then .ok (args, rest) else .error .tooDeep

theorem IsRead.argument (h : IsRead e) : AreRead [e] := by
  intro as has w hw fuel hfuel n rest
  obtain ⟨fuel, rfl⟩ : ∃ k, fuel = k + 1 := ⟨fuel - 1, by simp at hfuel; omega⟩
  have he := h.whole has (w := w) (by rw [hw]; decide) (by rw [hw]; rfl) n rest
  rw [arguments, he, mostActivations, mostActivations, Nat.max_zero]
  split
  · simp only [bind, Except.bind, hw]
    rfl
  · rfl

theorem AreRead.cons {e' : Expr} {more : List Expr} (h : IsRead e) (hmore : AreRead (e' :: more)) :
    AreRead (e :: e' :: more) := by
  intro as has w hw fuel hfuel n rest
  obtain ⟨fuel, rfl⟩ : ∃ k, fuel = k + 1 := ⟨fuel - 1, by simp at hfuel; omega⟩
  obtain ⟨es, ws, rfl, hes, hws⟩ := List.map_eq_append_iff.1 has
  obtain ⟨c, as, rfl, hc, has⟩ := List.map_eq_cons_iff.1 hws
  have hkind : c.kind = .comma := congrArg Token.kind hc
  have he := h.whole hes (w := c) (by rw [hkind]; decide) (by rw [hkind]; rfl) n (as ++ w :: rest)
  have hmore := hmore as has w hw fuel (by simpa using hfuel) n rest
  rw [List.append_assoc, List.cons_append, arguments, he, mostActivations]
  by_cases hde : e.activations ≤ n
  · rw [if_pos hde]
    simp only [bind, Except.bind, hkind, hmore]
    by_cases hdm : mostActivations (e' :: more) ≤ n
    · rw [if_pos hdm, if_pos (by omega)]
      rfl
    · rw [if_neg hdm, if_neg (by omega)]
  · rw [if_neg hde, if_neg (by omega)]
    rfl

/-- A function with arguments, or with none. -/
theorem isRead_call (function : String) {args : List Expr} (h : args ≠ [] → AreRead args) :
    IsRead (.call function args) := by
  intro es hes nesting bound _
  obtain ⟨w, ws, rfl, hw, hws⟩ := List.map_eq_cons_iff.1 hes
  obtain ⟨w', ws, rfl, hw', hws⟩ := List.map_eq_cons_iff.1 hws
  obtain ⟨as, ws, rfl, has, hws⟩ := List.map_eq_append_iff.1 hws
  obtain ⟨w'', ws, rfl, hw'', hnil⟩ := List.map_eq_cons_iff.1 hws
  obtain rfl := List.map_eq_nil_iff.1 hnil
  have hkind : w.kind = .literal := congrArg Token.kind hw
  have hkind' : w'.kind = .leftParen := congrArg Token.kind hw'
  have hkind'' : w''.kind = .rightParen := congrArg Token.kind hw''
  have htext : w.text = function := congrArg Token.text hw
  refine reads_of_operand (fun n rest _ => ?_) nesting bound
  simp only [List.cons_append, List.append_assoc, List.nil_append]
  cases args with
  | nil =>
    obtain rfl := List.map_eq_nil_iff.1 has
    simp [operand, hkind, kindOf, hkind', hkind'', htext, mostActivations]
  | cons e more =>
    have hopen := ((opens_argumentTokens e more).kindOf_ne has (w'' :: rest)).1
    have hfuel : (e :: more).length ≤ (as ++ w'' :: rest).length + 1 := by
      have hle := length_le_argumentTokens (e :: more)
      rw [← has, List.length_map] at hle
      rw [List.length_append]
      omega
    rw [operand_call hkind hkind' hopen, htext,
      h (List.cons_ne_nil _ _) as has w'' hkind'' _ hfuel]
    split <;> rfl

/-! ### Operators -/

theorem operand_unary {nested : Nat → List Word → Except ExprSyntaxFault (Read Expr)} {w : Word}
    {op : UnaryOp} (hw : w.kind = op.kind) (ws : List Word) :
    operand nested (w :: ws) = do
      let (arg, ws) ← nested UnaryOp.strength ws
      return (.unary op arg, ws) := by
  cases op <;> simp only [UnaryOp.kind] at hw <;> simp only [operand, hw]

theorem IsRead.unary (h : IsRead e) (op : UnaryOp) : IsRead (.unary op e) := by
  intro es hes nesting bound _
  obtain ⟨w, es, rfl, hw, hes⟩ := List.map_eq_cons_iff.1 hes
  refine reads_of_operand (fun n rest hrest => ?_) nesting bound
  have harg : Reads es e (wrappedDepth e.top?.isSome e.activations) UnaryOp.strength n
      UnaryOp.strength := by
    refine h.wrap hes n fun hneeded => ?_
    have htop : e.top? = none := by simpa using hneeded
    unfold endBound
    rw [htop]
    exact ⟨(fun _ h => by cases h), Nat.le_refl _⟩
  rw [List.cons_append, operand_unary (congrArg Token.kind hw),
    harg.whole (Nat.le_refl _) rest hrest]
  split <;> rfl

theorem IsRead.ternary {yes no : Expr} (h : IsRead e) (hyes : IsRead yes) (hno : IsRead no) :
    IsRead (.ternary e yes no) := by
  intro es hes nesting bound hbound
  obtain ⟨ls, ws, rfl, hls, hws⟩ := List.map_eq_append_iff.1 hes
  obtain ⟨w, ws, rfl, hw, hws⟩ := List.map_eq_cons_iff.1 hws
  obtain ⟨ys, ws, rfl, hys, hws⟩ := List.map_eq_append_iff.1 hws
  obtain ⟨w', ns, rfl, hw', hns⟩ := List.map_eq_cons_iff.1 hws
  have hbound : bound < InfixOp.ternary.strength := hbound _ rfl
  exact reads_ternary (congrArg Token.kind hw) (congrArg Token.kind hw') hbound
    (h.left hbound hls nesting) (fun n => hyes ys hys n 0 fun op _ => op.strength_pos)
    (fun n => hno ns hns n 0 fun op _ => op.strength_pos)

end

/-! ### The induction -/

theorem isRead_literal {v : Operand} (h : (literal v).isWritable = true) : IsRead (.literal v) := by
  cases v with
  | integer n =>
    have hn : 0 ≤ n.toInt := by simpa [isWritable] using h
    refine isRead_of_word rfl rfl fun w nested rest hkind htext _ => ?_
    have hparse : Integer.parse? w.text = some n := htext ▸ Integer.parse?_toText n
    simp only [operand, show w.kind = .integer from hkind, hparse]
  | boolean b =>
    refine isRead_of_word rfl rfl fun w nested rest hkind htext hparen => ?_
    have hparse : parseBoolean? w.text = some b := by rw [htext]; cases b <;> decide +kernel
    simp only [operand, show w.kind = .literal from hkind, if_neg hparen, hparse]
  | real _ => cases h

mutual

theorem isRead (e : Expr) (h : e.isWritable = true) : IsRead e := by
  match e with
  | .literal _ => exact isRead_literal h
  | .varRef name =>
    refine isRead_of_word rfl rfl fun w nested rest hkind htext _ => ?_
    simp only [operand, show w.kind = .varRef from hkind, htext]
    rfl
  | .script text =>
    refine isRead_of_word rfl rfl fun w nested rest hkind htext _ => ?_
    simp only [operand, show w.kind = .script from hkind, htext]
    rfl
  | .quote _ => cases h
  | .block _ => cases h
  | .unary op arg => exact (isRead arg h).unary op
  | .binary _ left right | .and left right | .or left right =>
    obtain ⟨hl, hr⟩ := Bool.and_eq_true_iff.1 h
    intro es hes nesting bound hbound
    exact (isRead left hl).operation (isRead right hr) _ _ (fun _ _ _ => rfl) hes
      (hbound _ rfl) nesting
  | .ternary condition yes no =>
    obtain ⟨h, hno⟩ := Bool.and_eq_true_iff.1 h
    obtain ⟨hcondition, hyes⟩ := Bool.and_eq_true_iff.1 h
    exact (isRead condition hcondition).ternary (isRead yes hyes) (isRead no hno)
  | .call function args =>
    exact isRead_call function (areRead args (Bool.and_eq_true_iff.1 h).2)

theorem areRead (args : List Expr) (h : areWritable args = true) (hne : args ≠ []) :
    AreRead args := by
  match args with
  | [] => exact absurd rfl hne
  | [e] => exact (isRead e (Bool.and_eq_true_iff.1 h).1).argument
  | e :: e' :: more =>
    obtain ⟨he, hmore⟩ := Bool.and_eq_true_iff.1 h
    exact .cons (isRead e he) (areRead (e' :: more) hmore (List.cons_ne_nil _ _))

end

/-- A tree that is written with parentheses only where the table of operators asks for them is what
its text is parsed into. Only a text that needs more nested expressions than the parser allows is
refused, and for that reason. -/
theorem parse_inverts_render (e : Expr) (h : e.isWritable = true) :
    parse e.render = if e.activations ≤ maxNesting then .ok e else .error .tooDeep := by
  obtain ⟨es, ws, hwords, hes, hws⟩ := List.map_eq_append_iff.1 (words_render h)
  obtain ⟨w, ws, rfl, hw, hnil⟩ := List.map_eq_cons_iff.1 hws
  obtain rfl := List.map_eq_nil_iff.1 hnil
  have hkind : w.kind = .eof := congrArg Token.kind hw
  have hopen := ((opens_tokens e).kindOf_ne hes [w]).2
  have hread := (isRead e h).whole hes (w := w) (by rw [hkind]; decide) (by rw [hkind]; rfl)
    maxNesting []
  unfold parse
  simp only [hwords, if_neg hopen, hread]
  split
  · simp [bind, Except.bind, hkind]
  · rfl

/-- A tree with operators of several rows and both groupings, a condition in a condition, and a
function of two arguments. -/
theorem parse_inverts_render_mixed :
    let e : Expr :=
      .ternary (.ternary (.varRef "a(1)") (.literal (.boolean true)) (.script "f [g]"))
        (.binary .sub (.literal (.integer 10))
          (.binary .sub (.literal (.integer 4)) (.unary .negate (.varRef "odd name"))))
        (.binary .pow (.binary .pow (.literal (.integer 2)) (.literal (.integer 3)))
          (.call "max" [.or (.varRef "::n::x") (.literal (.integer 9223372036854775807)),
            .unary .not (.and (.varRef "y") (.literal (.integer 0)))]))
    e.render = "( $a(1) ? true : [f [g]] ) ? 10 - ( 4 - - $\x7bodd name\x7d ) : ( 2 ** 3 ) ** " ++
        "max ( $::n::x || 9223372036854775807 , ! ( $y && 0 ) )" ∧
      e.isWritable = true ∧ e.activations = 7 ∧ parse e.render = .ok e := by
  intro e
  have hwritable : e.isWritable = true := by decide +kernel
  have hactivations : e.activations = 7 := by decide +kernel
  refine ⟨by decide +kernel, hwritable, hactivations, ?_⟩
  rw [parse_inverts_render e hwritable, hactivations]
  rfl

end Expr

end CommandScript
