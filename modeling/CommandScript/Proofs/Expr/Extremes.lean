import CommandScript.Expr.Function
import CommandScript.Proofs.Decimal.Order

/-!
# The greatest and the least of integers

`max` and `min` keep the best operand so far and compare it with the next as reals. Rounding keeps
the order of integers, so the operand they return is rounded like the greatest or the least one.
It is the first such operand, and may be another one where two large integers are rounded to the
same real.

* `MathFunction.FirstBest.run`: what the fold over the operands keeps.
* `MathFunction.extremes_of_integers`: the results of `max` and `min` on integers.
-/

namespace CommandScript.MathFunction

open Number Decimal

variable {key : Int64 → Int} {ns : List Int64} {best m r : Int64}

/-! ## The best operand so far -/

/-- The first of the integers with the greatest key. -/
def FirstBest (key : Int64 → Int) (ns : List Int64) (best : Int64) : Prop :=
  ∃ before after, ns = before ++ best :: after ∧ (∀ x ∈ before, key x < key best) ∧
    ∀ x ∈ after, key x ≤ key best

theorem FirstBest.single (key : Int64 → Int) (n : Int64) : FirstBest key [n] n :=
  ⟨[], [], rfl, by simp, by simp⟩

/-- The next operand takes the place of the best one if its key is greater. -/
theorem FirstBest.step (h : FirstBest key ns best) (v : Int64) :
    FirstBest key (ns ++ [v]) (if key best < key v then v else best) := by
  obtain ⟨before, after, rfl, hbefore, hafter⟩ := h
  split_ifs with hlt
  · refine ⟨before ++ best :: after, [], rfl, ?_, by simp⟩
    intro x hx
    rcases List.mem_append.1 hx with hx | hx
    · exact (hbefore x hx).trans hlt
    · rcases List.mem_cons.1 hx with rfl | hx
      · exact hlt
      · exact (hafter x hx).trans_lt hlt
  · refine ⟨before, after ++ [v], by simp, hbefore, ?_⟩
    intro x hx
    rcases List.mem_append.1 hx with hx | hx
    · exact hafter x hx
    · rw [List.mem_singleton.1 hx]
      exact not_lt.1 hlt

theorem FirstBest.run (h : FirstBest key ns best) (rest : List Int64) :
    FirstBest key (ns ++ rest) (rest.foldl (fun b v => if key b < key v then v else b) best) := by
  induction rest generalizing ns best with
  | nil => simpa using h
  | cons v rest ih => simpa using ih (h.step v)

/-- On integers the result is an integer, the first of the best ones. -/
theorem pick_integers {better : Float → Float → Bool} {first : Operand} {others : List Operand}
    (hbetter : ∀ v b, better (ofInt64 v) (ofInt64 b) = decide (key b < key v))
    (h : (first :: others).map Operand.numeric = ns.map Operand.integer) :
    ∃ r, pick better first others = .integer r ∧ FirstBest key ns r := by
  obtain ⟨n, rest, rfl, hn, hrest⟩ := List.map_eq_cons_iff.1 h.symm
  refine ⟨_, ?_, (FirstBest.single key n).run rest⟩
  have hfold : (others.map Operand.numeric).foldl
      (fun best v => if better v.toReal best.toReal then v else best) first.numeric =
        .integer (rest.foldl (fun b v => if key b < key v then v else b) n) := by
    rw [← hrest, ← hn, List.foldl_map]
    refine List.foldl_hom Operand.integer fun b v => ?_
    simp only [Operand.toReal, hbetter, decide_eq_true_eq]
    split_ifs <;> rfl
  unfold pick
  dsimp only
  rw [if_pos (List.all_eq_true.2 fun v hv => ?_), hfold]
  have hv : v.numeric ∈ (n :: rest).map Operand.integer := h ▸ List.mem_map_of_mem hv
  obtain ⟨x, -, hx⟩ := List.mem_map.1 hv
  rw [← hx]

/-! ## Integers rounded to one real -/

/-- The first of the integers that is rounded to the same real as `m`. -/
def FirstAs (m : Int64) (ns : List Int64) (r : Int64) : Prop :=
  ∃ before after, ns = before ++ r :: after ∧ ofInt64 r = ofInt64 m ∧
    ∀ x ∈ before, ofInt64 x ≠ ofInt64 m

/-- If `m` has the greatest key, then the first integer with that key is rounded like `m`. -/
theorem FirstBest.firstAs (hkey : ∀ x y, ofInt64 x = ofInt64 y ↔ key x = key y)
    (hm : m ∈ ns) (hgreatest : ∀ x ∈ ns, key x ≤ key m) (h : FirstBest key ns r) :
    FirstAs m ns r := by
  obtain ⟨before, after, rfl, hbefore, hafter⟩ := h
  have hle : key r ≤ key m := hgreatest r (by simp)
  have hge : key m ≤ key r := by
    rcases List.mem_append.1 hm with hm | hm
    · exact (hbefore m hm).le
    · rcases List.mem_cons.1 hm with rfl | hm
      · exact le_rfl
      · exact hafter m hm
  refine ⟨before, after, rfl, (hkey r m).2 (hle.antisymm hge), ?_⟩
  intro x hx heq
  have hlt := hbefore x hx
  rw [(hkey x m).1 heq] at hlt
  exact absurd hlt hle.not_gt

/-- The first integer rounded like `m` is `m` unless another one stands before it. -/
theorem FirstAs.eq_iff (h : FirstAs m ns r) :
    r = m ↔ ∀ x ∈ ns.takeWhile (· != m), ofInt64 x ≠ ofInt64 m := by
  obtain ⟨before, after, rfl, hr, hbefore⟩ := h
  have hskip : ∀ x ∈ before, (x != m) = true := by
    intro x hx
    rw [bne_iff_ne]
    rintro rfl
    exact hbefore x hx rfl
  rw [List.takeWhile_append_of_pos hskip]
  constructor
  · rintro rfl
    simpa using hbefore
  · intro hnone
    by_contra hne
    refine hnone r ?_ hr
    simp [hne]

/-- Integers of at most 53 bits are rounded to different reals. -/
theorem ofInt64_inj_of_small {a b : Int64} (ha : a.toInt.natAbs ≤ 2 ^ 53)
    (hb : b.toInt.natAbs ≤ 2 ^ 53) (h : ofInt64 a = ofInt64 b) : a = b := by
  rw [ofInt64_inj_iff] at h
  rw [← Int64.toInt_inj]
  rcases lt_trichotomy a.toInt b.toInt with hlt | heq | hgt
  · exact absurd h (rank_lt hlt ha hb).ne
  · exact heq
  · exact absurd h (rank_lt hgt hb ha).ne'

theorem FirstAs.eq_of_small (h : FirstAs m ns r) (hm : m ∈ ns)
    (hsmall : ∀ x ∈ ns, x.toInt.natAbs ≤ 2 ^ 53) : r = m := by
  obtain ⟨before, after, rfl, hr, -⟩ := h
  exact ofInt64_inj_of_small (hsmall r (by simp)) (hsmall m hm) hr

theorem rank_toInt_mono {a b : Int64} (h : a ≤ b) : rank a.toInt ≤ rank b.toInt :=
  rank_mono (Int64.le_iff_toInt_le.1 h) a.le_toInt b.toInt_lt.le

/-! ## The functions -/

theorem call_of_result {name : String} {f : MathFunction} {ops : List Operand}
    (hname : ofName? name = some f) (hresult : f.result? ops = some (.integer r)) :
    call name ops = .ok (.integer r) := by
  unfold call
  rw [hname]
  dsimp only
  rw [hresult]

/-- A function that picks the best operand returns one that is rounded like the best integer. -/
theorem call_pick {f : MathFunction} {ops : List Operand} (name : String)
    (better : Float → Float → Bool) (key : Int64 → Int) (hname : ofName? name = some f)
    (hpick : ∀ first others, f.result? (first :: others) = some (pick better first others))
    (hbetter : ∀ v b, better (ofInt64 v) (ofInt64 b) = decide (key b < key v))
    (hkey : ∀ x y, ofInt64 x = ofInt64 y ↔ key x = key y)
    (hops : ops.map Operand.numeric = ns.map Operand.integer) (hm : m ∈ ns)
    (hbest : ∀ x ∈ ns, key x ≤ key m) :
    ∃ r, call name ops = .ok (.integer r) ∧ FirstAs m ns r := by
  cases ops with
  | nil => simp_all
  | cons first others =>
    obtain ⟨r, hr, hfirst⟩ := pick_integers hbetter hops
    exact ⟨r, call_of_result hname ((hpick first others).trans (congrArg some hr)),
      hfirst.firstAs hkey hm hbest⟩

/-- On integers and booleans, `max` and `min` return the first operand that is rounded to the same
real as the greatest or the least one. That operand is the greatest or the least one itself unless
another integer rounded to the same real stands before it, which takes more than 53 bits. -/
theorem extremes_of_integers {ops : List Operand} {ns : List Int64} {greatest least : Int64}
    (hops : ops.map Operand.numeric = ns.map Operand.integer)
    (hgreatest : greatest ∈ ns ∧ ∀ x ∈ ns, x ≤ greatest)
    (hleast : least ∈ ns ∧ ∀ x ∈ ns, least ≤ x) :
    ∃ r q, call "max" ops = .ok (.integer r) ∧ call "min" ops = .ok (.integer q) ∧
      FirstAs greatest ns r ∧ FirstAs least ns q ∧
      (r = greatest ↔ ∀ x ∈ ns.takeWhile (· != greatest), ofInt64 x ≠ ofInt64 greatest) ∧
      (q = least ↔ ∀ x ∈ ns.takeWhile (· != least), ofInt64 x ≠ ofInt64 least) ∧
      ((∀ x ∈ ns, x.toInt.natAbs ≤ 2 ^ 53) → r = greatest ∧ q = least) := by
  obtain ⟨r, hmax, hr⟩ := call_pick "max" (· > ·) (fun x => rank x.toInt) rfl (fun _ _ => rfl)
    (fun v b => decide_eq_decide.2 ofInt64_lt_iff) (fun x y => ofInt64_inj_iff) hops hgreatest.1
    (fun x hx => rank_toInt_mono (hgreatest.2 x hx))
  -- The least integer has the greatest negated rank.
  obtain ⟨q, hmin, hq⟩ := call_pick "min" (· < ·) (fun x => -rank x.toInt) rfl (fun _ _ => rfl)
    (fun v b => decide_eq_decide.2 (ofInt64_lt_iff.trans neg_lt_neg_iff.symm))
    (fun x y => ofInt64_inj_iff.trans neg_inj.symm) hops hleast.1
    (fun x hx => neg_le_neg (rank_toInt_mono (hleast.2 x hx)))
  refine ⟨r, q, hmax, hmin, hr, hq, hr.eq_iff, hq.eq_iff, fun hsmall => ?_⟩
  exact ⟨hr.eq_of_small hgreatest.1 hsmall, hq.eq_of_small hleast.1 hsmall⟩

/-- Two integers of 54 bits are rounded to one real on either side of zero. The greatest stands
first and is found, the least does not. -/
def largeIntegers : List Int64 :=
  [9007199254740993, 1, -9007199254740992, -9007199254740993, 9007199254740992]

def largeOperands : List Operand :=
  [.integer 9007199254740993, .boolean true, .integer (-9007199254740992),
    .integer (-9007199254740993), .integer 9007199254740992]

theorem extremes_of_large_integers :
    largeOperands.map Operand.numeric = largeIntegers.map Operand.integer ∧
    (9007199254740993 ∈ largeIntegers ∧ ∀ x ∈ largeIntegers, x ≤ 9007199254740993) ∧
    (-9007199254740993 ∈ largeIntegers ∧ ∀ x ∈ largeIntegers, -9007199254740993 ≤ x) ∧
    ∃ r q, call "max" largeOperands = .ok (.integer r) ∧
      call "min" largeOperands = .ok (.integer q) ∧
      FirstAs 9007199254740993 largeIntegers r ∧ FirstAs (-9007199254740993) largeIntegers q ∧
      r = 9007199254740993 ∧ q ≠ -9007199254740993 := by
  have hops : largeOperands.map Operand.numeric = largeIntegers.map Operand.integer := rfl
  have hgreatest : 9007199254740993 ∈ largeIntegers ∧
      ∀ x ∈ largeIntegers, x ≤ 9007199254740993 := by simp [largeIntegers]
  have hleast : -9007199254740993 ∈ largeIntegers ∧
      ∀ x ∈ largeIntegers, -9007199254740993 ≤ x := by simp [largeIntegers]
  obtain ⟨r, q, hmax, hmin, hr, hq, hexact, hexact', -⟩ :=
    extremes_of_integers hops hgreatest hleast
  refine ⟨hops, hgreatest, hleast, r, q, hmax, hmin, hr, hq, hexact.2 ?_, fun h => ?_⟩
  · simp [largeIntegers]
  · have htie : ofInt64 (-9007199254740992) = ofInt64 (-9007199254740993) := by
      rw [ofInt64_inj_iff, show Int64.toInt (-9007199254740992) = -9007199254740992 by simp,
        show Int64.toInt (-9007199254740993) = -9007199254740993 by simp]
      decide +kernel
    exact hexact'.1 h (-9007199254740992) (by simp [largeIntegers, List.takeWhile]) htie

/-- The greatest integer is not found after one that is rounded like it. -/
theorem max_not_greatest : call "max" [.integer 9007199254740992, .integer 9007199254740993] =
    .ok (.integer 9007199254740992) := by
  rfl

end CommandScript.MathFunction
