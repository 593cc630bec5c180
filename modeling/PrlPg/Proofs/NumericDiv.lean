/-
Division of `numeric` variables.

The main loop of `div_var` divides, for one quotient digit, the first digits of what is left of
the dividend by the divisor.  The invariant is that these digits without the last one are a
number less than the divisor (`Window`): then the quotient is a digit, the estimate from the
top digits is it or one more (`adjustQhat_spec`), and subtracting the estimate times the divisor
and, if there is a borrow, adding the divisor back leaves the remainder
(`subtractMultiple_spec`), which has the invariant for the next digit.

So the quotient digits are those of the integer quotient (`divLong_spec`, `divShort_spec`), which
is the quotient cut off at the last digit that was computed; rounding or truncating it at the
scale gives the same as for the quotient itself.

All of it is for any machine arithmetic: no step leaves the range of its type, and no assertion
fails.
-/
import PrlPg.Lib.LongDivision
import PrlPg.Proofs.NumericMul

namespace PrlPg.Numeric

open List Radix NumericVar Rounding Sign Bool

theorem assert_of {p : Prop} [Decidable p] (h : p) : assert p = .ok () := if_pos h

/-! ### A single divisor digit -/

section Short

variable (arith : Arith)

theorem divShort_spec {d : Int} (hd : 0 < d ∧ d < nbase) (n : Nat) :
    ∀ {dividend : List Int} {carry : Int}, Digits nbase dividend → n ≤ dividend.length →
      0 ≤ carry → carry < d →
      ∃ qs, divShort arith d n dividend carry = .ok qs ∧ Digits nbase qs ∧ qs.length = n ∧
        value nbase qs = (carry * nbase ^ n + value nbase (dividend.take n)) / d := by
  induction n with
  | zero =>
    intro dividend carry _ _ h0 hlt
    refine ⟨[], rfl, Digits.nil, rfl, ?_⟩
    rw [pow_zero, mul_one, take_zero, value_nil, add_zero, Int.ediv_eq_zero_of_lt h0 hlt]
  | succ n ih =>
    intro dividend carry hdig hlen h0 hlt
    obtain ⟨x, xs, rfl⟩ := exists_cons_of_length_pos (l := dividend) (by omega)
    rw [Digits.cons_iff] at hdig
    obtain ⟨⟨hx0, hxlt⟩, hxs⟩ := hdig
    have hnbase : nbase = 10000 := rfl
    -- the partial dividend is less than the divisor times the base
    have htop : carry * nbase + x < d * nbase ∧ carry * nbase + x < 100000000 ∧
        0 ≤ carry * nbase := by
      rw [hnbase] at hd hxlt ⊢
      omega
    have hsum0 : 0 ≤ carry * nbase + x := by omega
    have hmod0 := Int.emod_nonneg (carry * nbase + x) (show d ≠ 0 by omega)
    have hmodlt := Int.emod_lt_of_pos (carry * nbase + x) hd.1
    have hq0 : 0 ≤ (carry * nbase + x) / d := Int.ediv_nonneg hsum0 hd.1.le
    have hqlt : (carry * nbase + x) / d < nbase := by
      rw [Int.ediv_lt_iff_lt_mul hd.1, mul_comm nbase]
      exact htop.1
    obtain ⟨qs, hrun, hqs, hqlen, hvalue⟩ :=
      ih hxs (show n ≤ xs.length by rw [length_cons] at hlen; omega) hmod0 hmodlt
    refine ⟨(carry * nbase + x) / d :: qs, ?_, Digits.cons_iff.mpr ⟨⟨hq0, hqlt⟩, hqs⟩,
      by rw [length_cons, hqlen], ?_⟩
    · rw [divShort, arith.int32_bind (by omega)]
      change (arith.int32 (carry * nbase + x) >>= fun _ => _) = _
      rw [arith.int32_bind (by omega), Int.tdiv_eq_ediv_of_nonneg hsum0,
        arith.int16_bind (by omega), Int.tmod_eq_emod_of_nonneg hsum0]
      change (divShort arith d n xs _ >>= fun _ => _) = _
      rw [hrun]
      rfl
    rw [value_cons, hqlen, hvalue, take_succ_cons, value_cons, length_take,
      min_eq_left (by rw [length_cons] at hlen; omega)]
    rw [add_comm, ← Int.add_mul_ediv_left _ _ (show d ≠ 0 by omega)]
    congr 1
    have hdiv := Int.mul_ediv_add_emod (carry * nbase + x) d
    calc _ = (d * ((carry * nbase + x) / d) + (carry * nbase + x) % d) * nbase ^ n +
          value nbase (xs.take n) := by ring
      _ = _ := by rw [hdiv]; ring

end Short

/-! ### Estimating a quotient digit -/

section Estimate

variable (arith : Arith) {p U V u2 u3 v1 v2 : Int}

open LongDivision

theorem qhatTooLarge_eq {qhat : Int} (hq : 0 ≤ qhat ∧ qhat < nbase) (h1 : 0 ≤ v1 ∧ v1 < nbase)
    (h2 : 0 ≤ v2 ∧ v2 < nbase) (h3 : 0 ≤ u3 ∧ u3 < nbase)
    (hrest : 0 ≤ u2 - qhat * v1 ∧ u2 - qhat * v1 < 2 * nbase) :
    qhatTooLarge arith v1 v2 u2 u3 qhat =
      .ok (decide ((u2 - qhat * v1) * nbase + u3 < v2 * qhat)) := by
  have hnbase : nbase = 10000 := rfl
  have hprod1 : 0 ≤ qhat * v1 ∧ qhat * v1 < 100000000 := by
    have := mul_nonneg hq.1 h1.1
    have : qhat * v1 ≤ 9999 * 9999 := mul_le_mul (by omega) (by omega) h1.1 (by omega)
    omega
  have hprod2 : 0 ≤ v2 * qhat ∧ v2 * qhat < 100000000 := by
    have := mul_nonneg h2.1 hq.1
    have : v2 * qhat ≤ 9999 * 9999 := mul_le_mul (by omega) (by omega) hq.1 (by omega)
    omega
  have hshift : 0 ≤ (u2 - qhat * v1) * nbase ∧ (u2 - qhat * v1) * nbase < 200000000 := by
    rw [hnbase] at hrest ⊢
    omega
  rw [qhatTooLarge, arith.int32_bind (by omega), arith.int32_bind (by omega),
    arith.int32_bind (by omega), arith.int32_bind (by omega), arith.int32_bind (by omega)]

/-- Lowering an estimate that is not too small stops at the quotient digit or one above. -/
theorem adjustQhat_spec (htops : Tops nbase p U V u2 u3 v1 v2) (hU : 0 ≤ U)
    (h1 : v1 < nbase) (h2 : v2 < nbase) (qhat : Nat) :
    (qhat : Int) < nbase → U < (qhat + 1) * V → 0 ≤ u2 - qhat * v1 → u2 - qhat * v1 < 2 * nbase →
      ∃ q : Int, adjustQhat arith v1 v2 u2 u3 qhat = .ok q ∧ 0 ≤ q ∧ q < nbase ∧
        U < (q + 1) * V ∧ (q - 1) * V ≤ U := by
  have hfirst := htops.first
  have hV : 0 ≤ V := by
    refine le_trans (mul_nonneg (add_nonneg ?_ htops.second) htops.rest.le) htops.divisor.1
    exact mul_nonneg htops.first.le htops.base.le
  induction qhat with
  | zero =>
    intro hlt hle hrest hrest'
    refine ⟨0, ?_, le_refl 0, nbase_pos, hle, by rw [zero_sub]; linarith⟩
    have hnot : ¬ (u2 - 0 * v1) * nbase + u3 < v2 * 0 := by
      have := htops.third.1
      have := mul_nonneg hrest htops.base.le
      push_cast at this
      omega
    rw [adjustQhat, qhatTooLarge_eq arith ⟨le_refl 0, nbase_pos⟩ ⟨hfirst.le, h1⟩
      ⟨htops.second, h2⟩ htops.third ⟨hrest, hrest'⟩, ok_bind, decide_eq_false hnot]
    rfl
  | succ qhat ih =>
    intro hlt hle hrest hrest'
    push_cast at hlt hle hrest hrest'
    have heq := qhatTooLarge_eq arith ⟨by omega, hlt⟩ ⟨hfirst.le, h1⟩ ⟨htops.second, h2⟩
      htops.third ⟨hrest, hrest'⟩
    rw [adjustQhat, heq]
    by_cases hlarge : (u2 - (qhat + 1 : Int) * v1) * nbase + u3 < v2 * (qhat + 1 : Int)
    swap
    · rw [decide_eq_false hlarge]
      exact ⟨qhat + 1, rfl, by omega, hlt, hle,
        sub_one_le_of_not_tooLarge htops (by omega) hlt.le (not_lt.mp hlarge)⟩
    rw [decide_eq_true hlarge]
    refine ih (by omega) (lt_of_tooLarge htops (by omega) hlarge) ?_ ?_
    · rw [add_mul] at hrest
      omega
    -- the product with the second digit is less than the square of the base
    have hprod : v2 * (qhat + 1 : Int) < nbase * nbase :=
      mul_lt_mul'' h2 hlt htops.second (by omega)
    have hthird := htops.third.1
    have hsmall : (u2 - (qhat + 1 : Int) * v1) * nbase < nbase * nbase := by omega
    have := lt_of_mul_lt_mul_right hsmall nbase_pos.le
    rw [add_mul] at this
    omega

end Estimate

/-! ### Subtracting a multiple of the divisor -/

section Subtract

variable (arith : Arith) {qhat : Int}

/-- The carry of the multiplication and the borrow of the subtraction. -/
def CarryBorrow (s : Int × Int) : Prop := (0 ≤ s.1 ∧ s.1 < nbase) ∧ (s.2 = 0 ∨ s.2 = -1)

def DigitPair (d : Int × Int) : Prop := (0 ≤ d.1 ∧ d.1 < nbase) ∧ 0 ≤ d.2 ∧ d.2 < nbase

theorem mulSubStep_spec (hq : 0 ≤ qhat ∧ qhat < nbase) (d s : Int × Int) (hd : DigitPair d)
    (hs : CarryBorrow s) :
    ∃ r, mulSubStep arith qhat d s = .ok r ∧ (0 ≤ r.1 ∧ r.1 < nbase) ∧ CarryBorrow r.2 ∧
      (d.1 = 0 → r.2.1 = 0) ∧
      r.1 + nbase * (r.2.2 - r.2.1) = (-qhat * d.1 + 1 * d.2) + (s.2 - s.1) := by
  obtain ⟨x, y⟩ := d
  obtain ⟨carry, borrow⟩ := s
  obtain ⟨hx, hy⟩ := hd
  obtain ⟨hcarry, hborrow⟩ := hs
  unfold nbase at hq hx hy hcarry
  have hprod0 : 0 ≤ x * qhat := mul_nonneg hx.1 hq.1
  have hprod : x * qhat ≤ 9999 * 9999 := mul_le_mul (by omega) (by omega) hq.1 (by omega)
  have hsum0 : 0 ≤ carry + x * qhat := by omega
  have hzero : x = 0 → (carry + x * qhat) / 10000 = 0 := by
    rintro rfl
    omega
  have hmul : -qhat * x + 1 * y = y - x * qhat := by ring
  unfold mulSubStep CarryBorrow nbase
  simp only [hmul]
  rw [arith.int32_bind (by omega), arith.int32_bind (by omega),
    Int.tmod_eq_emod_of_nonneg hsum0, Int.tdiv_eq_ediv_of_nonneg hsum0,
    arith.int32_bind (by omega), arith.int32_bind (by omega)]
  split_ifs <;> rw [arith.int16_bind (by omega)]
  · refine ⟨_, rfl, ?_, ⟨?_, .inr rfl⟩, hzero, ?_⟩ <;> simp only <;> omega
  · refine ⟨_, rfl, ?_, ⟨?_, .inl rfl⟩, hzero, ?_⟩ <;> simp only <;> omega

theorem addBackStep_spec (d : Int × Int) (carry : Int) (hd : DigitPair d)
    (hs : carry = 0 ∨ carry = 1) :
    ∃ r, addBackStep arith d carry = .ok r ∧ (0 ≤ r.1 ∧ r.1 < nbase) ∧ (r.2 = 0 ∨ r.2 = 1) ∧
      r.1 + nbase * r.2 = (1 * d.1 + 1 * d.2) + carry := by
  obtain ⟨hx, hy⟩ := hd
  unfold nbase at hx hy
  unfold addBackStep nbase
  rw [arith.int32_bind (by omega), arith.int32_bind (by omega)]
  split_ifs <;> rw [arith.int16_bind (by omega)]
  · exact ⟨_, rfl, by simp only; omega, .inr rfl, by simp only; omega⟩
  · exact ⟨_, rfl, by simp only; omega, .inl rfl, by simp only; omega⟩

theorem digitPair_zip {l m : List Int} (hl : Digits nbase l) (hm : Digits nbase m) :
    ∀ d ∈ l.zip m, DigitPair d := by
  intro d hd
  have := of_mem_zip hd
  exact ⟨hl d.1 this.1, hm d.2 this.2⟩

/-- The carry of the multiplication does not leave the digit above the divisor. -/
theorem pass_mulSub (hq : 0 ≤ qhat ∧ qhat < nbase) {v : List Int} {digits : List Int}
    (hv : Digits nbase v) (hdig : Digits nbase digits) (hlen : digits.length = v.length + 1) :
    ∃ r borrow, pass (mulSubStep arith qhat) ((0 :: v).zip digits) (0, 0) = .ok (r, (0, borrow)) ∧
      r.length = v.length + 1 ∧ Digits nbase r ∧ (borrow = 0 ∨ borrow = -1) ∧
      value nbase r + nbase ^ (v.length + 1) * borrow =
        value nbase digits - qhat * value nbase v := by
  obtain ⟨y, ys, rfl⟩ := exists_cons_of_length_pos (l := digits) (by omega)
  have hlen' : v.length = ys.length := by
    rw [length_cons] at hlen
    omega
  rw [Digits.cons_iff] at hdig
  obtain ⟨r, hrun, hrlen, hrdig, hs, hvalue⟩ := pass_spec (b := nbase)
    (Q := fun d => 0 ≤ d ∧ d < nbase) (I := CarryBorrow) (g := fun s => s.2 - s.1) (s := (0, 0))
    (fun d s hd hs => by
      obtain ⟨r, h, hr, hc, -, hval⟩ := mulSubStep_spec arith hq d s hd hs
      exact ⟨r, h, hr, hc, hval⟩)
    (digitPair_zip hv hdig.2) ⟨⟨le_refl 0, nbase_pos⟩, .inl rfl⟩
  obtain ⟨top, htop, htdig, hts, htcarry, htval⟩ := mulSubStep_spec arith hq (0, y) r.2
    ⟨⟨le_refl 0, nbase_pos⟩, hdig.1⟩ hs
  have hziplen : (v.zip ys).length = v.length := by rw [length_zip, ← hlen', Nat.min_self]
  rw [hziplen] at hrlen hvalue
  rw [value_zip_map (fun _ _ => rfl) hlen'] at hvalue
  have hcarry := htcarry rfl
  refine ⟨top.1 :: r.1, top.2.2, ?_, by rw [length_cons, hrlen],
    Digits.cons_iff.mpr ⟨htdig, hrdig⟩, hts.2, ?_⟩
  · rw [zip_cons_cons, Radix.pass, hrun, ok_bind, htop, ok_bind, ← hcarry]
  rw [hcarry] at htval
  rw [value_cons, value_cons, hrlen, ← hlen']
  linear_combination nbase ^ v.length * htval + hvalue

theorem value_zero_cons (v : List Int) : value nbase (0 :: v) = value nbase v := by
  rw [value_cons, zero_mul, zero_add]

theorem pass_addBack {v r : List Int} (hv : Digits nbase v) (hr : Digits nbase r)
    (hlen : r.length = v.length + 1) :
    ∃ back, pass (addBackStep arith) ((0 :: v).zip r) 0 = .ok back ∧
      back.1.length = v.length + 1 ∧ Digits nbase back.1 ∧ (back.2 = 0 ∨ back.2 = 1) ∧
      value nbase back.1 + nbase ^ (v.length + 1) * back.2 = value nbase v + value nbase r := by
  have hlen' : (0 :: v).length = r.length := by rw [length_cons, hlen]
  obtain ⟨back, hrun, hblen, hbdig, hcarry, hvalue⟩ := pass_spec (b := nbase)
    (Q := fun d => 0 ≤ d ∧ d < nbase) (I := fun carry => carry = 0 ∨ carry = 1) (g := id) (s := 0)
    (addBackStep_spec arith)
    (digitPair_zip (Digits.cons_iff.mpr ⟨⟨le_refl 0, nbase_pos⟩, hv⟩) hr) (.inl rfl)
  have hziplen : ((0 :: v).zip r).length = v.length + 1 := by
    rw [length_zip, hlen', Nat.min_self, hlen]
  rw [hziplen] at hblen hvalue
  rw [value_zip_map (fun _ _ => rfl) hlen', value_zero_cons, one_mul, one_mul, id, id,
    add_zero] at hvalue
  exact ⟨back, hrun, hblen, hbdig, hcarry, hvalue⟩

/-- Subtracting the estimate times the divisor, and adding the divisor back if the estimate was
one too large, leaves the remainder. -/
theorem subtractMultiple_spec (hq : 0 ≤ qhat ∧ qhat < nbase) {v digits : List Int}
    (hv : Digits nbase v) (hdig : Digits nbase digits) (hlen : digits.length = v.length + 1)
    (hover : value nbase digits < (qhat + 1) * value nbase v)
    (hunder : (qhat - 1) * value nbase v ≤ value nbase digits) :
    ∃ q r, subtractMultiple arith (0 :: v) digits qhat = .ok (q, r) ∧ (0 ≤ q ∧ q < nbase) ∧
      Digits nbase r ∧ r.length = v.length + 1 ∧
      value nbase digits = q * value nbase v + value nbase r ∧
      value nbase r < value nbase v := by
  obtain ⟨r, borrow, hrun, hrlen, hr, hborrow, hvalue⟩ := pass_mulSub arith hq hv hdig hlen
  have hU0 := hdig.value_nonneg nbase_pos.le
  have hrlt := hr.value_lt nbase_pos.le
  rw [hrlen] at hrlt
  rw [subtractMultiple, hrun, ok_bind, assert_of rfl, ok_bind]
  rcases hborrow with rfl | rfl
  · exact ⟨qhat, r, rfl, hq, hr, hrlen, by linarith, by linarith⟩
  obtain ⟨back, hback, hblen, hbdig, hcarry, hbvalue⟩ := pass_addBack arith hv hr hrlen
  have hblt := hbdig.value_lt nbase_pos.le
  rw [hblen] at hblt
  have hone : back.2 = 1 := by
    refine hcarry.resolve_left fun h0 => ?_
    rw [h0] at hbvalue
    linarith
  rw [hone] at hbvalue
  refine ⟨qhat - 1, back.1, ?_, ?_, hbdig, hblen, by linarith, by linarith⟩
  · rw [if_pos (show (-1 : Int) ≠ 0 by decide), hback, ok_bind, assert_of hone, ok_bind]
  have hpos : qhat ≠ 0 := by
    rintro rfl
    linarith
  omega

end Subtract

/-! ### One quotient digit -/

/-- The divisor and what is left of the dividend. -/
structure Aligned (v u : List Int) : Prop where
  divisor : Digits nbase v
  long : 2 ≤ v.length
  first : 0 < digitAt v 0
  dividend : Digits nbase u
  below : Radix.value nbase (u.take v.length) < Radix.value nbase v

/-- There is one more digit to divide. -/
structure Window (v u : List Int) : Prop extends Aligned v u where
  length : v.length + 1 ≤ u.length

section Digit

variable (arith : Arith) {v u : List Int}

/-- A number with fewer digits has a zero in front. -/
theorem value_tail_of_lt {d : Int} {ds : List Int} (h : Digits nbase (d :: ds))
    (hlt : value nbase (d :: ds) < nbase ^ ds.length) :
    value nbase ds = value nbase (d :: ds) := by
  rw [Digits.cons_iff] at h
  have hrest := h.2.value_nonneg nbase_pos.le
  have hpow : 0 < nbase ^ ds.length := pow_pos nbase_pos _
  rw [value_cons] at hlt ⊢
  have hd : d < 1 := by
    by_contra hge
    have : 1 * nbase ^ ds.length ≤ d * nbase ^ ds.length :=
      mul_le_mul_of_nonneg_right (not_lt.mp hge) hpow.le
    linarith
  obtain rfl : d = 0 := by omega
  rw [zero_mul, zero_add]

section

variable (h : Window v u)
include h

/-- The quotient is less than the base. -/
theorem Window.value_lt :
    value nbase (u.take (v.length + 1)) < nbase * value nbase v := by
  have hlen := h.length
  have hsplit : u.take (v.length + 1) = u.take v.length ++ [digitAt u v.length] := by
    rw [take_succ_eq_append_getElem (by omega), digitAt, if_pos (Int.natCast_nonneg _),
      Int.toNat_natCast, getD_eq_getElem _ _ (by omega)]
  have hlast : digitAt u v.length < nbase := (h.dividend.digitAt nbase_pos v.length).2
  have hbelow : value nbase (u.take v.length) + 1 ≤ value nbase v := h.below
  rw [hsplit, value_append, value_cons, value_nil, length_singleton, length_nil, pow_one,
    pow_zero, mul_one, add_zero]
  calc value nbase (u.take v.length) * nbase + digitAt u v.length
      < (value nbase (u.take v.length) + 1) * nbase := by linarith
    _ ≤ value nbase v * nbase := mul_le_mul_of_nonneg_right hbelow nbase_pos.le
    _ = nbase * value nbase v := mul_comm _ _

theorem Window.shape : ∃ v1 v2 vs d0 d1 d2 us, v = v1 :: v2 :: vs ∧
    u = d0 :: d1 :: d2 :: us ∧ vs.length ≤ us.length := by
  have hlong := h.long
  have hlength := h.length
  rcases v with _ | ⟨v1, _ | ⟨v2, vs⟩⟩
  · cases hlong
  · exact absurd hlong (by simp)
  rcases u with _ | ⟨d0, _ | ⟨d1, _ | ⟨d2, us⟩⟩⟩
  iterate 3
    simp only [length_cons, length_nil] at hlength
    omega
  refine ⟨v1, v2, vs, d0, d1, d2, us, rfl, rfl, ?_⟩
  simp only [length_cons] at hlength
  omega

theorem Window.first_le : digitAt u 0 ≤ digitAt v 0 := by
  have hbelow := h.below
  have hdiv := h.divisor
  have hdig := h.dividend.take v.length
  obtain ⟨v1, v2, vs, d0, d1, d2, us, rfl, rfl, hlen⟩ := h.shape
  exact hdig.head_le_of_value_lt nbase_pos.le hdiv
    (by simp only [length_take, length_cons]; omega) hbelow

theorem Window.tops :
    LongDivision.Tops nbase (nbase ^ (v.length - 2)) (value nbase (u.take (v.length + 1)))
      (value nbase v) (digitAt u 0 * nbase + digitAt u 1) (digitAt u 2) (digitAt v 0)
      (digitAt v 1) := by
  have hfirst := h.first
  have hdiv := h.divisor
  have hdig := h.dividend
  obtain ⟨v1, v2, vs, d0, d1, d2, us, rfl, rfl, hlen⟩ := h.shape
  have hrestlen : (us.take vs.length).length = vs.length := length_take_of_le hlen
  simp only [Digits.cons_iff] at hdiv hdig
  obtain ⟨-, hv2, hvs⟩ := hdiv
  obtain ⟨-, -, hd2, hus⟩ := hdig
  have hvlt := hvs.value_lt nbase_pos.le
  have hv0 := hvs.value_nonneg nbase_pos.le
  have hult := (hus.take vs.length).value_lt nbase_pos.le
  have hu0 := (hus.take vs.length).value_nonneg nbase_pos.le
  rw [hrestlen] at hult
  have hV : value nbase (v1 :: v2 :: vs) =
      (v1 * nbase + v2) * nbase ^ vs.length + value nbase vs := by
    rw [value_cons, value_cons, length_cons]
    ring
  have hU : value nbase ((d0 :: d1 :: d2 :: us).take ((v1 :: v2 :: vs).length + 1)) =
      ((d0 * nbase + d1) * nbase + d2) * nbase ^ vs.length + value nbase (us.take vs.length) := by
    rw [length_cons, length_cons, take_succ_cons, take_succ_cons,
      take_succ_cons, value_cons, value_cons, value_cons, length_cons, length_cons,
      hrestlen, pow_succ, pow_succ]
    ring
  change LongDivision.Tops nbase (nbase ^ vs.length) _ _ (d0 * nbase + d1) d2 v1 v2
  refine ⟨nbase_pos, pow_pos nbase_pos _, hd2, hfirst, hv2.1, ?_, ?_⟩
  · rw [hU]
    constructor <;> linarith
  · rw [hV]
    constructor <;> linarith

end

/-- One quotient digit, and the remainder in front of the rest of the dividend. -/
structure Divided (v u : List Int) (q : Int) (u' : List Int) : Prop where
  digit : 0 ≤ q ∧ q < nbase
  dividend : Digits nbase u'
  length : u'.length + 1 = u.length
  value : Radix.value nbase (u.take (v.length + 1)) =
    q * Radix.value nbase v + Radix.value nbase (u'.take v.length)
  below : Radix.value nbase (u'.take v.length) < Radix.value nbase v
  rest : u'.drop v.length = u.drop (v.length + 1)

/-- The quotient digit is zero if the dividend is less than the divisor. -/
theorem Window.divided_zero (h : Window v u)
    (hlt : value nbase (u.take (v.length + 1)) < value nbase v) :
    Divided v u 0 u.tail := by
  have hlen := h.length
  have hdig := h.dividend
  obtain ⟨d, u, rfl⟩ := exists_cons_of_length_pos (l := u) (by omega)
  rw [length_cons] at hlen
  have hvalue : value nbase (u.take v.length) = value nbase ((d :: u).take (v.length + 1)) := by
    refine value_tail_of_lt (h.dividend.take (v.length + 1)) ?_
    rw [length_take_of_le (by omega)]
    exact hlt.trans (h.divisor.value_lt nbase_pos.le)
  refine ⟨⟨le_refl 0, nbase_pos⟩, (Digits.cons_iff.mp hdig).2, rfl, ?_, ?_, rfl⟩
  · rw [zero_mul, zero_add]
    exact hvalue.symm
  · exact hvalue ▸ hlt

/-- A quotient digit with its remainder. -/
theorem Window.divided (h : Window v u) {q : Int} {r : List Int} (hq : 0 ≤ q ∧ q < nbase)
    (hr : Digits nbase r) (hrlen : r.length = v.length + 1)
    (hvalue : value nbase (u.take (v.length + 1)) = q * value nbase v + value nbase r)
    (hlt : value nbase r < value nbase v) :
    Divided v u q (r ++ u.drop (v.length + 1)).tail := by
  have hlen := h.length
  obtain ⟨d, r, rfl⟩ := exists_cons_of_length_pos (l := r) (by omega)
  have hrlen' : r.length = v.length := Nat.succ.inj hrlen
  have htail : value nbase r = value nbase (d :: r) := by
    refine value_tail_of_lt hr ?_
    rw [hrlen']
    exact hlt.trans (h.divisor.value_lt nbase_pos.le)
  rw [cons_append, tail_cons]
  refine ⟨hq, ?_, ?_, ?_, ?_, ?_⟩
  · exact Digits.append_iff.mpr ⟨(Digits.cons_iff.mp hr).2, h.dividend.drop _⟩
  · rw [length_append, length_drop]
    omega
  · rw [hvalue, ← hrlen', take_left, htail]
  · rw [← hrlen', take_left, htail]
    exact hlt
  · rw [← hrlen', drop_left]

/-- The first estimate of a quotient digit. -/
def firstEstimate (v u : List Int) : Int :=
  if digitAt u 0 = digitAt v 0 then nbase - 1
  else (digitAt u 0 * nbase + digitAt u 1).tdiv (digitAt v 0)

section

variable (h : Window v u)
include h

theorem Window.next2_nonneg : 0 ≤ digitAt u 0 * nbase + digitAt u 1 :=
  add_nonneg (mul_nonneg (h.dividend.digitAt nbase_pos 0).1 nbase_pos.le)
    (h.dividend.digitAt nbase_pos 1).1

/-- The first estimate is a digit and not too small. -/
theorem Window.firstEstimate_spec :
    (0 ≤ firstEstimate v u ∧ firstEstimate v u < nbase) ∧ value nbase (u.take (v.length + 1)) <
        (firstEstimate v u + 1) * value nbase v ∧
      0 ≤ digitAt u 0 * nbase + digitAt u 1 - firstEstimate v u * digitAt v 0 ∧
      digitAt u 0 * nbase + digitAt u 1 - firstEstimate v u * digitAt v 0 < 2 * nbase := by
  have hfirst := h.first
  have hnext := h.next2_nonneg
  have hle := h.first_le
  have hv1 := h.divisor.digitAt nbase_pos 0
  have hd1 := h.dividend.digitAt nbase_pos 1
  have hlt := h.value_lt
  unfold firstEstimate
  split_ifs with heq
  · rw [heq]
    refine ⟨by decide, by rwa [sub_add_cancel], ?_, ?_⟩ <;> linarith
  rw [Int.tdiv_eq_ediv_of_nonneg hnext]
  have hmod := Int.mul_ediv_add_emod (digitAt u 0 * nbase + digitAt u 1) (digitAt v 0)
  have hmod0 := Int.emod_nonneg (digitAt u 0 * nbase + digitAt u 1) hfirst.ne'
  have hmodlt := Int.emod_lt_of_pos (digitAt u 0 * nbase + digitAt u 1) hfirst
  refine ⟨⟨Int.ediv_nonneg hnext hfirst.le, ?_⟩, ?_, by linarith, by linarith⟩
  · rw [Int.ediv_lt_iff_lt_mul hfirst]
    have : (digitAt u 0 + 1) * nbase ≤ digitAt v 0 * nbase :=
      mul_le_mul_of_nonneg_right (by omega) nbase_pos.le
    linarith
  by_contra hge
  have hbig := LongDivision.le_estimate h.tops
    (add_nonneg (Int.ediv_nonneg hnext hfirst.le) zero_le_one) (not_lt.mp hge)
  omega

/-- After the correction the estimate is the quotient digit or one more. -/
theorem Window.corrected :
    ∃ qhat, adjustQhat arith (digitAt v 0) (digitAt v 1) (digitAt u 0 * nbase + digitAt u 1)
        (digitAt u 2) (firstEstimate v u).toNat = .ok qhat ∧ 0 ≤ qhat ∧ qhat < nbase ∧
      value nbase (u.take (v.length + 1)) < (qhat + 1) * value nbase v ∧
      (qhat - 1) * value nbase v ≤ value nbase (u.take (v.length + 1)) := by
  obtain ⟨hrange, hover, hrest0, hrest⟩ := h.firstEstimate_spec
  have hcast : ((firstEstimate v u).toNat : Int) = firstEstimate v u := Int.toNat_of_nonneg hrange.1
  exact adjustQhat_spec arith h.tops ((h.dividend.take _).value_nonneg nbase_pos.le)
    (h.divisor.digitAt nbase_pos 0).2 (h.divisor.digitAt nbase_pos 1).2 _
    (by rw [hcast]; exact hrange.2) (by rwa [hcast]) (by rwa [hcast]) (by rwa [hcast])

theorem divDigit_spec :
    ∃ q u', divDigit arith (0 :: v) u = .ok (q, u') ∧ Divided v u q u' := by
  have hd0 := h.dividend.digitAt nbase_pos 0
  have hd1 := h.dividend.digitAt nbase_pos 1
  have hbound : 0 ≤ digitAt u 0 * nbase ∧ digitAt u 0 * nbase + digitAt u 1 < 100000000 := by
    unfold nbase at *
    omega
  unfold divDigit
  rw [show digitAt (0 :: v) 1 = digitAt v 0 from digitAt_cons_succ 0 (le_refl 0),
    show digitAt (0 :: v) 2 = digitAt v 1 from digitAt_cons_succ 0 zero_le_one,
    arith.int32_bind (by omega), arith.int32_bind (by omega)]
  by_cases hzero : digitAt u 0 * nbase + digitAt u 1 = 0
  · -- fewer digits than the divisor
    rw [if_pos hzero]
    refine ⟨0, u.tail, rfl, h.divided_zero ?_⟩
    have hlt := h.tops.dividend.2
    have hge := h.tops.divisor.1
    have hthird := h.tops.third.2
    have hsecond := h.tops.second
    have hfirst : 1 * nbase ≤ digitAt v 0 * nbase := mul_le_mul_of_nonneg_right h.first nbase_pos.le
    refine hlt.trans_le (le_trans (mul_le_mul_of_nonneg_right ?_ h.tops.rest.le) hge)
    rw [hzero]
    omega
  rw [if_neg hzero]
  obtain ⟨qhat, hadjust, h0, hlt, hover, hunder⟩ := h.corrected arith
  have hestimate : (if digitAt u 0 = digitAt v 0 then nbase - 1
      else (digitAt u 0 * nbase + digitAt u 1).tdiv (digitAt v 0)) = firstEstimate v u := rfl
  simp only [hestimate, hadjust, ok_bind, length_cons]
  by_cases hpos : qhat > 0
  · obtain ⟨q, r, hrun, hq, hr, hrlen, hvalue, hbelow⟩ := subtractMultiple_spec arith ⟨h0, hlt⟩
      h.divisor (h.dividend.take (v.length + 1)) (length_take_of_le h.length) hover hunder
    rw [if_pos hpos, hrun]
    exact ⟨q, _, rfl, h.divided hq hr hrlen hvalue hbelow⟩
  obtain rfl : qhat = 0 := by omega
  rw [zero_add, one_mul] at hover
  exact ⟨0, u.tail, rfl, h.divided_zero hover⟩

end

end Digit

/-! ### All quotient digits -/

section Loop

variable (arith : Arith) {v : List Int}

theorem Divided.aligned {u u' : List Int} {q : Int} (h : Aligned v u) (hdiv : Divided v u q u') :
    Aligned v u' :=
  ⟨h.divisor, h.long, h.first, hdiv.dividend, hdiv.below⟩

/-- The rest of the digits, in front of them the remainder. -/
theorem Divided.value_take {u u' : List Int} {q : Int} (hdiv : Divided v u q u') {n : Nat}
    (hlen : v.length + n ≤ u'.length) :
    Radix.value nbase (u.take (v.length + 1 + n)) =
      q * nbase ^ n * Radix.value nbase v + Radix.value nbase (u'.take (v.length + n)) := by
  have hlenu := hdiv.length
  have hu : u.take (v.length + 1 + n) =
      u.take (v.length + 1) ++ (u.drop (v.length + 1)).take n := take_add
  have hu' : u'.take (v.length + n) = u'.take v.length ++ (u.drop (v.length + 1)).take n := by
    rw [← hdiv.rest]
    exact take_add
  have hlenrest : ((u.drop (v.length + 1)).take n).length = n := by
    rw [length_take, length_drop]
    omega
  rw [hu, hu', value_append, value_append, hlenrest, hdiv.value]
  ring

theorem value_pos_of_first (hv : Digits nbase v) (hfirst : 0 < digitAt v 0) :
    0 < value nbase v := by
  cases v with
  | nil => cases hfirst
  | cons d ds => exact (pow_pos nbase_pos _).trans_le (hv.le_value nbase_pos.le hfirst.ne')

/-- The quotient digits are those of the integer quotient. -/
theorem divLoop_spec (n : Nat) : ∀ {u : List Int}, Aligned v u → v.length + n ≤ u.length →
    ∃ qs, divLoop arith (0 :: v) n u = .ok qs ∧ Digits nbase qs ∧ qs.length = n ∧
      Radix.value nbase qs = Radix.value nbase (u.take (v.length + n)) / Radix.value nbase v := by
  induction n with
  | zero =>
    intro u h _
    refine ⟨[], rfl, Digits.nil, rfl, ?_⟩
    rw [value_nil, Nat.add_zero,
      Int.ediv_eq_zero_of_lt ((h.dividend.take _).value_nonneg nbase_pos.le) h.below]
  | succ n ih =>
    intro u h hlen
    obtain ⟨q, u', hrun, hdiv⟩ := divDigit_spec arith ⟨h, by omega⟩
    have hlength := hdiv.length
    have hdigit : 0 ≤ q ∧ q < 10000 := hdiv.digit
    have hpos := value_pos_of_first h.divisor h.first
    obtain ⟨qs, hrest, hqs, hqlen, hvalue⟩ := ih (hdiv.aligned h) (by omega)
    refine ⟨q :: qs, ?_, Digits.cons_iff.mpr ⟨hdiv.digit, hqs⟩, by rw [length_cons, hqlen], ?_⟩
    · rw [divLoop, hrun, ok_bind, arith.int16_bind (by omega), hrest, ok_bind]
    rw [value_cons, hqlen, hvalue, show v.length + (n + 1) = v.length + 1 + n by omega,
      hdiv.value_take (by omega), add_comm (q * nbase ^ n * Radix.value nbase v),
      Int.add_mul_ediv_right _ _ hpos.ne', add_comm]

end Loop

/-! ### Scaling up -/

section Scale

variable (arith : Arith) {d : Int}

theorem scaleStep_spec (hd : 0 ≤ d ∧ d < nbase) (x carry : Int) (hx : 0 ≤ x ∧ x < nbase)
    (hcarry : 0 ≤ carry ∧ carry < nbase) :
    ∃ r, scaleStep arith d x carry = .ok r ∧ (0 ≤ r.1 ∧ r.1 < nbase) ∧
      (0 ≤ r.2 ∧ r.2 < nbase) ∧ r.1 + nbase * r.2 = d * x + carry := by
  have hprod0 : 0 ≤ x * d := mul_nonneg hx.1 hd.1
  unfold nbase at hx hd hcarry
  have hprod : x * d ≤ 9999 * 9999 := mul_le_mul (by omega) (by omega) hd.1 (by omega)
  have hsum0 : 0 ≤ carry + x * d := by omega
  unfold scaleStep nbase
  rw [arith.int32_bind (by omega), arith.int32_bind (by omega),
    Int.tmod_eq_emod_of_nonneg hsum0, Int.tdiv_eq_ediv_of_nonneg hsum0,
    arith.int16_bind (by omega), mul_comm d x]
  exact ⟨_, rfl, by simp only; omega, by simp only; omega, by simp only; omega⟩

/-- Scaling up digits with no carry out of the first one. -/
theorem scaleUp_spec (hd : 0 ≤ d ∧ d < nbase) {l : List Int} (hl : Digits nbase l)
    (hfit : d * value nbase l < nbase ^ l.length) :
    ∃ l', scaleUp arith d l = .ok l' ∧ Digits nbase l' ∧ l'.length = l.length ∧
      value nbase l' = d * value nbase l := by
  obtain ⟨r, hrun, hlen, hdig, hcarry, hvalue⟩ := pass_spec (b := nbase)
    (Q := fun d => 0 ≤ d ∧ d < nbase) (I := fun carry => 0 ≤ carry ∧ carry < nbase) (g := id)
    (scaleStep_spec arith hd) hl ⟨le_refl 0, nbase_pos⟩
  rw [value_map_mul, id, id, add_zero] at hvalue
  have hzero : r.2 = 0 := by
    have hnonneg := Digits.value_nonneg nbase_pos.le hdig
    have hlt : nbase ^ l.length * r.2 < nbase ^ l.length * 1 := by linarith
    have := lt_of_mul_lt_mul_left hlt (pow_nonneg nbase_pos.le _)
    omega
  rw [hzero, mul_zero, add_zero] at hvalue
  exact ⟨r.1, by rw [scaleUp, hrun, ok_bind, assert_of hzero, ok_bind], hdig, hlen, hvalue⟩

/-- The factor makes the first digit large enough but not too large. -/
theorem scaleFactor_spec {v1 : Int} (h : 0 < v1) (hsmall : v1 < halfNbase) :
    (0 < nbase.tdiv (v1 + 1) ∧ nbase.tdiv (v1 + 1) < nbase) ∧
      nbase.tdiv (v1 + 1) * (v1 + 1) ≤ nbase ∧ halfNbase ≤ nbase.tdiv (v1 + 1) * v1 := by
  rw [Int.tdiv_eq_ediv_of_nonneg nbase_pos.le]
  unfold halfNbase at hsmall ⊢
  unfold nbase
  obtain ⟨d, hd⟩ : ∃ d, (10000 : Int) / (v1 + 1) = d := ⟨_, rfl⟩
  have hle : d * (v1 + 1) ≤ 10000 := by
    rw [← hd]
    exact Int.ediv_mul_le _ (by omega)
  have hlt : 10000 < (d + 1) * (v1 + 1) := by
    rw [← hd]
    exact Int.lt_ediv_add_one_mul_self _ (by omega)
  rw [hd]
  have hpos : 0 < d := by
    by_contra hnot
    nlinarith
  refine ⟨⟨hpos, by nlinarith⟩, hle, ?_⟩
  -- as d (v1 + 1) > 9999 - v1, and (v1 - 1) (4999 - v1) is not negative
  by_contra hnot
  nlinarith

/-- The main loop on operands that were scaled up by the same factor. -/
theorem divLoop_scaled {v w v' u : List Int} {n : Nat} (hd : 0 < d) (hw : Digits nbase w)
    (hv' : Digits nbase v') (hu : Digits nbase u) (hlen : u.length = w.length + 1)
    (hlen' : v'.length = v.length) (hlong : 2 ≤ v.length) (hfit : v.length + n ≤ w.length + 1)
    (hdividend : value nbase u = d * value nbase w)
    (hdivisor : value nbase v' = d * value nbase v)
    (hlarge : nbase ^ (v.length - 1) ≤ value nbase v) :
    ∃ qs, divLoop arith (0 :: v') n u = .ok qs ∧ Digits nbase qs ∧ qs.length = n ∧
      value nbase qs = value nbase w / (nbase ^ (w.length + 1 - v.length - n) * value nbase v) := by
  have hpow : ∀ k : Nat, 0 < nbase ^ k := fun k => pow_pos nbase_pos k
  have hlarge' : nbase ^ (v.length - 1) ≤ value nbase v' := by
    have := mul_le_mul_of_nonneg_right (show 1 ≤ d by omega) ((hpow _).le.trans hlarge)
    linarith
  have hfirst : 0 < digitAt v' 0 := by
    obtain ⟨e, es, rfl⟩ := exists_cons_of_length_pos (l := v') (by omega)
    rw [← hlen'] at hlarge'
    exact Digits.le_head nbase_pos hv' (by rwa [zero_add, one_mul])
  have hbelow : value nbase (u.take v'.length) < value nbase v' := by
    rw [Digits.value_take nbase_pos hu, hlen, hlen', hdividend, hdivisor,
      Int.ediv_lt_iff_lt_mul (hpow _)]
    have hsplit : nbase ^ w.length =
        nbase ^ (v.length - 1) * nbase ^ (w.length + 1 - v.length) := by
      rw [← pow_add]
      congr 1
      omega
    calc d * value nbase w < d * nbase ^ w.length :=
          mul_lt_mul_of_pos_left (hw.value_lt nbase_pos.le) hd
      _ = d * nbase ^ (v.length - 1) * nbase ^ (w.length + 1 - v.length) := by rw [hsplit, mul_assoc]
      _ ≤ d * value nbase v * nbase ^ (w.length + 1 - v.length) :=
          mul_le_mul_of_nonneg_right (mul_le_mul_of_nonneg_left hlarge hd.le) (hpow _).le
  obtain ⟨qs, hrun, hqs, hqlen, hvalue⟩ := divLoop_spec arith n
    (⟨hv', by omega, hfirst, hu, hbelow⟩ : Aligned v' u) (by omega)
  refine ⟨qs, hrun, hqs, hqlen, ?_⟩
  rw [hvalue, Digits.value_take nbase_pos hu, hlen, hlen', hdividend, hdivisor,
    Int.ediv_ediv_of_nonneg (hpow _).le, mul_left_comm, Int.mul_ediv_mul_of_pos _ _ hd]
  congr 3
  omega

theorem divLong_spec {v w : List Int} {n : Nat} (hv : Digits nbase v) (hlong : 2 ≤ v.length)
    (hfirst : 0 < digitAt v 0) (hw : Digits nbase w) (hfit : v.length + n ≤ w.length + 1) :
    ∃ qs, divLong arith (0 :: v) (0 :: w) n = .ok qs ∧ Digits nbase qs ∧ qs.length = n ∧
      value nbase qs = value nbase w / (nbase ^ (w.length + 1 - v.length - n) * value nbase v) := by
  have hdig : Digits nbase (0 :: w) := Digits.cons_iff.mpr ⟨⟨le_refl 0, nbase_pos⟩, hw⟩
  obtain ⟨v1, vs, rfl⟩ := exists_cons_of_length_pos (l := v) (by omega)
  change 0 < v1 at hfirst
  have hlarge : nbase ^ ((v1 :: vs).length - 1) ≤ value nbase (v1 :: vs) :=
    hv.le_value nbase_pos.le hfirst.ne'
  have hv1 : digitAt (0 :: v1 :: vs) 1 = v1 := rfl
  unfold divLong
  rw [hv1]
  by_cases hsmall : v1 < halfNbase
  swap
  · rw [if_neg hsmall]
    exact divLoop_scaled arith zero_lt_one hw hv hdig rfl rfl hlong hfit
      (by rw [value_zero_cons, one_mul]) (by rw [one_mul]) hlarge
  obtain ⟨hd, hle, hhalf⟩ := scaleFactor_spec hfirst hsmall
  rw [if_pos hsmall]
  generalize nbase.tdiv (v1 + 1) = d at hd hle hhalf
  obtain ⟨v', hscale, hv', hlen', hvalue'⟩ := scaleUp_spec arith ⟨hd.1.le, hd.2⟩ hv (by
    have hlt := (Digits.cons_iff.mp hv).2.value_lt nbase_pos.le
    calc d * value nbase (v1 :: vs) < d * ((v1 + 1) * nbase ^ vs.length) := by
          refine mul_lt_mul_of_pos_left ?_ hd.1
          rw [value_cons]
          linarith
      _ = d * (v1 + 1) * nbase ^ vs.length := by ring
      _ ≤ nbase * nbase ^ vs.length := mul_le_mul_of_nonneg_right hle (pow_nonneg nbase_pos.le _)
      _ = nbase ^ (v1 :: vs).length := by rw [length_cons, pow_succ, mul_comm])
  obtain ⟨u, hscaleu, hu, hlenu, hvalueu⟩ := scaleUp_spec arith ⟨hd.1.le, hd.2⟩ hdig (by
    rw [value_zero_cons, mul_comm d]
    exact mul_lt_mul'' (hw.value_lt nbase_pos.le) hd.2 (hw.value_nonneg nbase_pos.le) hd.1.le)
  rw [value_zero_cons] at hvalueu
  have hassert : digitAt (0 :: v') 1 ≥ halfNbase := by
    obtain ⟨e, es, rfl⟩ := exists_cons_of_length_pos (l := v') (by omega)
    have hvs := (Digits.cons_iff.mp hv).2.value_nonneg nbase_pos.le
    refine le_trans hhalf (Digits.le_head nbase_pos hv' ?_)
    rw [show es.length = vs.length from Nat.succ.inj hlen', hvalue', value_cons, mul_assoc]
    exact mul_le_mul_of_nonneg_left (by linarith) hd.1.le
  rw [tail_cons]
  simp only [hscale, hscaleu, ok_bind, assert_of hassert]
  exact divLoop_scaled arith hd.1 hw hv' hu hlenu hlen' hlong hfit hvalueu hvalue' hlarge

end Scale

/-! ### The quotient -/

section Quotient

variable (arith : Arith) {n : Nat}

theorem quotientDigits_spec {v w : List Int} (hv : Digits nbase v) (hne : v ≠ [])
    (hfirst : 0 < digitAt v 0) (hw : Digits nbase w) (hfit : v.length + n ≤ w.length) :
    ∃ qs, quotientDigits arith v w n = .ok qs ∧ Digits nbase qs ∧ qs.length = n ∧
      value nbase qs = value nbase w / (nbase ^ (w.length + 1 - v.length - n) * value nbase v) := by
  have hlen := length_pos_iff.mpr hne
  unfold quotientDigits
  split_ifs with hone
  swap
  · exact divLong_spec arith hv (by omega) hfirst hw (by omega)
  obtain ⟨d, rfl⟩ := length_eq_one_iff.mp hone
  obtain ⟨qs, hrun, hqs, hqlen, hvalue⟩ := divShort_spec arith
    ⟨hfirst, (hv.digitAt nbase_pos 0).2⟩ n hw (by omega) (le_refl 0) hfirst
  refine ⟨qs, hrun, hqs, hqlen, ?_⟩
  rw [hvalue, zero_mul, zero_add, Digits.value_take nbase_pos hw,
    Int.ediv_ediv_of_nonneg (pow_nonneg nbase_pos.le _), length_singleton,
    Nat.add_sub_cancel, value_cons, value_nil, length_nil, pow_zero, mul_one, add_zero]
  rfl

/-- The quotient digits are the quotient, cut off after the last of them. -/
theorem scaled_quotient {v w qs : List Int} {w1 w2 : Int} (hv : 0 < value nbase v)
    (hfit : v.length + n ≤ w.length) (hqlen : qs.length = n)
    (hvalue : value nbase qs = value nbase w /
        (nbase ^ (w.length + 1 - v.length - n) * value nbase v)) :
    scaled nbase qs (w1 - w2) = floorTo ((nbase : Rat) ^ (w1 - w2 + 1 - n))
      (scaled nbase w w1 / scaled nbase v w2) := by
  have hbase : (nbase : Rat) ≠ 0 := by norm_num [nbase]
  have hpos : (0 : Rat) < nbase := by norm_num [nbase]
  have hP : 0 < nbase ^ (w.length + 1 - v.length - n) * value nbase v :=
    mul_pos (pow_pos nbase_pos _) hv
  have hPr : (0 : Rat) < (nbase ^ (w.length + 1 - v.length - n) * value nbase v : Int) := by
    exact_mod_cast hP
  have hmod := Int.mul_ediv_add_emod (value nbase w)
    (nbase ^ (w.length + 1 - v.length - n) * value nbase v)
  rw [← hvalue, mul_comm] at hmod
  rw [floorTo_of_split (t := (nbase : Rat) ^ (w1 - w2 + 1 - n) /
      (nbase ^ (w.length + 1 - v.length - n) * value nbase v : Int))
    (div_pos (zpow_pos hpos _) hPr) (Int.emod_nonneg _ hP.ne') (Int.emod_lt_of_pos _ hP)
    (mul_div_cancel₀ _ hPr.ne').symm (K := value nbase qs)]
  · rw [scaled, hqlen]
  rw [hmod, scaled, scaled]
  push_cast
  have hexp : (nbase : Rat) ^ (w1 + 1 - w.length) =
      (nbase : Rat) ^ (w1 - w2 + 1 - n) * (nbase : Rat) ^ (w2 + 1 - (v.length : Int)) /
        (nbase : Rat) ^ (w.length + 1 - v.length - n) := by
    rw [← zpow_natCast, ← zpow_add₀ hbase, ← zpow_sub₀ hbase]
    congr 1
    omega
  rw [hexp]
  field_simp

/-- Cutting off at a place beyond the scale does not change the truncated value. -/
theorem floorTo_unit_floorTo {s e : Int} (he : 4 * e ≤ -s) (x : Rat) :
    floorTo (unit s) (floorTo ((nbase : Rat) ^ e) x) = floorTo (unit s) x := by
  obtain ⟨j, hj⟩ : ∃ j : Nat, (j : Int) = -s - 4 * e := ⟨_, Int.toNat_of_nonneg (by omega)⟩
  have hunit : unit s = ((10 ^ j : Nat) : Rat) * (nbase : Rat) ^ e := by
    push_cast
    rw [unit, nbase_zpow, ← zpow_natCast, ← zpow_add₀ (by norm_num)]
    congr 1
    omega
  rw [hunit]
  exact floorTo_floorTo (zpow_pos (by norm_num [nbase]) _) (Nat.pow_pos (by decide))

/-- Cutting off one digit beyond the scale does not change the rounded value. -/
theorem roundTo_unit_floorTo {s e : Int} (he : 4 * e < -s) (x : Rat) :
    roundTo (unit s) (floorTo ((nbase : Rat) ^ e) x) = roundTo (unit s) x := by
  obtain ⟨j, hj⟩ : ∃ j : Nat, (j : Int) = -s - 4 * e - 1 := ⟨_, Int.toNat_of_nonneg (by omega)⟩
  have hunit : unit s = 2 * ((5 * 10 ^ j : Nat) : Rat) * (nbase : Rat) ^ e := by
    have hten : (10 : Rat) ^ (-s) = 10 * 10 ^ (j : Int) * 10 ^ (4 * e) := by
      rw [← zpow_one_add₀ (by norm_num), ← zpow_add₀ (by norm_num)]
      congr 1
      omega
    push_cast
    rw [unit, nbase_zpow, hten, zpow_natCast]
    ring
  rw [hunit]
  exact roundTo_floorTo (zpow_pos (by norm_num [nbase]) _)
    (Nat.mul_pos (by decide) (Nat.pow_pos (by decide)))

/-- Sizes for which no index or count overflows.  `div_var` allocates `div_ndigits + var2ndigits + 2`
digits of two bytes, so a divisor with more than 536870911 of them passes `MaxAllocSize`. -/
structure DivRange (var1 var2 : NumericVar) (rscale : Int) : Prop where
  length1 : var1.digits.length ≤ 600000000
  length2 : var2.digits.length ≤ 600000000
  weight : -536870912 ≤ var1.weight - var2.weight
  scale : 0 ≤ rscale ∧ rscale + 4 ≤ intMax
  sum : (var1.weight - var2.weight + 1) * 4 + rscale + 4 ≤ intMax

variable {arith} {var1 var2 : NumericVar} {rscale : Int}

theorem DivRange.divNdigits (h : DivRange var1 var2 rscale) (round : Bool) :
    ∃ n : Nat, divNdigits arith (var1.weight - var2.weight) rscale round = .ok n ∧
      (n : Int) ≤ 536870913 ∧
      4 * (var1.weight - var2.weight + 1 - n) ≤ -rscale - (if round then 4 else 0) := by
  obtain ⟨-, -, hweight, hscale, hsum⟩ := h
  unfold intMax at hscale hsum
  have hdiv : (rscale + 4 - 1).tdiv 4 = (rscale + 3) / 4 := by
    rw [Int.tdiv_eq_ediv_of_nonneg (by omega)]
    congr 1
    omega
  unfold Numeric.divNdigits decDigits
  rw [arith.int32_bind (by omega), arith.int32_bind (by omega), arith.int32_bind (by omega), hdiv,
    arith.int32_bind (by omega)]
  obtain ⟨n, hn⟩ : ∃ n : Nat, (n : Int) =
      max (var1.weight - var2.weight + 1 + (rscale + 3) / 4) 1 :=
    ⟨_, Int.toNat_of_nonneg (by omega)⟩
  rw [← hn]
  cases round with
  | false => exact ⟨n, rfl, by omega, by simp only [false_eq_true, if_false]; omega⟩
  | true =>
    refine ⟨n + 1, ?_, by push_cast; omega, by simp only [if_true]; push_cast; omega⟩
    rw [if_pos rfl, arith.int32_of (by omega) (by omega)]
    rfl

/-- The working dividend: the digits of the dividend, with zeroes after them. -/
def paddedDividend (var1 var2 : NumericVar) (n : Nat) : List Int :=
  var1.digits ++ List.replicate (max ((n : Int) + var2.digits.length) var1.digits.length -
    var1.digits.length).toNat 0

/-- The digits of the quotient with its weight and sign. -/
def quotientVar (var1 var2 : NumericVar) (rscale : Int) (digits : List Int) : NumericVar where
  digits := digits
  weight := var1.weight - var2.weight
  sign := productSign var1.sign var2.sign
  dscale := rscale

/-- Without the checks that cannot fail. -/
theorem divVar_eq (hne1 : var1.digits ≠ []) (hne2 : ¬ (var2.digits = [] ∨ digitAt var2.digits 0 = 0))
    (hrange : DivRange var1 var2 rscale) {round : Bool} (hnle : (n : Int) ≤ 536870913)
    (hn : divNdigits arith (var1.weight - var2.weight) rscale round = .ok n) :
    divVar arith var1 var2 rscale round =
      (quotientDigits arith var2.digits (paddedDividend var1 var2 n) n).map fun digits =>
        stripVar (if round then roundVar (quotientVar var1 var2 rscale digits) rscale
          else truncVar (quotientVar var1 var2 rscale digits) rscale) := by
  obtain ⟨hlen1, hlen2, hweight, hscale, hsum⟩ := hrange
  unfold intMax at hscale hsum
  unfold divVar
  rw [if_neg hne2, if_neg hne1, arith.int32_bind (by omega), hn, ok_bind,
    arith.int32_bind (by omega)]
  simp only
  rw [arith.int32_bind (by omega), arith.int32_bind (by omega)]
  change (quotientDigits arith var2.digits (paddedDividend var1 var2 n) n >>= fun _ => _) = _
  cases quotientDigits arith var2.digits (paddedDividend var1 var2 n) n with
  | error e => rfl
  | ok digits =>
    unfold decDigits
    rw [ok_bind, arith.int32_bind (by omega), arith.int32_bind (by omega),
      arith.int32_bind (by omega)]
    rfl

/-- The zeroes after the dividend do not change it. -/
theorem paddedDividend_spec (h1 : var1.Valid) (n : Nat) :
    Digits nbase (paddedDividend var1 var2 n) ∧
      scaled nbase (paddedDividend var1 var2 n) var1.weight = var1.abs ∧
      var2.digits.length + n ≤ (paddedDividend var1 var2 n).length := by
  have hzero : ∀ k, ∀ d ∈ List.replicate k (0 : Int), d = 0 := fun _ _ hd => eq_of_mem_replicate hd
  refine ⟨Digits.append_iff.mpr ⟨h1.digits, ?_⟩, ?_, ?_⟩
  · intro d hd
    rw [hzero _ d hd]
    exact ⟨le_refl 0, nbase_pos⟩
  · rw [paddedDividend, scaled_append nbase_ne_zero, scaled_of_forall_zero (hzero _), add_zero,
      NumericVar.abs]
  · rw [paddedDividend, length_append, length_replicate]
    omega

section

variable (h1 : var1.Valid) (h2 : var2.Valid)
include h1 h2

/-- The quotient, rounded or truncated at the scale. -/
theorem divVar_spec (hfirst : 0 < digitAt var2.digits 0)
    (hrange : var1.digits ≠ [] → DivRange var1 var2 rscale) (round : Bool) :
    ∃ result, divVar arith var1 var2 rscale round = .ok result ∧ result.Valid ∧
      Stripped result.digits ∧ result.dscale = rscale ∧
      result.value = (productSign var1.sign var2.sign).factor *
        (if round then roundTo (unit rscale) (var1.abs / var2.abs)
        else floorTo (unit rscale) (var1.abs / var2.abs)) := by
  have hne : var2.digits ≠ [] := by
    intro hnil
    rw [hnil] at hfirst
    cases hfirst
  have hne2 := not_or.mpr ⟨hne, hfirst.ne'⟩
  by_cases hnil : var1.digits = []
  · have hzero : var1.abs = 0 := by rw [NumericVar.abs, hnil, scaled_nil]
    unfold divVar
    rw [if_neg hne2, if_pos hnil]
    refine ⟨_, rfl, ⟨Digits.nil, noConfusion, fun _ => rfl⟩, stripped_nil, rfl, ?_⟩
    rw [hzero, zero_div, roundTo_zero, floorTo_zero, ite_self, mul_zero]
    exact (congrArg _ scaled_nil).trans (mul_zero _)
  have hrange := hrange hnil
  obtain ⟨n, hn, hnle, hplace⟩ := @DivRange.divNdigits arith _ _ _ hrange round
  obtain ⟨hpdig, hpabs, hplen⟩ := @paddedDividend_spec var1 var2 h1 n
  obtain ⟨qs, hrun, hqs, hqlen, hvalue⟩ :=
    quotientDigits_spec arith h2.digits hne hfirst hpdig hplen
  have habs : (quotientVar var1 var2 rscale qs).abs =
      floorTo ((nbase : Rat) ^ (var1.weight - var2.weight + 1 - n)) (var1.abs / var2.abs) := by
    rw [← hpabs]
    exact scaled_quotient (value_pos_of_first h2.digits hfirst) hplen hqlen hvalue
  rw [divVar_eq hnil hne2 hrange hnle hn, hrun]
  refine ⟨_, rfl, ?_⟩
  have hsign : (quotientVar var1 var2 rscale qs).sign ≠ .nan := productSign_ne_nan _ _
  cases round with
  | false =>
    obtain ⟨hvalid, hround⟩ := @stripVar_truncVar (quotientVar var1 var2 rscale qs) hqs hsign rscale
    refine ⟨hvalid, ?_, ?_, ?_⟩
    · rw [digits_stripVar]
      exact stripDigits_stripped _
    · simp [dscale_stripVar]
    simp only [false_eq_true, if_false] at hplace ⊢
    rw [hround, habs, floorTo_unit_floorTo (by omega)]
    rfl
  | true =>
    obtain ⟨hvalid, hround⟩ := @stripVar_roundVar (quotientVar var1 var2 rscale qs) hqs hsign rscale
    refine ⟨hvalid, ?_, ?_, ?_⟩
    · rw [digits_stripVar]
      exact stripDigits_stripped _
    · simp [dscale_stripVar]
    simp only [if_true] at hplace ⊢
    rw [hround, habs, roundTo_unit_floorTo (by omega)]
    rfl

/-- The sign of the quotient, and that of the values. -/
theorem quotient_cases :
    (productSign var1.sign var2.sign).factor = 1 ∧ var1.value / var2.value = var1.abs / var2.abs ∨
      (productSign var1.sign var2.sign).factor = -1 ∧
        var1.value / var2.value = -(var1.abs / var2.abs) := by
  rw [factor_productSign h1 h2]
  unfold NumericVar.value
  rcases h1.sign_cases with hs1 | ⟨hs1, -⟩ <;> rcases h2.sign_cases with hs2 | ⟨hs2, -⟩ <;>
    rw [hs1, hs2]
  · exact .inl ⟨by norm_num [factor], by simp [factor]⟩
  · exact .inr ⟨by norm_num [factor], by simp [factor, div_neg]⟩
  · exact .inr ⟨by norm_num [factor], by simp [factor, neg_div]⟩
  · exact .inl ⟨by norm_num [factor], by simp [factor]⟩

theorem truncZero_quotient (u : Rat) :
    (productSign var1.sign var2.sign).factor * floorTo u (var1.abs / var2.abs) =
      truncZero u (var1.value / var2.value) := by
  have hnonneg : 0 ≤ var1.abs / var2.abs := div_nonneg (abs_nonneg h1.digits) (abs_nonneg h2.digits)
  rcases quotient_cases h1 h2 with ⟨hs, hq⟩ | ⟨hs, hq⟩
  · rw [hs, hq, one_mul, truncZero_of_nonneg hnonneg]
  · rw [hs, hq, neg_one_mul, truncZero_neg hnonneg]

theorem roundAway_quotient (u : Rat) :
    (productSign var1.sign var2.sign).factor * roundTo u (var1.abs / var2.abs) =
      roundAway u (var1.value / var2.value) := by
  have hnonneg : 0 ≤ var1.abs / var2.abs := div_nonneg (abs_nonneg h1.digits) (abs_nonneg h2.digits)
  rcases quotient_cases h1 h2 with ⟨hs, hq⟩ | ⟨hs, hq⟩
  · rw [hs, hq, one_mul, roundAway_of_nonneg hnonneg]
  · rw [hs, hq, neg_one_mul, roundAway_neg hnonneg]

end

/-- The corrected estimate against the quotient digit. -/
theorem Window.corrected_ediv {v u : List Int} (h : Window v u) :
    ∃ qhat, adjustQhat arith (digitAt v 0) (digitAt v 1) (digitAt u 0 * nbase + digitAt u 1)
        (digitAt u 2) (firstEstimate v u).toNat = .ok qhat ∧
      value nbase (u.take (v.length + 1)) / value nbase v ≤ qhat ∧
      qhat ≤ value nbase (u.take (v.length + 1)) / value nbase v + 1 := by
  obtain ⟨qhat, hrun, -, -, hover, hunder⟩ := h.corrected arith
  have hpos := value_pos_of_first h.divisor h.first
  refine ⟨qhat, hrun, ?_, ?_⟩
  · have := (Int.ediv_lt_iff_lt_mul hpos).mpr hover
    omega
  · have := (Int.le_ediv_iff_mul_le hpos).mpr hunder
    omega

/-- Division is exact.  In every step the corrected estimate is at most one too large, and what
is left after the subtraction is the remainder. -/
theorem divVar_exact (arith : Arith) (h1 : var1.Valid) (h2 : var2.Valid)
    (hnorm : digitAt var2.digits 0 ≠ 0)
    (hw1 : -32768 ≤ var1.weight ∧ var1.weight ≤ 32767)
    (hw2 : -32768 ≤ var2.weight ∧ var2.weight ≤ 32767)
    (hlen : var1.digits.length ≤ 536870911 ∧ var2.digits.length ≤ 536870911)
    (hscale : 0 ≤ rscale ∧ rscale ≤ 2147221499) :
    (∀ round, ∃ result, divVar arith var1 var2 rscale round = .ok result ∧ result.Valid ∧
      Stripped result.digits ∧ result.dscale = rscale ∧
      result.value =
        if round then Rounding.roundAway (unit rscale) (var1.value / var2.value)
        else Rounding.truncZero (unit rscale) (var1.value / var2.value)) ∧
    ∀ v u, Window v u →
      (∃ qhat, adjustQhat arith (digitAt v 0) (digitAt v 1) (digitAt u 0 * nbase + digitAt u 1)
          (digitAt u 2) (firstEstimate v u).toNat = .ok qhat ∧
        Radix.value nbase (u.take (v.length + 1)) / Radix.value nbase v ≤ qhat ∧
        qhat ≤ Radix.value nbase (u.take (v.length + 1)) / Radix.value nbase v + 1) ∧
      ∃ q u', divDigit arith (0 :: v) u = .ok (q, u') ∧ Divided v u q u' := by
  refine ⟨fun round => ?_, fun v u h => ⟨h.corrected_ediv, divDigit_spec arith h⟩⟩
  have hfirst : 0 < digitAt var2.digits 0 :=
    lt_of_le_of_ne (h2.digits.digitAt nbase_pos 0).1 hnorm.symm
  have hrange : DivRange var1 var2 rscale :=
    ⟨by omega, by omega, by omega, by unfold intMax; omega, by unfold intMax; omega⟩
  obtain ⟨result, hrun, hvalid, hstripped, hdscale, hvalue⟩ :=
    @divVar_spec arith _ _ _ h1 h2 hfirst (fun _ => hrange) round
  refine ⟨result, hrun, hvalid, hstripped, hdscale, ?_⟩
  rw [hvalue, mul_ite, truncZero_quotient h1 h2, roundAway_quotient h1 h2]

/-- Seventy million and one, with two digits. -/
def twoDigitDivisor : NumericVar where
  digits := [7000, 1]
  weight := 1
  sign := .pos
  dscale := 0

/-- A quotient with a divisor of two digits. -/
theorem divVar_exact_two_digits :
    ∃ result, divVar checked constOne twoDigitDivisor 20 true = .ok result ∧
      result.value = Rounding.roundAway (unit 20) (constOne.value / twoDigitDivisor.value) := by
  obtain ⟨result, hrun, -, -, -, hvalue⟩ := (@divVar_exact constOne twoDigitDivisor 20 checked
    (valid_of_pos (by decide) rfl) (valid_of_pos (by decide) rfl)
    (by decide) (by decide) (by decide) (by decide) (by decide)).1 true
  exact ⟨result, hrun, hvalue⟩

/-- The number of quotient digits overflows for the largest scale. -/
theorem divVar_scale_overflows :
    divVar checked constOne constOne 2147483647 false = .error .intOverflow ∧
      divVar checked constOne constOne 2147483647 true = .error .intOverflow := by
  exact ⟨by decide +kernel, by decide +kernel⟩

end Quotient

end PrlPg.Numeric
