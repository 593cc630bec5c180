/-
Conversion of `numeric` variables from and to `int8`.

`numericvar_to_int8` accumulates the digits in 64 bits that wrap around, and looks after each
step whether dividing gives back the value before.  If it does not, the accumulator has
overflowed; only the smallest `int64` is let through for a negative number.  The accumulator
however is the smallest `int64` for every odd multiple of `2^63`, and such a sum can come up in
the last step (`int8Loop_eq`).  So some numbers that are too large are taken for the smallest
`int64`, and no others (`int8_exact_iff`).
-/
import PrlPg.Proofs.NumericMod

namespace PrlPg.Numeric

open List Radix Digits Rounding Sign

/-! ### The loop -/

variable {digits : List Int} {n : Nat} {x : Int}

section Loop

variable {neg : Bool}

theorem toInt64_of_range (hlo : -9223372036854775808 ≤ x) (hhi : x < 9223372036854775808) :
    toInt64 x = x := IntArith.bmod_of_range (n := 9223372036854775808) hlo hhi

theorem toInt64_range (x : Int) :
    -9223372036854775808 ≤ toInt64 x ∧ toInt64 x < 9223372036854775808 ∧
      ∃ q, x = toInt64 x + 18446744073709551616 * q := by
  have hlo := Int.le_bmod (x := x) (m := 18446744073709551616) (by decide)
  have hhi := Int.bmod_lt (x := x) (m := 18446744073709551616) (by decide)
  have hdiv := Int.bmod_add_bdiv x 18446744073709551616
  unfold toInt64
  exact ⟨by omega, by omega, _, hdiv.symm⟩

theorem toInt64_step (oldval d : Int) :
    toInt64 (toInt64 (oldval * nbase) + d) = toInt64 (oldval * nbase + d) := Int.bmod_add_bmod

section

variable (hdig : Digits nbase digits)
include hdig

theorem headD_range : 0 ≤ digits.headD 0 ∧ digits.headD 0 < 10000 := by
  cases digits with
  | nil => exact ⟨le_refl 0, by decide⟩
  | cons d ds => exact (cons_iff.mp hdig).1

/-- Once the accumulator is negative, the next step is an overflow. -/
theorem int8Loop_of_min : int8Loop neg (n + 1) digits (-9223372036854775808) = none := by
  have hd := headD_range hdig
  have hstep : toInt64 (toInt64 (-9223372036854775808 * nbase) + digits.headD 0) =
      digits.headD 0 := by
    rw [show toInt64 (-9223372036854775808 * nbase) = 0 by decide, zero_add]
    exact toInt64_of_range (by omega) (by omega)
  have hdiv : (digits.headD 0).tdiv nbase = 0 := Int.tdiv_eq_zero_of_lt hd.1 hd.2
  rw [int8Loop]
  simp only [hstep]
  rw [hdiv, if_pos ⟨by decide, .inr (.inr (.inr (by decide)))⟩]

section

variable {oldval y : Int} (h0 : 0 ≤ oldval) (hy : y = oldval * nbase + digits.headD 0)
include h0 hy

/-- A step that does not overflow. -/
theorem int8Loop_of_lt (hlt : y < 9223372036854775808) :
    int8Loop neg (n + 1) digits oldval = int8Loop neg n digits.tail y := by
  have hd := headD_range hdig
  have hy0 : 0 ≤ y := by
    rw [hy]
    exact add_nonneg (mul_nonneg h0 nbase_pos.le) hd.1
  have hdiv : y.tdiv nbase = oldval := by
    rw [Int.tdiv_eq_ediv_of_nonneg hy0]
    unfold nbase at hy ⊢
    omega
  rw [int8Loop]
  simp only [toInt64_step, ← hy, toInt64_of_range (show -9223372036854775808 ≤ y by omega) hlt]
  rw [hdiv, if_neg (fun h => h.1 rfl)]

/-- A step that overflows: the accumulator goes on only as the smallest `int64`. -/
theorem int8Loop_of_ge (hge : 9223372036854775808 ≤ y) : int8Loop neg (n + 1) digits oldval =
      if neg = true ∧ y % 18446744073709551616 = 9223372036854775808 then
        int8Loop neg n digits.tail (-9223372036854775808)
      else none := by
  have hd := headD_range hdig
  obtain ⟨hlo, hhi, q, hq⟩ := toInt64_range y
  have hdiv : (toInt64 y).tdiv nbase ≠ oldval := by
    intro heq
    have hmod := Int.mul_tdiv_add_tmod (toInt64 y) nbase
    have hmodlt := Int.tmod_lt_of_pos (toInt64 y) nbase_pos
    have hmodgt := Int.lt_tmod_of_pos (toInt64 y) nbase_pos
    rw [heq] at hmod
    unfold nbase at hy hmod hmodlt hmodgt
    -- dividing gave the value before, so the accumulator is within one digit of the sum
    omega
  have hmin : toInt64 y = -9223372036854775808 ↔
      y % 18446744073709551616 = 9223372036854775808 := by omega
  have hneg : toInt64 (-toInt64 y) = toInt64 y ∧ toInt64 y ≠ 0 ↔
      toInt64 y = -9223372036854775808 := by
    constructor
    · rintro ⟨heq, hne⟩
      obtain ⟨-, -, q', hq'⟩ := toInt64_range (-toInt64 y)
      omega
    intro heq
    rw [heq]
    exact ⟨by decide, by decide⟩
  rw [int8Loop]
  simp only [toInt64_step, ← hy]
  by_cases hcond : neg = true ∧ y % 18446744073709551616 = 9223372036854775808
  · have hval := hmin.mpr hcond.2
    rw [if_pos hcond, hval, if_neg]
    rintro ⟨-, hn | hn | hn | hn⟩
    · rw [hcond.1] at hn
      cases hn
    · exact hn (by decide)
    · cases hn
    · omega
  rw [if_neg hcond, if_pos]
  refine ⟨hdiv, ?_⟩
  by_contra hnot
  push Not at hnot
  exact hcond ⟨by simpa using hnot.1, hmin.mp (hneg.mp ⟨hnot.2.1, hnot.2.2.1⟩)⟩

end

end

/-- The sum of the digits, with the first one added to the accumulator. -/
theorem step_value (hlen : digits.length ≤ n + 1) (oldval : Int) :
    oldval * nbase ^ (n + 1) + value nbase digits * nbase ^ (n + 1 - digits.length) =
      (oldval * nbase + digits.headD 0) * nbase ^ n +
        value nbase digits.tail * nbase ^ (n - digits.tail.length) := by
  cases digits with
  | nil =>
    rw [headD_nil, tail_nil, value_nil]
    ring
  | cons d ds =>
    have hpow : nbase ^ n = nbase ^ ds.length * nbase ^ (n - ds.length) := by
      rw [← pow_add]
      congr 1
      rw [length_cons] at hlen
      omega
    rw [headD_cons, tail_cons, value_cons, length_cons, Nat.add_sub_add_right, pow_succ, hpow]
    ring

/-- What the loop returns, for the exact sum `x` of the digits. -/
theorem int8Loop_eq (n : Nat) : ∀ {digits : List Int} {oldval : Int}, Digits nbase digits →
    digits.length ≤ n → 0 ≤ oldval → oldval < 9223372036854775808 → ∀ x,
      x = oldval * nbase ^ n + value nbase digits * nbase ^ (n - digits.length) →
      int8Loop neg n digits oldval =
        if x < 9223372036854775808 then some x
        else if neg = true ∧ x % 18446744073709551616 = 9223372036854775808 ∧
          x < nbase * 9223372036854775808 then some (-9223372036854775808)
        else none := by
  induction n with
  | zero =>
    intro digits oldval _ hlen h0 hlt x hx
    obtain rfl := length_eq_zero_iff.mp (Nat.le_zero.mp hlen)
    rw [pow_zero, mul_one, value_nil, zero_mul, add_zero] at hx
    rw [hx, if_pos hlt, int8Loop]
  | succ n ih =>
    intro digits oldval hdig hlen h0 hlt x hx
    have hd := headD_range hdig
    have htail : Digits nbase digits.tail := fun d hmem => hdig d (mem_of_mem_tail hmem)
    have htaillen : digits.tail.length ≤ n := by
      rw [length_tail]
      omega
    have hrest : 0 ≤ value nbase digits.tail * nbase ^ (n - digits.tail.length) :=
      mul_nonneg (htail.value_nonneg nbase_pos.le) (pow_nonneg nbase_pos.le _)
    obtain ⟨y, hy⟩ : ∃ y, y = oldval * nbase + digits.headD 0 := ⟨_, rfl⟩
    have hxy : x = y * nbase ^ n + value nbase digits.tail * nbase ^ (n - digits.tail.length) := by
      rw [hx, hy]
      exact step_value hlen oldval
    by_cases hylt : y < 9223372036854775808
    · rw [int8Loop_of_lt hdig h0 hy hylt]
      refine ih htail htaillen ?_ hylt x hxy
      rw [hy]
      exact add_nonneg (mul_nonneg h0 nbase_pos.le) hd.1
    have hyge := not_lt.mp hylt
    rw [int8Loop_of_ge hdig h0 hy hyge]
    cases n with
    | zero =>
      have hnil := length_eq_zero_iff.mp (Nat.le_zero.mp htaillen)
      rw [hnil, pow_zero, mul_one, value_nil, zero_mul, add_zero] at hxy
      have hbound : x < nbase * 9223372036854775808 := by
        unfold nbase at hy ⊢
        omega
      rw [hxy, if_neg hylt, ← hxy]
      simp only [hbound, and_true]
      rfl
    | succ n =>
      -- the sum is too large for the overflow to have been in the last step
      have hpow : nbase ≤ nbase ^ (n + 1) := le_self_pow₀ (by decide) (by omega)
      have hlarge : nbase * 9223372036854775808 ≤ x := by
        have := mul_le_mul hyge hpow nbase_pos.le (by omega)
        linarith
      have hnbase : nbase = 10000 := rfl
      rw [int8Loop_of_min htail, ite_self, if_neg (by omega), if_neg (fun h => by omega)]

end Loop

/-! ### From a variable -/

section FromVar

variable {var : NumericVar}

theorem sign_stripVar_roundVar (h : Digits nbase var.digits)
    (hne : (stripVar (roundVar var 0)).digits ≠ []) :
    (stripVar (roundVar var 0)).sign = var.sign := by
  rw [digits_stripVar] at hne
  rw [sign_stripVar, if_neg hne]
  refine (sign_roundVar var 0).resolve_right fun hzero => hne ?_
  exact stripDigits_eq_nil.mpr (((roundVar_spec h 0).2.scaled_eq_zero nbase_pos).mp hzero.1)

/-- The digits of a stripped integer, with the zeroes after them. -/
theorem abs_of_integer {d : Int} {ds : List Int} (hd : var.digits = d :: ds)
    (hlen : (var.digits.length : Int) ≤ var.weight + 1) :
    ds.length ≤ var.weight.toNat ∧ var.abs = (d * nbase ^ var.weight.toNat +
        value nbase ds * nbase ^ (var.weight.toNat - ds.length) : Int) := by
  rw [hd, length_cons] at hlen
  obtain ⟨w, hw⟩ : ∃ w : Nat, var.weight = w := ⟨_, (Int.toNat_of_nonneg (by omega)).symm⟩
  have hle : ds.length ≤ w := by omega
  rw [NumericVar.abs, hd, hw, Int.toNat_natCast, scaled, value_cons, length_cons]
  refine ⟨hle, ?_⟩
  have hexp : (w : Int) + 1 - (ds.length + 1 : Nat) = (w - ds.length : Nat) := by omega
  have hpow : nbase ^ w = nbase ^ ds.length * nbase ^ (w - ds.length) := by
    rw [← pow_add]
    congr 1
    omega
  rw [hexp, zpow_natCast, hpow]
  push_cast
  ring

/-- The result for the rounded absolute value. -/
def int8Result (neg : Bool) (x : Int) : Option Int :=
  if x < 9223372036854775808 then some (if neg then -x else x)
  else if neg = true ∧ x % 18446744073709551616 = 9223372036854775808 ∧
    x < nbase * 9223372036854775808 then some (-9223372036854775808)
  else none

/-- The sign is put in front at the end. -/
theorem map_int8Result (neg : Bool) (h0 : 0 ≤ x) : (if x < 9223372036854775808 then some x
      else if neg = true ∧ x % 18446744073709551616 = 9223372036854775808 ∧
        x < nbase * 9223372036854775808 then some (-9223372036854775808)
      else none).map (fun val => if neg = true then toInt64 (-val) else val) = int8Result neg x := by
  unfold int8Result
  by_cases hlt : x < 9223372036854775808
  · rw [if_pos hlt, if_pos hlt, Option.map_some, toInt64_of_range (by omega) (by omega)]
  rw [if_neg hlt, if_neg hlt]
  by_cases hcond : neg = true ∧ x % 18446744073709551616 = 9223372036854775808 ∧
      x < nbase * 9223372036854775808
  · rw [if_pos hcond, Option.map_some, if_pos hcond.1]
    rfl
  · rw [if_neg hcond, Option.map_none]

theorem numericvarToInt8_eq (h : var.Valid) : ∃ x : Int, 0 ≤ x ∧ (x : Rat) = roundTo 1 var.abs ∧
      numericvarToInt8 var = int8Result (var.sign = .neg) x := by
  obtain ⟨hvalid, hvalue⟩ := stripVar_roundVar h.digits h.notNan 0
  have habs : (stripVar (roundVar var 0)).abs = roundTo 1 var.abs := by
    rw [abs_stripVar, (roundVar_spec h.digits _).1, unit_zero]
  have hstripped : Stripped (stripVar (roundVar var 0)).digits := by
    rw [digits_stripVar]
    exact stripDigits_stripped _
  have hdscale : (stripVar (roundVar var 0)).dscale = 0 := by rw [dscale_stripVar, dscale_roundVar]
  have hscale : (stripVar (roundVar var 0)).WithinScale := by
    refine ⟨⌊var.abs / 1 + 1 / 2⌋, ?_⟩
    rw [habs, hdscale, unit_zero, roundTo]
  have hsign := sign_stripVar_roundVar h.digits
  unfold numericvarToInt8
  generalize stripVar (roundVar var 0) = rounded at *
  cases hd : rounded.digits with
  | nil =>
    refine ⟨0, le_refl 0, ?_, ?_⟩
    · rw [← habs, NumericVar.abs, hd, scaled_nil, Int.cast_zero]
    · simp only [hd, int8Result]
      simp
  | cons d ds =>
    have hne : rounded.digits ≠ [] := by
      rw [hd]
      exact cons_ne_nil _ _
    have hlen := hscale.length_le hvalid.digits hstripped hne
    obtain ⟨hdslen, hx⟩ := abs_of_integer hd (by omega)
    have hdig := hvalid.digits
    rw [hd, cons_iff] at hdig
    have hfirst : d < 10000 := hdig.1.2
    have hx0 : 0 ≤ d * nbase ^ rounded.weight.toNat +
        value nbase ds * nbase ^ (rounded.weight.toNat - ds.length) :=
      add_nonneg (mul_nonneg hdig.1.1 (pow_nonneg nbase_pos.le _))
        (mul_nonneg (hdig.2.value_nonneg nbase_pos.le) (pow_nonneg nbase_pos.le _))
    refine ⟨_, hx0, hx ▸ habs, ?_⟩
    simp only [hd]
    rw [int8Loop_eq _ hdig.2 hdslen hdig.1.1 (by omega) _ rfl, hsign hne]
    exact map_int8Result _ hx0

/-- The result that is to come out for the rounded value `m`. -/
def int8Exact (m : Int) : Option Int :=
  if -9223372036854775808 ≤ m ∧ m ≤ 9223372036854775807 then some m else none

/-- The odd multiples of `2^63` below the smallest `int64` that the escape lets through. -/
def SlipsThrough (m : Int) : Prop :=
  ∃ k : Int, 1 ≤ k ∧ k ≤ 4999 ∧ m = -((2 * k + 1) * 9223372036854775808)

theorem int8Result_eq_iff (neg : Bool) (h0 : 0 ≤ x) :
    int8Result neg x = int8Exact (if neg then -x else x) ↔
      ¬ SlipsThrough (if neg then -x else x) := by
  have hnbase : nbase = 10000 := rfl
  unfold int8Result int8Exact SlipsThrough
  cases neg with
  | false =>
    simp only [Bool.false_eq_true, if_false, false_and]
    refine iff_of_true ?_ fun ⟨k, _, _, hk⟩ => by omega
    split
    next hlt => rw [if_pos ⟨by omega, by omega⟩]
    next hlt => rw [if_neg (fun h => by omega)]
  | true =>
    simp only [if_true, true_and]
    by_cases hle : x ≤ 9223372036854775808
    · have hin : -9223372036854775808 ≤ -x ∧ -x ≤ 9223372036854775807 := ⟨by omega, by omega⟩
      refine iff_of_true ?_ fun ⟨k, _, _, hk⟩ => by omega
      rw [if_pos hin]
      by_cases hlt : x < 9223372036854775808
      · rw [if_pos hlt]
      · obtain rfl : x = 9223372036854775808 := by omega
        rfl
    have hlarge : ¬ x < 9223372036854775808 := by omega
    have hout : ¬ (-9223372036854775808 ≤ -x ∧ -x ≤ 9223372036854775807) := fun h => by omega
    rw [if_neg hlarge, if_neg hout]
    constructor
    · rintro hnone ⟨k, hk1, hk2, hk⟩
      rw [if_pos ⟨by omega, by omega⟩] at hnone
      cases hnone
    · intro hnot
      refine if_neg fun hcond => hnot ⟨x / 18446744073709551616, ?_, ?_, ?_⟩ <;> omega

/-- Conversion is right just if the rounded value is not one of those that slip through. -/
theorem numericvarToInt8_exact_iff (h : var.Valid) {m : Int}
    (hm : (m : Rat) = roundAway 1 var.value) :
    numericvarToInt8 var = int8Exact m ↔ ¬ SlipsThrough m := by
  obtain ⟨x, h0, hx, hrun⟩ := numericvarToInt8_eq h
  have habs := abs_nonneg h.digits
  have hmx : m = if decide (var.sign = .neg) then -x else x := by
    rcases h.sign_cases with hs | ⟨hs, -⟩
    · rw [NumericVar.value, hs, factor, one_mul, roundAway_of_nonneg habs, ← hx] at hm
      rw [hs]
      exact_mod_cast hm
    rw [NumericVar.value, hs, factor, neg_one_mul, roundAway_neg habs, ← hx] at hm
    rw [hs]
    exact_mod_cast hm
  rw [hrun, hmx]
  exact int8Result_eq_iff _ h0

end FromVar

/-! ### From an integer -/

section FromInt

/-- The digits of an unsigned number. -/
theorem int8Digits_spec (fuel : Nat) : ∀ {uval : Nat} {digits : List Int}, uval < 10000 ^ fuel →
    Digits nbase digits →
    Digits nbase (int8Digits fuel uval digits) ∧ value nbase (int8Digits fuel uval digits) =
        uval * nbase ^ digits.length + value nbase digits := by
  induction fuel with
  | zero =>
    intro uval digits hlt hdig
    rw [pow_zero, Nat.lt_one_iff] at hlt
    rw [hlt, Nat.cast_zero, zero_mul, zero_add]
    exact ⟨hdig, rfl⟩
  | succ fuel ih =>
    intro uval digits hlt hdig
    have hlast : 0 ≤ ((uval - uval / 10000 * 10000 : Nat) : Int) ∧
        ((uval - uval / 10000 * 10000 : Nat) : Int) < nbase := by
      unfold nbase
      omega
    have hdig' : Digits nbase (((uval - uval / 10000 * 10000 : Nat) : Int) :: digits) :=
      cons_iff.mpr ⟨hlast, hdig⟩
    have hsplit : (uval : Int) = (uval / 10000 : Nat) * nbase +
        ((uval - uval / 10000 * 10000 : Nat) : Int) := by
      unfold nbase
      omega
    unfold int8Digits
    simp only
    split
    · rename_i hzero
      refine ⟨hdig', ?_⟩
      rw [value_cons, hzero, Nat.sub_zero]
    have hdivlt : uval / 10000 < 10000 ^ fuel := by omega
    obtain ⟨hd, hvalue⟩ := ih hdivlt hdig'
    refine ⟨hd, ?_⟩
    rw [hvalue, value_cons, length_cons]
    linear_combination (-(nbase ^ digits.length)) * hsplit

section

variable {val : Int} (hlo : -9223372036854775808 ≤ val) (hhi : val ≤ 9223372036854775807)
include hlo hhi

theorem int8ToNumericvar_spec :
    (int8ToNumericvar val).Valid ∧ (int8ToNumericvar val).value = val := by
  by_cases hzero : val = 0
  · rw [hzero]
    refine ⟨NumericVar.valid_of_pos nil rfl, ?_⟩
    rw [NumericVar.value, NumericVar.abs, show (int8ToNumericvar 0).digits = [] from rfl, scaled_nil,
      mul_zero, Int.cast_zero]
  obtain ⟨hdig, hvalue⟩ := @int8Digits_spec 5 (if val < 0 then (-val).toNat else val.toNat) []
    (by split <;> omega) nil
  rw [length_nil, pow_zero, mul_one, value_nil, add_zero] at hvalue
  have habs : (int8ToNumericvar val).abs =
      ((if val < 0 then (-val).toNat else val.toNat : Nat) : Int) := by
    rw [← hvalue]
    simp only [int8ToNumericvar, if_neg hzero, NumericVar.abs, scaled]
    rw [sub_add_cancel, sub_self, zpow_zero, mul_one]
  have hdigits : (int8ToNumericvar val).digits =
      int8Digits 5 (if val < 0 then (-val).toNat else val.toNat) [] := by
    simp only [int8ToNumericvar, if_neg hzero]
  have hsign : (int8ToNumericvar val).sign = if val < 0 then .neg else .pos := by
    simp only [int8ToNumericvar, if_neg hzero]
  refine ⟨⟨hdigits ▸ hdig, ?_, ?_⟩, ?_⟩
  · rw [hsign]
    split <;> exact noConfusion
  · intro h0
    rw [habs] at h0
    have : ((if val < 0 then (-val).toNat else val.toNat : Nat) : Int) = 0 := by exact_mod_cast h0
    split at this <;> omega
  rw [NumericVar.value, habs, hsign]
  split_ifs with hneg
  · rw [Int.toNat_of_nonneg (by omega), factor]
    push_cast
    ring
  · rw [Int.toNat_of_nonneg (by omega), factor, one_mul]

theorem numericvarToInt8_int8ToNumericvar : numericvarToInt8 (int8ToNumericvar val) = some val := by
  obtain ⟨hvalid, hvalue⟩ := int8ToNumericvar_spec hlo hhi
  have hm : (val : Rat) = roundAway 1 (int8ToNumericvar val).value := by
    rw [hvalue, roundAway_intCast]
  have hexact := (numericvarToInt8_exact_iff hvalid hm).mpr fun ⟨k, _, _, hk⟩ => by omega
  rw [hexact, int8Exact, if_pos ⟨hlo, hhi⟩]

end

/-- Conversion to `int8` returns the rounded value if it is in the range, and otherwise detects
the overflow, just if the rounded value is not one of those that slip through.  An integer that
is converted forth and back is the same. -/
theorem int8_exact_iff {var : NumericVar} (h : var.Valid) :
    (∃ m : Int, (m : Rat) = Rounding.roundAway 1 var.value ∧
      (numericvarToInt8 var = int8Exact m ↔ ¬ SlipsThrough m)) ∧
    ∀ val : Int, -9223372036854775808 ≤ val → val ≤ 9223372036854775807 →
      numericvarToInt8 (int8ToNumericvar val) = some val := by
  refine ⟨?_, fun val hlo hhi => numericvarToInt8_int8ToNumericvar hlo hhi⟩
  obtain ⟨m, hm⟩ := exists_roundAway_one var.value
  exact ⟨m, hm, numericvarToInt8_exact_iff h hm⟩

/-- Half of a unit above the largest `int64` is an overflow. -/
theorem int8_exact_half : numericvarToInt8 ⟨[922, 3372, 368, 5477, 5807, 5000], 4, .pos, 1⟩ = none ∧
      numericvarToInt8 (int8ToNumericvar (-9223372036854775808)) = some (-9223372036854775808) := by
  obtain ⟨⟨m, hm, hiff⟩, hback⟩ := @int8_exact_iff ⟨[922, 3372, 368, 5477, 5807, 5000], 4, .pos, 1⟩
    (NumericVar.valid_of_pos (by decide) rfl)
  have hvalue : m = 9223372036854775808 := by
    rw [roundAway_of_nonneg] at hm
    · norm_num [NumericVar.value, NumericVar.abs, factor, scaled, value, nbase, roundTo] at hm
      exact Int.cast_injective (α := Rat) (by rw [hm]; norm_num)
    · norm_num [NumericVar.value, NumericVar.abs, factor, scaled, value, nbase]
  refine ⟨?_, hback _ (by decide) (by decide)⟩
  rw [hiff.mpr (by rintro ⟨k, hk1, hk2, hk3⟩; omega), int8Exact, if_neg (by omega)]

/-- Minus three times `2^63` is taken for the smallest `int64`. -/
theorem numericvarToInt8_slips :
    numericvarToInt8 ⟨[2767, 116, 1105, 6432, 7424], 4, .neg, 0⟩ = some (-9223372036854775808) ∧
      (⟨[2767, 116, 1105, 6432, 7424], 4, .neg, 0⟩ : NumericVar).value = -27670116110564327424 := by
  refine ⟨by decide +kernel, ?_⟩
  norm_num [NumericVar.value, NumericVar.abs, factor, scaled, value, nbase]

end FromInt

end PrlPg.Numeric
