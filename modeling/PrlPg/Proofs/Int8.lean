/-
The 64-bit operators are exact, or report an error, except where the machine traps.

A sum wraps around at most once, so the signs tell.  A product is divided back: what a product
has lost by wrapping around is a multiple of `2 ^ 64`, and a division that gives the other
operand again leaves a remainder that is smaller than that (`quotient_eq_iff`).  What is left is
the one quotient that does not fit.  Three operators, and the test of a fourth, evaluate it.
-/
import PrlPg.Utils.Int8
import Mathlib.Tactic.Ring

namespace PrlPg.Int8

open BitVec (intMin ofInt ofInt_add ofInt_neg ofInt_toInt slt_iff_toInt_lt toInt_inj)

variable {a b : Int64} {z : Int}

/-! ### Ranges -/

theorem fits_toInt (a : Int64) : Fits a.toInt := ⟨a.le_toInt, a.toInt_lt⟩

theorem toInt_ofInt_eq (z : Int) : ∃ k : Int, (ofInt 64 z).toInt = z + 2 ^ 64 * k := by
  refine ⟨-((z + 2 ^ 63) / 2 ^ 64), ?_⟩
  rw [BitVec.toInt_ofInt, Int.bmod_def]
  split <;> omega

theorem toInt_ofInt_of_fits (h : Fits z) : (ofInt 64 z).toInt = z := by
  obtain ⟨k, hk⟩ := toInt_ofInt_eq z
  obtain ⟨hlo, hhi⟩ := fits_toInt (ofInt 64 z)
  obtain ⟨hlo', hhi'⟩ := h
  omega

theorem toInt_widen (c : Int32) : (widen c).toInt = c.toInt :=
  BitVec.toInt_signExtend_of_le (by decide)

theorem fitsInt32_iff : fitsInt32 a ↔ -2 ^ 31 ≤ a.toInt ∧ a.toInt < 2 ^ 31 := by
  rw [fitsInt32, ← toInt_inj, toInt_widen, BitVec.toInt_setWidth, BitVec.toInt_eq_toNat_bmod,
    Int.bmod_def, Int.bmod_def]
  split <;> split <;> omega

theorem fitsInt32_widen (c : Int32) : fitsInt32 (widen c) := by
  rw [fitsInt32_iff, toInt_widen]
  exact ⟨c.le_toInt, c.toInt_lt⟩

theorem fits_mul_of_fitsInt32 (ha : fitsInt32 a) (hb : fitsInt32 b) : Fits (a.toInt * b.toInt) := by
  rw [fitsInt32_iff] at ha hb
  have hle : a.toInt.natAbs * b.toInt.natAbs ≤ 2 ^ 31 * 2 ^ 31 :=
    Nat.mul_le_mul (by omega) (by omega)
  rw [← Int.natAbs_mul] at hle
  constructor <;> omega

theorem sameSign_iff : sameSign a b = true ↔ (a.toInt < 0 ↔ b.toInt < 0) := by
  rw [sameSign, beq_iff_eq, Bool.eq_iff_iff, slt_iff_toInt_lt, slt_iff_toInt_lt]
  rfl

/-- A result that is an error exactly if it does not fit. -/
theorem checked_eq_fit {flag : Prop} [Decidable flag] {result : Int64}
    (hresult : result = ofInt 64 z)
    (hflag : ∀ k : Int, Fits result.toInt → result.toInt = z + 2 ^ 64 * k → (flag ↔ ¬ Fits z)) :
    (if flag then .error .outOfRange else .ok result) = fit z := by
  obtain ⟨k, hk⟩ := toInt_ofInt_eq z
  rw [← hresult] at hk
  have hflag := hflag k (fits_toInt result) hk
  by_cases h : Fits z
  · rw [if_neg fun hf => hflag.mp hf h, fit, if_pos h, hresult]
  · rw [if_pos (hflag.mpr h), fit, if_neg h]

/-! ### Sums and differences -/

theorem int8um_eq (a : Int64) : int8um a = fit (-a.toInt) := by
  refine checked_eq_fit (by rw [ofInt_neg, ofInt_toInt]) fun k hr hk => ?_
  have ha := fits_toInt a
  rw [sameSign_iff, Ne, ← toInt_inj]
  change (¬ a.toInt = 0 ∧ _) ↔ _
  unfold Fits at *
  omega

theorem plus_eq (a b : Int64) : plus a b = fit (a.toInt + b.toInt) := by
  refine checked_eq_fit (by rw [ofInt_add, ofInt_toInt, ofInt_toInt]) fun k hr hk => ?_
  have ha := fits_toInt a
  have hb := fits_toInt b
  rw [sameSign_iff, sameSign_iff]
  unfold Fits at *
  omega

theorem minus_eq (a b : Int64) : minus a b = fit (a.toInt - b.toInt) := by
  refine checked_eq_fit ?_ fun k hr hk => ?_
  · rw [sub_eq_add_neg, Int.sub_eq_add_neg, ofInt_add, ofInt_neg, ofInt_toInt, ofInt_toInt]
  have ha := fits_toInt a
  have hb := fits_toInt b
  rw [sameSign_iff, sameSign_iff]
  unfold Fits at *
  omega

/-! ### Products -/

theorem mul_eq_ofInt (a b : Int64) : a * b = ofInt 64 (a.toInt * b.toInt) := by
  rw [BitVec.ofInt_mul, ofInt_toInt, ofInt_toInt]

theorem toInt_ne_zero (h : b ≠ 0) : b.toInt ≠ 0 := fun h0 => h (BitVec.eq_of_toInt_eq h0)

theorem toInt_sdiv (h : ¬ machineTraps a b) : (a.sdiv b).toInt = a.toInt.tdiv b.toInt :=
  BitVec.toInt_sdiv_of_ne_or_ne a b (not_and_or.mp (not_or.mp h).2)

/-- Dividing a product back gives the other operand exactly if the product fits. -/
theorem quotient_eq_iff (h : ¬ machineTraps (a * b) b) :
    (a * b).sdiv b = a ↔ Fits (a.toInt * b.toInt) := by
  have hb := toInt_ne_zero (not_or.mp h).1
  rw [← toInt_inj, toInt_sdiv h, mul_eq_ofInt]
  constructor
  swap
  · intro hfits
    rw [toInt_ofInt_of_fits hfits, Int.mul_tdiv_cancel _ hb]
  intro hq
  obtain ⟨k, hk⟩ := toInt_ofInt_eq (a.toInt * b.toInt)
  have hdiv := Int.tdiv_mul_add_tmod (ofInt 64 (a.toInt * b.toInt)).toInt b.toInt
  rw [hq, hk] at hdiv
  have hr := Int.natAbs_tmod (a.toInt * b.toInt + 2 ^ 64 * k) b.toInt
  have hlt := Nat.mod_lt (a.toInt * b.toInt + 2 ^ 64 * k).natAbs (Int.natAbs_pos.mpr hb)
  have hb' := fits_toInt b
  have hfits := fits_toInt (ofInt 64 (a.toInt * b.toInt))
  unfold Fits at *
  omega

theorem int8mul_eq (h : ¬ (a = intMin 64 ∧ b = -1)) : int8mul a b = fit (a.toInt * b.toInt) := by
  unfold int8mul
  dsimp only
  split
  swap
  · rename_i hfits
    rw [not_or, not_not, not_not] at hfits
    rw [fit, if_pos (fits_mul_of_fitsInt32 hfits.1 hfits.2), ← mul_eq_ofInt]
  split
  · rename_i hb
    have htrap : ¬ machineTraps (a * b) b := by
      rintro (h0 | ⟨hmin, rfl⟩)
      · exact hb h0
      refine h ⟨?_, rfl⟩
      rw [mul_neg, mul_one] at hmin
      rw [← neg_neg a, hmin]
      rfl
    rw [machineDiv, if_neg htrap]
    refine checked_eq_fit (mul_eq_ofInt a b) fun _ _ _ => ?_
    rw [Ne, quotient_eq_iff htrap]
    refine or_iff_left_of_imp fun hclause hfits => ?_
    -- the product with -1 that fits has the other sign
    obtain ⟨rfl, hneg, hneg'⟩ := hclause
    rw [slt_iff_toInt_lt] at hneg hneg'
    rw [mul_eq_ofInt, toInt_ofInt_of_fits hfits] at hneg'
    change a.toInt < 0 at hneg
    change a.toInt * (-1) < 0 at hneg'
    omega
  rename_i hb
  have hzero : Fits (a.toInt * b.toInt) := by
    rw [not_not.mp hb]
    change Fits (a.toInt * 0)
    rw [mul_zero]
    decide
  rw [fit, if_pos hzero, ← mul_eq_ofInt]

theorem timesInt32_eq (ha : fitsInt32 a) : timesInt32 (a * b) b a = fit (a.toInt * b.toInt) := by
  unfold timesInt32
  split
  swap
  · rename_i hb
    rw [fit, if_pos (fits_mul_of_fitsInt32 ha (not_not.mp hb)), ← mul_eq_ofInt]
  rename_i hb
  -- neither zero nor -1 is so large
  have htrap : ¬ machineTraps (a * b) b := by
    rintro (rfl | ⟨-, rfl⟩)
    · exact hb (by decide)
    · exact hb (by decide)
  rw [machineDiv, if_neg htrap]
  exact checked_eq_fit (mul_eq_ofInt a b) fun _ _ _ => not_congr (quotient_eq_iff htrap)

/-! ### Quotients and remainders -/

theorem machineTraps_iff (hb : b ≠ 0) : machineTraps a b ↔ a = intMin 64 ∧ b = -1 := or_iff_right hb

theorem machineDiv_eq (h : ¬ machineTraps a b) : machineDiv a b = fit (a.toInt.tdiv b.toInt) := by
  have hfits := fits_toInt (a.sdiv b)
  rw [toInt_sdiv h] at hfits
  rw [machineDiv, if_neg h, fit, if_pos hfits, ← toInt_sdiv h, ofInt_toInt]

theorem machineMod_eq (h : ¬ machineTraps a b) : machineMod a b = fit (a.toInt.tmod b.toInt) := by
  have hfits := fits_toInt (a.srem b)
  rw [machineMod, if_neg h, ← BitVec.toInt_srem, fit, if_pos hfits, ofInt_toInt]

theorem unless_eq {r : Except Failure Int64} (h : b ≠ 0 → r = fit z) :
    (if b = 0 then .error .divisionByZero else r) = fitUnless b.toInt z := by
  split_ifs with hb
  · rw [fitUnless, if_pos (by rw [hb]; rfl)]
  · rw [fitUnless, if_neg (toInt_ne_zero hb), h hb]

theorem divide_eq (h : ¬ (a = intMin 64 ∧ b = -1)) :
    divide a b = fitUnless b.toInt (a.toInt.tdiv b.toInt) := by
  refine unless_eq fun hb => ?_
  have htrap := mt (machineTraps_iff hb).mp h
  rw [← machineDiv_eq htrap, machineDiv, if_neg htrap]
  refine if_neg ?_
  rintro ⟨rfl, hneg, hle⟩
  rw [slt_iff_toInt_lt] at hneg
  rw [BitVec.sle_iff_toInt_le, toInt_sdiv htrap] at hle
  change a.toInt < 0 at hneg
  change a.toInt.tdiv (-1) ≤ 0 at hle
  rw [Int.tdiv_neg, Int.tdiv_one] at hle
  omega

/-! ### All operators -/

/-- The calls that divide the most negative value by -1 on the machine. -/
def Call.Traps (c : Call) : Prop :=
  c = .int8mul (BitVec.intMin 64) (-1) ∨ c = .int8div (BitVec.intMin 64) (-1) ∨
    c = .int8mod (BitVec.intMin 64) (-1) ∨ c = .int84div (BitVec.intMin 64) (-1)

theorem Call.run_eq_exact {c : Call} (h : ¬ c.Traps) : c.run = c.exact := by
  unfold Traps at h
  cases c with
  | int8um a => exact int8um_eq a
  | int8pl a b => exact plus_eq a b
  | int8mi a b => exact minus_eq a b
  | int8mul a b => exact int8mul_eq fun ⟨ha, hb⟩ => h (by simp [ha, hb])
  | int8div a b => exact divide_eq fun ⟨ha, hb⟩ => h (by simp [ha, hb])
  | int8mod a b =>
    refine unless_eq fun hb => machineMod_eq fun htrap => h ?_
    obtain ⟨rfl, rfl⟩ := (machineTraps_iff hb).mp htrap
    exact .inr (.inr (.inl rfl))
  | int84pl a b => exact (plus_eq a _).trans (by rw [toInt_widen]; rfl)
  | int84mi a b => exact (minus_eq a _).trans (by rw [toInt_widen]; rfl)
  | int84mul a b =>
    have := timesInt32_eq (b := a) (fitsInt32_widen b)
    rw [mul_comm, toInt_widen, mul_comm b.toInt] at this
    exact this
  | int84div a b =>
    refine (divide_eq fun ⟨ha, hb⟩ => h ?_).trans (by rw [toInt_widen]; rfl)
    have hb' : b = -1 := BitVec.eq_of_toInt_eq (by rw [← toInt_widen, hb]; rfl)
    exact .inr (.inr (.inr (by rw [ha, hb'])))
  | int48pl a b => exact (plus_eq _ b).trans (by rw [toInt_widen]; rfl)
  | int48mi a b => exact (minus_eq _ b).trans (by rw [toInt_widen]; rfl)
  | int48mul a b => exact (timesInt32_eq (fitsInt32_widen a)).trans (by rw [toInt_widen]; rfl)
  | int48div a b =>
    refine (unless_eq fun hb => machineDiv_eq fun htrap => ?_).trans (by rw [toInt_widen]; rfl)
    -- a 32-bit operand is not the most negative value
    have hmin := fitsInt32_widen a
    rw [((machineTraps_iff hb).mp htrap).1] at hmin
    cases hmin

/-- Each operator returns the exact result if it fits and reports an error otherwise, exactly if
it does not divide the most negative value by -1. -/
theorem int8_arithmetic_exact_iff (c : Call) : c.run = c.exact ↔ ¬ c.Traps := by
  refine ⟨fun heq htraps => ?_, Call.run_eq_exact⟩
  rcases htraps with rfl | rfl | rfl | rfl
  · cases heq
  · cases heq
  · cases heq
  · cases heq

/-- A remainder of zero that is not returned. -/
theorem int8mod_traps : int8mod (BitVec.intMin 64) (-1) = .error .trap ∧
      (Call.int8mod (BitVec.intMin 64) (-1)).exact = .ok 0 ∧
      int8div (BitVec.intMin 64) (-1) = .error .trap ∧
      (Call.int8div (BitVec.intMin 64) (-1)).exact = .error .outOfRange :=
  ⟨by decide, by decide, by decide, by decide⟩

end PrlPg.Int8
