/-
Estimating a quotient digit from the top digits of the operands.

`V` is the divisor and `U` a dividend.  `v1` and `v2` are the first two digits of the divisor,
`u2` is the number of the first two digits of the dividend and `u3` the next digit, and what
follows in both is less than `p`.  The estimate `u2 / v1` is never too small (`le_estimate`).
An estimate whose product with the first two digits of the divisor exceeds the first three
digits of the dividend is too large (`lt_of_tooLarge`), and otherwise it is at most one too
large (`sub_one_le_of_not_tooLarge`).
-/
import Mathlib.Tactic.Linarith
import Mathlib.Tactic.Ring

namespace PrlPg.LongDivision

/-- Dividend and divisor by their top digits. -/
structure Tops (b p U V u2 u3 v1 v2 : Int) : Prop where
  base : 0 < b
  rest : 0 < p
  third : 0 ≤ u3 ∧ u3 < b
  first : 0 < v1
  second : 0 ≤ v2
  dividend : (u2 * b + u3) * p ≤ U ∧ U < (u2 * b + u3 + 1) * p
  divisor : (v1 * b + v2) * p ≤ V ∧ V < (v1 * b + v2 + 1) * p

variable {b p U V u2 u3 v1 v2 qhat : Int}

section

variable (h : Tops b p U V u2 u3 v1 v2)
include h

theorem lt_of_tooLarge (h0 : 0 ≤ qhat)
    (hlarge : (u2 - qhat * v1) * b + u3 < v2 * qhat) : U < qhat * V := by
  have htop : u2 * b + u3 + 1 ≤ qhat * (v1 * b + v2) := by linarith
  calc U < (u2 * b + u3 + 1) * p := h.dividend.2
    _ ≤ qhat * (v1 * b + v2) * p := mul_le_mul_of_nonneg_right htop h.rest.le
    _ = qhat * ((v1 * b + v2) * p) := by ring
    _ ≤ qhat * V := mul_le_mul_of_nonneg_left h.divisor.1 h0

theorem sub_one_le_of_not_tooLarge (h0 : 0 < qhat) (hle : qhat ≤ b)
    (hnot : v2 * qhat ≤ (u2 - qhat * v1) * b + u3) : (qhat - 1) * V ≤ U := by
  -- the first digit of the divisor alone outweighs the estimate
  have hfirst : qhat ≤ v1 * b + v2 := by
    have : 1 * b ≤ v1 * b := mul_le_mul_of_nonneg_right h.first h.base.le
    have := h.second
    linarith
  calc (qhat - 1) * V ≤ (qhat - 1) * ((v1 * b + v2 + 1) * p) :=
        mul_le_mul_of_nonneg_left h.divisor.2.le (by omega)
    _ = (qhat * (v1 * b + v2) + (qhat - 1 - (v1 * b + v2))) * p := by ring
    _ ≤ (u2 * b + u3) * p := mul_le_mul_of_nonneg_right (by linarith) h.rest.le
    _ ≤ U := h.dividend.1

theorem le_estimate {q : Int} (h0 : 0 ≤ q) (hq : q * V ≤ U) : q ≤ u2 / v1 := by
  rw [Int.le_ediv_iff_mul_le h.first]
  have hbp : 0 < b * p := mul_pos h.base h.rest
  have hlt : q * v1 * (b * p) < (u2 + 1) * (b * p) := by
    have hsecond : 0 ≤ q * v2 * p := mul_nonneg (mul_nonneg h0 h.second) h.rest.le
    calc q * v1 * (b * p) ≤ q * v1 * (b * p) + q * v2 * p := by linarith
      _ = q * ((v1 * b + v2) * p) := by ring
      _ ≤ q * V := mul_le_mul_of_nonneg_left h.divisor.1 h0
      _ ≤ U := hq
      _ < (u2 * b + u3 + 1) * p := h.dividend.2
      _ ≤ (u2 * b + b) * p := mul_le_mul_of_nonneg_right (by have := h.third.2; omega) h.rest.le
      _ = (u2 + 1) * (b * p) := by ring
  have := lt_of_mul_lt_mul_right hlt hbp.le
  omega

end

end PrlPg.LongDivision
