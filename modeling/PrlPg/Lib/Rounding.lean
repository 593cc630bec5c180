/-
Rounding to the multiples of a unit.

`floorTo` is the largest multiple below, `roundTo` the nearest one, a half going up.  Both are
meant for numbers that are not negative; with a sign in front they become truncation towards
zero (`truncZero`) and rounding with a half going away from zero (`roundAway`).

A number that was first cut off at a finer unit is rounded as if it had not been, if the unit
(or for rounding half of it) is a multiple of the finer one.
-/
import Mathlib.Data.Rat.Floor
import Mathlib.Tactic.Positivity

namespace PrlPg.Rounding

def floorTo (u x : Rat) : Rat := ⌊x / u⌋ * u

def roundTo (u x : Rat) : Rat := ⌊x / u + 1 / 2⌋ * u

/-- Truncation towards zero. -/
def truncZero (u x : Rat) : Rat := if 0 ≤ x then floorTo u x else -floorTo u (-x)

/-- Rounding, a half away from zero. -/
def roundAway (u x : Rat) : Rat := if 0 ≤ x then roundTo u x else -roundTo u (-x)

variable {u v x : Rat}

theorem floorTo_zero (u : Rat) : floorTo u 0 = 0 := by simp [floorTo]

theorem roundTo_zero (u : Rat) : roundTo u 0 = 0 := by norm_num [roundTo]

section

variable (hu : 0 < u)
include hu

theorem floorTo_eq_zero (h0 : 0 ≤ x) (h : x < u) : floorTo u x = 0 := by
  have hfloor : ⌊x / u⌋ = 0 := by
    rw [Int.floor_eq_zero_iff]
    exact ⟨div_nonneg h0 hu.le, (div_lt_one hu).mpr h⟩
  rw [floorTo, hfloor, Int.cast_zero, zero_mul]

theorem roundTo_eq_zero (h0 : 0 ≤ x) (h : x < u / 2) : roundTo u x = 0 := by
  have hfloor : ⌊x / u + 1 / 2⌋ = 0 := by
    rw [Int.floor_eq_zero_iff]
    have hlt : x / u < 1 / 2 := by
      rw [div_lt_iff₀ hu]
      linarith
    have hnonneg := div_nonneg h0 hu.le
    constructor
    · linarith
    · linarith
  rw [roundTo, hfloor, Int.cast_zero, zero_mul]

theorem roundTo_mono {y : Rat} (h : x ≤ y) : roundTo u x ≤ roundTo u y := by
  have hdiv : x / u + 1 / 2 ≤ y / u + 1 / 2 := by
    have := div_le_div_of_nonneg_right h hu.le
    linarith
  have hfloor : (⌊x / u + 1 / 2⌋ : Rat) ≤ ⌊y / u + 1 / 2⌋ := by
    exact_mod_cast Int.floor_le_floor hdiv
  exact mul_le_mul_of_nonneg_right hfloor hu.le

end

theorem floorTo_int_mul (hu : u ≠ 0) (k : Int) : floorTo u (k * u) = k * u := by
  rw [floorTo, mul_div_assoc, div_self hu, mul_one, Int.floor_intCast]

theorem roundTo_int_mul (hu : u ≠ 0) (k : Int) : roundTo u (k * u) = k * u := by
  have hfloor : ⌊(k : Rat) + 1 / 2⌋ = k := by
    rw [Int.floor_eq_iff]
    constructor
    · linarith
    · linarith
  rw [roundTo, mul_div_assoc, div_self hu, mul_one, hfloor]

theorem unit_le_roundTo (hu : 0 < u) (hpos : 0 < roundTo u x) : u ≤ roundTo u x := by
  rw [roundTo] at hpos ⊢
  have hfloor := Int.cast_pos.mp ((mul_pos_iff_of_pos_right hu).mp hpos)
  exact le_mul_of_one_le_left hu.le (by exact_mod_cast hfloor)

theorem le_floorTo_iff (hv : 0 < v) (k : Int) : k * v ≤ floorTo v x ↔ k * v ≤ x := by
  rw [floorTo, mul_le_mul_iff_left₀ hv, Int.cast_le, Int.le_floor, le_div_iff₀ hv]

theorem floorTo_floorTo (hv : 0 < v) {k : Nat} (hk : 0 < k) :
    floorTo (k * v) (floorTo v x) = floorTo (k * v) x := by
  have hu : 0 < (k : Rat) * v := mul_pos (Nat.cast_pos.mpr hk) hv
  have hfloor : ⌊floorTo v x / (k * v)⌋ = ⌊x / (k * v)⌋ := by
    refine eq_of_forall_le_iff fun m => ?_
    have := le_floorTo_iff (x := x) hv (m * k)
    push_cast at this
    rw [Int.le_floor, Int.le_floor, le_div_iff₀ hu, le_div_iff₀ hu, ← mul_assoc, this]
  rw [floorTo, hfloor, floorTo]

theorem roundTo_floorTo (hv : 0 < v) {k : Nat} (hk : 0 < k) :
    roundTo (2 * k * v) (floorTo v x) = roundTo (2 * k * v) x := by
  have hu : 0 < 2 * (k : Rat) * v := by positivity
  have hfloor : ⌊floorTo v x / (2 * k * v) + 1 / 2⌋ = ⌊x / (2 * k * v) + 1 / 2⌋ := by
    refine eq_of_forall_le_iff fun m => ?_
    -- the half that separates two multiples is a multiple of the finer unit
    have hhalf : ∀ y : Rat, (m : Rat) ≤ y / (2 * k * v) + 1 / 2 ↔ ((2 * m - 1) * k : Int) * v ≤ y := by
      intro y
      rw [← sub_le_iff_le_add, le_div_iff₀ hu]
      push_cast
      constructor
      · intro h
        linarith
      · intro h
        linarith
    rw [Int.le_floor, Int.le_floor, hhalf, hhalf, le_floorTo_iff hv]
  rw [roundTo, hfloor, roundTo]

section Split

variable {t : Rat} (ht : 0 < t) {K P X : Int} (h0 : 0 ≤ X) (hX : X < P) (hu : u = P * t)
  (hx : x = (K * P + X : Int) * t)
include ht h0 hX hu hx

theorem div_of_split : (0 : Rat) < P ∧ x / u = K + X / P ∧ (0 : Rat) ≤ X / P ∧ (X : Rat) / P < 1 := by
  have hP : (0 : Rat) < P := by exact_mod_cast (by omega : 0 < P)
  refine ⟨hP, ?_, div_nonneg (by exact_mod_cast h0) hP.le, (div_lt_one hP).mpr (by exact_mod_cast hX)⟩
  rw [hu, hx]
  push_cast
  field_simp

theorem roundTo_of_split : roundTo u x = (K + if P ≤ 2 * X then 1 else 0 : Int) * u := by
  obtain ⟨hP, hdiv, hnonneg, hlt⟩ := div_of_split ht h0 hX hu hx
  rw [roundTo]
  congr 2
  by_cases hhalf : P ≤ 2 * X
  · have : (1 : Rat) / 2 ≤ X / P := by
      rw [le_div_iff₀ hP]
      have : (P : Rat) ≤ 2 * X := by exact_mod_cast hhalf
      linarith
    rw [if_pos hhalf, Int.floor_eq_iff]
    push_cast
    constructor
    · linarith
    · linarith
  have : (X : Rat) / P < 1 / 2 := by
    rw [div_lt_iff₀ hP]
    have : (2 * X : Rat) < P := by exact_mod_cast (by omega : 2 * X < P)
    linarith
  rw [if_neg hhalf, Int.floor_eq_iff]
  push_cast
  constructor
  · linarith
  · linarith

theorem floorTo_of_split : floorTo u x = K * u := by
  obtain ⟨-, hdiv, hnonneg, hlt⟩ := div_of_split ht h0 hX hu hx
  have hfloor : ⌊(K : Rat) + X / P⌋ = K := by
    rw [Int.floor_eq_iff]
    constructor
    · linarith
    · linarith
  rw [floorTo, hdiv, hfloor]

end Split

/-! ### Signs -/

theorem truncZero_of_nonneg (h : 0 ≤ x) : truncZero u x = floorTo u x := if_pos h

theorem truncZero_neg (h : 0 ≤ x) : truncZero u (-x) = -floorTo u x := by
  rcases h.eq_or_lt with rfl | hpos
  · rw [neg_zero, truncZero_of_nonneg (le_refl 0), floorTo_zero, neg_zero]
  · rw [truncZero, if_neg (by linarith), neg_neg]

theorem roundAway_of_nonneg (h : 0 ≤ x) : roundAway u x = roundTo u x := if_pos h

theorem roundAway_neg (h : 0 ≤ x) : roundAway u (-x) = -roundTo u x := by
  rcases h.eq_or_lt with rfl | hpos
  · rw [neg_zero, roundAway_of_nonneg (le_refl 0), roundTo_zero, neg_zero]
  · rw [roundAway, if_neg (by linarith), neg_neg]

theorem exists_roundAway_one (x : Rat) : ∃ m : Int, (m : Rat) = roundAway 1 x := by
  unfold roundAway roundTo
  split
  · exact ⟨_, (mul_one _).symm⟩
  · exact ⟨-_, by rw [mul_one, Int.cast_neg]⟩

theorem roundAway_intCast (m : Int) : roundAway 1 (m : Rat) = m := by
  have hround : ∀ k : Int, roundTo 1 (k : Rat) = k := by
    intro k
    have := roundTo_int_mul (u := 1) one_ne_zero k
    rwa [mul_one] at this
  unfold roundAway
  split
  · exact hround m
  · rw [← Int.cast_neg, hround, Int.cast_neg, neg_neg]

end PrlPg.Rounding
