/-
What a `numeric` variable stands for, and what stripping and rounding do to it.

The absolute value of a variable is a rational number, `scaled` of its digits.  Rounding to a
scale is `roundTo` the unit of that scale, for any digits and any weight.

`round_var` keeps the digits before the place where it rounds, looks at one more digit (or at
the rest of the last one that it keeps) and adds a carry.  In terms of the integer that the
digits stand for, it divides by a unit, and what it looks at decides whether what is cut off
is at least half of the unit.  `roundDigits_value` is this for whole digits and for decimals
within a digit, and `roundVar_spec` puts the weight back.
-/
import PrlPg.Utils.Numeric
import PrlPg.Lib.Rounding
import Mathlib.Tactic.LinearCombination

namespace PrlPg.Numeric

open List Radix Rounding NumericVar Sign

theorem nbase_pos : (0 : Int) < nbase := by decide

theorem nbase_ne_zero : nbase ≠ 0 := by decide

theorem nbase_cast : (nbase : Rat) = 10 ^ 4 := by norm_num [nbase]

theorem nbase_zpow (w : Int) : (nbase : Rat) ^ w = 10 ^ (4 * w) := by
  rw [nbase_cast, zpow_mul]
  norm_num

/-! ### Values -/

/-- The absolute value. -/
def NumericVar.abs (var : NumericVar) : Rat := scaled nbase var.digits var.weight

def Sign.factor : Sign → Rat
  | .pos => 1
  | .neg => -1
  | .nan => 1

def NumericVar.value (var : NumericVar) : Rat := var.sign.factor * var.abs

/-- The digits are digits and zero has no sign. -/
structure NumericVar.Valid (var : NumericVar) : Prop where
  digits : Digits nbase var.digits
  notNan : var.sign ≠ .nan
  zero : var.abs = 0 → var.sign = .pos

/-- No zeroes at the ends. -/
def Stripped (digits : List Int) : Prop := digits.head? ≠ some 0 ∧ digits.getLast? ≠ some 0

instance (digits : List Int) : Decidable (Stripped digits) := inferInstanceAs (Decidable (_ ∧ _))

/-- The unit of a display scale. -/
def unit (scale : Int) : Rat := 10 ^ (-scale)

theorem unit_pos (scale : Int) : 0 < unit scale := zpow_pos (by norm_num) _

section Values

variable {var : NumericVar}

section

variable (h : Digits nbase var.digits)
include h

theorem abs_nonneg : 0 ≤ var.abs := h.scaled_nonneg nbase_pos.le

theorem abs_lt : var.abs < 10 ^ (4 * (var.weight + 1)) := by
  rw [← nbase_zpow]
  exact h.scaled_lt nbase_pos

theorem NumericVar.valid_of_pos (hs : var.sign = .pos) :
    var.Valid := ⟨h, fun hnan => noConfusion (hs.symm.trans hnan), fun _ => hs⟩

end

theorem NumericVar.Valid.sign_cases (h : var.Valid) :
    var.sign = .pos ∨ var.sign = .neg ∧ var.abs ≠ 0 := by
  cases hs : var.sign with
  | pos => exact .inl rfl
  | neg =>
    refine .inr ⟨rfl, fun h0 => ?_⟩
    have := h.zero h0
    rw [hs] at this
    cases this
  | nan => exact absurd hs h.notNan

theorem NumericVar.Valid.value_nonneg_iff (h : var.Valid) : 0 ≤ var.value ↔ var.sign = .pos := by
  have habs := abs_nonneg h.digits
  unfold value
  rcases h.sign_cases with hs | ⟨hs, hne⟩
  · simpa [hs, factor] using habs
  have hpos : 0 < var.abs := lt_of_le_of_ne habs (Ne.symm hne)
  simp only [hs, factor, reduceCtorEq, iff_false, not_le]
  linarith

theorem NumericVar.Valid.abs_value (h : var.Valid) : |var.value| = var.abs := by
  have habs := abs_nonneg h.digits
  unfold value
  rcases h.sign_cases with hs | ⟨hs, -⟩
  · rw [hs, factor, one_mul, abs_of_nonneg habs]
  · rw [hs, factor, neg_one_mul, abs_neg, abs_of_nonneg habs]

end Values

/-! ### Stripping -/

variable {l : List Int}

theorem forall_takeWhile_zero (l : List Int) : ∀ d ∈ l.takeWhile (· == 0), d = 0 := by
  intro d hd
  have hbeq : (d == 0) = true := mem_takeWhile_imp (p := fun d => d == 0) hd
  exact eq_of_beq hbeq

theorem exists_rdropWhile_zero (l : List Int) :
    ∃ m, l = l.rdropWhile (· == 0) ++ m ∧ ∀ d ∈ m, d = 0 := by
  refine ⟨(l.reverse.takeWhile (· == 0)).reverse, ?_, ?_⟩
  · rw [List.rdropWhile, ← reverse_append, takeWhile_append_dropWhile, reverse_reverse]
  · intro d hd
    exact forall_takeWhile_zero _ d (mem_reverse.mp hd)

theorem scaled_stripDigits (l : List Int) (w : Int) :
    scaled nbase (stripDigits l) (w - (l.takeWhile (· == 0)).length) = scaled nbase l w := by
  obtain ⟨m, hm, hzero⟩ := exists_rdropWhile_zero (l.dropWhile (· == 0))
  have hsplit : scaled nbase l w = scaled nbase (l.takeWhile (· == 0) ++ l.dropWhile (· == 0)) w := by
    rw [takeWhile_append_dropWhile]
  rw [hsplit, scaled_append nbase_ne_zero, scaled_of_forall_zero (forall_takeWhile_zero l), zero_add,
    hm, scaled_append nbase_ne_zero, scaled_of_forall_zero hzero, add_zero]
  rfl

theorem stripDigits_sublist (l : List Int) : (stripDigits l).Sublist l :=
  ( rdropWhile_prefix _ _).sublist.trans (dropWhile_suffix _).sublist

theorem stripDigits_eq_nil : stripDigits l = [] ↔ ∀ d ∈ l, d = 0 := by
  rw [stripDigits, rdropWhile_eq_nil_iff]
  constructor
  · intro h d hd
    rw [← takeWhile_append_dropWhile (p := fun d : Int => d == 0) (l := l), mem_append] at hd
    rcases hd with hd | hd
    · exact forall_takeWhile_zero l d hd
    · exact eq_of_beq (h d hd)
  · intro h d hd
    exact beq_iff_eq.mpr (h d ((dropWhile_suffix _).subset hd))

theorem stripped_nil : Stripped [] := ⟨by decide, by decide⟩

theorem stripDigits_stripped (l : List Int) : Stripped (stripDigits l) := by
  constructor
  · intro hhead
    -- the first digit that is left is the first one that was not dropped
    have hpre : stripDigits l <+: l.dropWhile (· == 0) := rdropWhile_prefix _ _
    obtain ⟨m, hm⟩ := hpre
    obtain ⟨t, ht⟩ := head?_eq_some_iff.mp hhead
    rw [ht] at hm
    have hne : l.dropWhile (· == 0) ≠ [] := by
      rw [← hm]
      exact cons_ne_nil _ _
    have hnot := head_dropWhile_not (fun d : Int => d == 0) hne
    simp only [← hm, cons_append, head_cons] at hnot
    cases hnot
  intro hlast
  have hne : stripDigits l ≠ [] := by
    intro hnil
    rw [hnil] at hlast
    cases hlast
  have hnot : ¬ ((stripDigits l).getLast hne == 0) = true :=
    rdropWhile_last_not (fun d : Int => d == 0) _ hne
  rw [getLast?_eq_getLast_of_ne_nil hne] at hlast
  exact hnot (beq_iff_eq.mpr (Option.some.inj hlast))

theorem takeWhile_zero_of_stripped (h : Stripped l) : l.takeWhile (· == 0) = [] := by
  cases l with
  | nil => rfl
  | cons d l =>
    have hd : (d == 0) = false := beq_eq_false_iff_ne.mpr fun h0 => h.1 (congrArg some h0)
    rw [takeWhile_cons, hd]
    rfl

theorem stripDigits_of_stripped (h : Stripped l) : stripDigits l = l := by
  have hdrop : l.dropWhile (· == 0) = l := by
    conv_rhs => rw [← @takeWhile_append_dropWhile _ (· == 0) l, takeWhile_zero_of_stripped h,
      nil_append]
  rw [stripDigits, hdrop, rdropWhile_eq_self_iff]
  intro hne hlast
  rw [beq_iff_eq] at hlast
  exact h.2 (by rw [getLast?_eq_some_getLast hne, hlast])

section Strip

variable (var : NumericVar)

@[simp]
theorem digits_stripVar : (stripVar var).digits = stripDigits var.digits := by
  simp only [stripVar]
  split
  · rename_i h
    exact h.symm
  · rfl

@[simp]
theorem dscale_stripVar : (stripVar var).dscale = var.dscale := by
  simp only [stripVar]
  split
  · rfl
  · rfl

theorem sign_stripVar :
    (stripVar var).sign = if stripDigits var.digits = [] then .pos else var.sign := by
  simp only [stripVar]
  split
  · rfl
  · rfl

theorem abs_stripVar : (stripVar var).abs = var.abs := by
  simp only [stripVar]
  split
  · rename_i h
    rw [NumericVar.abs, NumericVar.abs, scaled_of_forall_zero (stripDigits_eq_nil.mp h)]
    exact scaled_nil
  · exact scaled_stripDigits _ _

variable {var}

theorem stripVar_of_stripped (h : Stripped var.digits)
    (hzero : var.digits = [] → var.sign = .pos ∧ var.weight = 0) : stripVar var = var := by
  have hdigits := stripDigits_of_stripped h
  have hlead := takeWhile_zero_of_stripped h
  simp only [stripVar, hdigits, hlead, length_nil, Nat.cast_zero, sub_zero]
  by_cases hnil : var.digits = []
  · obtain ⟨hsign, hweight⟩ := hzero hnil
    rw [if_pos hnil, ← hnil, ← hsign, ← hweight]
  · rw [if_neg hnil]

section

variable (h : Digits nbase var.digits)
include h

theorem Digits.strip : Digits nbase (stripVar var).digits := by
  rw [digits_stripVar]
  exact fun d hd => h d ((stripDigits_sublist _).subset hd)

theorem valid_stripVar (hs : var.sign ≠ .nan) : (stripVar var).Valid := by
  refine ⟨Digits.strip h, ?_, ?_⟩
  · rw [sign_stripVar]
    split
    · exact noConfusion
    · exact hs
  intro hzero
  rw [abs_stripVar, NumericVar.abs, h.scaled_eq_zero nbase_pos] at hzero
  rw [sign_stripVar, if_pos (stripDigits_eq_nil.mpr hzero)]

theorem value_stripVar : (stripVar var).value = var.sign.factor * var.abs := by
  rw [NumericVar.value, abs_stripVar, sign_stripVar]
  split
  · rename_i hnil
    have hzero : var.abs = 0 := (h.scaled_eq_zero nbase_pos).mpr (stripDigits_eq_nil.mp hnil)
    rw [hzero, mul_zero, mul_zero]
  · rfl

end

end Strip

/-! ### Rounding -/

variable {k : Nat} {di s w : Int}

theorem run_carryInto (h : Digits nbase l) {c : Int} (hc : c = 0 ∨ c = 1) :
    (run carryInto l c).1.length = l.length ∧ Digits nbase (run carryInto l c).1 ∧
      ((run carryInto l c).2 = 0 ∨ (run carryInto l c).2 = 1) ∧
      value nbase (run carryInto l c).1 + nbase ^ l.length * (run carryInto l c).2 =
        value nbase l + c := by
  have hstep : ∀ x c : Int, (0 ≤ x ∧ x < nbase) → (c = 0 ∨ c = 1) →
      (0 ≤ (carryInto x c).1 ∧ (carryInto x c).1 < nbase) ∧
        ((carryInto x c).2 = 0 ∨ (carryInto x c).2 = 1) ∧
        (carryInto x c).1 + nbase * (carryInto x c).2 = x + c := by
    intro x c hx hc
    unfold carryInto nbase at *
    split_ifs with h0 h1
    · subst h0
      refine ⟨hx, .inl rfl, ?_⟩
      omega
    · refine ⟨?_, .inr rfl, ?_⟩
      · simp only
        omega
      · simp only
        omega
    refine ⟨?_, .inl rfl, ?_⟩
    · simp only
      omega
    · simp only
      omega
  have hspec := run_spec (b := nbase) (I := fun c => c = 0 ∨ c = 1)
    (Q := fun d => 0 ≤ d ∧ d < nbase) (f := id) (g := id) hstep h hc
  rwa [map_id] at hspec

/-- The number of units that a decimal within a digit has, one for none. -/
def cutUnit (di : Int) : Int := if di = 0 then 1 else roundPowers di

theorem value_take_drop (l : List Int) (k : Nat) : value nbase l =
    value nbase (l.take k) * nbase ^ (l.length - k) + value nbase (l.drop k) := by
  conv_lhs => rw [← take_append_drop k l]
  rw [value_append, length_drop]

theorem drop_eq_cons (hk : k < l.length) : l.drop k = digitAt l k :: l.drop (k + 1) := by
  rw [drop_eq_getElem_cons hk, digitAt, if_pos (Int.natCast_nonneg k), Int.toNat_natCast,
    getD_eq_getElem _ _ hk]

/-- Half of a power of the base is reached when its first digit is half of the base. -/
theorem half_le_value_drop (h : Digits nbase l) (hk : k < l.length) :
    nbase ^ (l.length - k) ≤ 2 * value nbase (l.drop k) ↔ halfNbase ≤ digitAt l k := by
  have hrest := h.drop (k + 1)
  have hlt := hrest.value_lt nbase_pos.le
  have hnonneg := hrest.value_nonneg nbase_pos.le
  rw [drop_eq_cons hk, value_cons, length_drop] at *
  rw [show l.length - k = l.length - (k + 1) + 1 by omega, pow_succ]
  generalize nbase ^ (l.length - (k + 1)) = p at *
  generalize value nbase (l.drop (k + 1)) = r at *
  rw [show nbase = 10000 from rfl, show halfNbase = 5000 from rfl]
  constructor
  · intro hle
    nlinarith
  · intro hd
    nlinarith

theorem roundWithin_spec {e : Int} (he : 0 ≤ e ∧ e < nbase) (hdi : 0 < di ∧ di < 4) :
    (0 ≤ (roundWithin e (roundPowers di)).1 ∧ (roundWithin e (roundPowers di)).1 < nbase) ∧
      ((roundWithin e (roundPowers di)).2 = 0 ∨ (roundWithin e (roundPowers di)).2 = 1) ∧
      (roundWithin e (roundPowers di)).1 + nbase * (roundWithin e (roundPowers di)).2 =
        (e / roundPowers di + if roundPowers di ≤ 2 * (e % roundPowers di) then 1 else 0) *
          roundPowers di := by
  obtain ⟨p, hp, hpow⟩ : ∃ p, roundPowers di = p ∧ (p = 1000 ∨ p = 100 ∨ p = 10) := by
    refine ⟨_, rfl, ?_⟩
    obtain rfl | rfl | rfl : di = 1 ∨ di = 2 ∨ di = 3 := by omega
    · exact .inl rfl
    · exact .inr (.inl rfl)
    · exact .inr (.inr rfl)
  rw [hp]
  have hdiv : e = p * (e / p) + e % p := (Int.mul_ediv_add_emod e p).symm
  have hmod : 0 ≤ e % p ∧ e % p < p := by
    rcases hpow with rfl | rfl | rfl
    · omega
    · omega
    · omega
  simp only [roundWithin, Int.tmod_eq_emod_of_nonneg he.1]
  generalize e / p = q at *
  generalize e % p = r at *
  rcases hpow with rfl | rfl | rfl
  · split_ifs <;> exact ⟨by simp only; omega, by simp, by simp only; omega⟩
  · split_ifs <;> exact ⟨by simp only; omega, by simp, by simp only; omega⟩
  · split_ifs <;> exact ⟨by simp only; omega, by simp, by simp only; omega⟩

theorem roundPowers_even (hdi : 0 < di ∧ di < 4) : ∃ h, roundPowers di = 2 * h := by
  obtain rfl | rfl | rfl : di = 1 ∨ di = 2 ∨ di = 3 := by omega
  · exact ⟨500, rfl⟩
  · exact ⟨50, rfl⟩
  · exact ⟨5, rfl⟩

theorem cutUnit_spec (hdi : 0 ≤ di ∧ di < 4) : 0 < cutUnit di ∧ ∃ q, nbase = cutUnit di * q := by
  obtain rfl | rfl | rfl | rfl : di = 0 ∨ di = 1 ∨ di = 2 ∨ di = 3 := by omega
  · exact ⟨by decide, 10000, by decide⟩
  · exact ⟨by decide, 10, by decide⟩
  · exact ⟨by decide, 100, by decide⟩
  · exact ⟨by decide, 1000, by decide⟩

/-- The place where digits are cut: `ndigits` of them are kept, the last one up to `di`
decimals. -/
structure Place (l : List Int) (ndigits : Nat) (di : Int) : Prop where
  range : 0 ≤ di ∧ di < 4
  le : ndigits ≤ l.length
  pos : 0 < di → 0 < ndigits

/-- The integer of the digits as a multiple of the unit at the place, and a rest. -/
theorem Place.split (hp : Place l k di) (h : Digits nbase l) :
    ∃ K X, 0 ≤ X ∧ X < cutUnit di * nbase ^ (l.length - k) ∧
      value nbase l = K * (cutUnit di * nbase ^ (l.length - k)) + X ∧
      (di = 0 → K = value nbase (l.take k) ∧ X = value nbase (l.drop k)) ∧
      (0 < di → K * cutUnit di = value nbase (l.take (k - 1)) * nbase +
          digitAt l (k - 1 : Nat) / roundPowers di * roundPowers di ∧
        X = digitAt l (k - 1 : Nat) % roundPowers di * nbase ^ (l.length - k) +
          value nbase (l.drop k)) := by
  have hT := (h.drop k).value_lt nbase_pos.le
  have hT0 := (h.drop k).value_nonneg nbase_pos.le
  rw [length_drop] at hT
  by_cases hdi : di = 0
  · subst hdi
    refine ⟨_, _, hT0, ?_, ?_, fun _ => ⟨rfl, rfl⟩, fun hlt => absurd hlt (lt_irrefl 0)⟩
    · rwa [cutUnit, if_pos rfl, one_mul]
    · rw [cutUnit, if_pos rfl, one_mul]
      exact value_take_drop l k
  have hpos : 0 < di := lt_of_le_of_ne hp.range.1 (Ne.symm hdi)
  obtain ⟨j, rfl⟩ : ∃ j, k = j + 1 := ⟨k - 1, by have := hp.pos hpos; omega⟩
  have hj : j < l.length := by have := hp.le; omega
  obtain ⟨hunit, q, hq⟩ := cutUnit_spec hp.range
  rw [cutUnit, if_neg hdi] at *
  have hsplit := value_take_drop l j
  rw [drop_eq_cons hj, value_cons, length_drop, show l.length - j = l.length - (j + 1) + 1 by omega,
    pow_succ] at hsplit
  have he := Int.mul_ediv_add_emod (digitAt l j) (roundPowers di)
  have hmod0 := Int.emod_nonneg (digitAt l j) hunit.ne'
  have hmod := Int.emod_lt_of_pos (digitAt l j) hunit
  rw [Nat.add_sub_cancel]
  refine ⟨value nbase (l.take j) * q + digitAt l j / roundPowers di,
    digitAt l j % roundPowers di * nbase ^ (l.length - (j + 1)) + value nbase (l.drop (j + 1)),
    ?_, ?_, ?_, fun h0 => absurd h0 hdi, fun _ => ⟨?_, rfl⟩⟩
  · exact add_nonneg (mul_nonneg hmod0 (pow_nonneg nbase_pos.le _)) hT0
  · have hpow : 0 < nbase ^ (l.length - (j + 1)) := pow_pos nbase_pos _
    nlinarith
  · rw [hsplit]
    linear_combination (value nbase (l.take j) * nbase ^ (l.length - (j + 1))) * hq -
        nbase ^ (l.length - (j + 1)) * he
  · rw [hq]
    ring

theorem roundDigits_spec (hp : Place l k di) (hcut : k < l.length ∨ k = l.length ∧ 0 < di)
    (h : Digits nbase l) :
    ∃ K X, 0 ≤ X ∧ X < cutUnit di * nbase ^ (l.length - k) ∧
      value nbase l = K * (cutUnit di * nbase ^ (l.length - k)) + X ∧
      (roundDigits l k di).1.length = k ∧ Digits nbase (roundDigits l k di).1 ∧
      ((roundDigits l k di).2 = 0 ∨ (roundDigits l k di).2 = 1) ∧
      value nbase (roundDigits l k di).1 + nbase ^ k * (roundDigits l k di).2 =
        (K + if cutUnit di * nbase ^ (l.length - k) ≤ 2 * X then 1 else 0) * cutUnit di := by
  obtain ⟨K, X, hX0, hX, hval, hwhole, hwithin⟩ := hp.split h
  refine ⟨K, X, hX0, hX, hval, ?_⟩
  by_cases hdi : di = 0
  · have hk : k < l.length := by omega
    obtain ⟨rfl, rfl⟩ := hwhole hdi
    have hhalf := half_le_value_drop h hk
    rw [roundDigits, if_pos hdi, cutUnit, if_pos hdi, one_mul, mul_one]
    obtain ⟨hlen, hdig, hcarry, hsum⟩ := run_carryInto (h.take k)
      (c := if digitAt l k ≥ halfNbase then 1 else 0) (by split <;> simp)
    rw [length_take, Nat.min_eq_left hp.le] at hlen hsum
    refine ⟨hlen, hdig, hcarry, ?_⟩
    rw [hsum]
    split
    next hup => rw [if_pos (hhalf.mpr hup)]
    next hup => rw [if_neg (mt hhalf.mp hup)]
  have hpos : 0 < di := lt_of_le_of_ne hp.range.1 (Ne.symm hdi)
  have hk := hp.pos hpos
  obtain ⟨hK, rfl⟩ := hwithin hpos
  obtain ⟨hlast, hlastCarry, hlastSum⟩ := roundWithin_spec
    (h.digitAt nbase_pos (k - 1 : Nat)) ⟨hpos, hp.range.2⟩
  have hT := (h.drop k).value_lt nbase_pos.le
  have hT0 := (h.drop k).value_nonneg nbase_pos.le
  rw [length_drop] at hT
  -- what is below the digit does not matter, the unit being even
  have hhalf : cutUnit di * nbase ^ (l.length - k) ≤
        2 * (digitAt l (k - 1 : Nat) % roundPowers di * nbase ^ (l.length - k) +
          value nbase (l.drop k)) ↔
      roundPowers di ≤ 2 * (digitAt l (k - 1 : Nat) % roundPowers di) := by
    obtain ⟨half, heven⟩ := roundPowers_even ⟨hpos, hp.range.2⟩
    rw [cutUnit, if_neg hdi, heven]
    generalize digitAt l (k - 1 : Nat) % (2 * half) = x
    constructor
    · intro hle
      by_contra hlt
      have : x + 1 ≤ half := by omega
      nlinarith
    · intro hle
      nlinarith
  rw [roundDigits, if_neg hdi]
  rw [show ((k : Int) - 1) = ((k - 1 : Nat) : Int) by omega]
  obtain ⟨hlen, hdig, hcarry, hsum⟩ := run_carryInto (h.take (k - 1)) hlastCarry
  rw [length_take, Nat.min_eq_left (by have := hp.le; omega)] at hlen hsum
  refine ⟨?_, ?_, hcarry, ?_⟩
  · rw [length_append, hlen, length_singleton]
    omega
  · exact Digits.append_iff.mpr ⟨hdig, Digits.cons_iff.mpr ⟨hlast, Digits.nil⟩⟩
  rw [value_append, value_cons, length_nil, length_singleton, pow_zero, pow_one,
    mul_one, value_nil, add_zero, show k = k - 1 + 1 by omega, pow_succ, Nat.add_sub_cancel]
  have hup : (if cutUnit di * nbase ^ (l.length - k) ≤
        2 * (digitAt l (k - 1 : Nat) % roundPowers di * nbase ^ (l.length - k) +
          value nbase (l.drop k)) then (1 : Int) else 0) =
      if roundPowers di ≤ 2 * (digitAt l (k - 1 : Nat) % roundPowers di) then 1 else 0 := by
    simp only [hhalf]
  rw [show k - 1 + 1 = k by omega, hup]
  have hcut : cutUnit di = roundPowers di := by rw [cutUnit, if_neg hdi]
  rw [hcut] at hK ⊢
  linear_combination nbase * hsum + hlastSum - hK

section

variable (hdi : 0 ≤ (w + 1) * 4 + s) (hk : k = (((w + 1) * 4 + s + 4 - 1) / 4).toNat)
include hdi hk

/-- The digits wanted for a scale: how many, and the decimals of the last one. -/
theorem unit_eq : unit s = cutUnit (((w + 1) * 4 + s) % 4) * (nbase : Rat) ^ (w + 1 - k) := by
  have hpow : ∀ r e : Int, -s = r + 4 * e → unit s = 10 ^ r * (nbase : Rat) ^ e := by
    intro r e he
    rw [unit, he, zpow_add₀ (by norm_num), nbase_zpow]
  obtain hr | hr | hr | hr : ((w + 1) * 4 + s) % 4 = 0 ∨ ((w + 1) * 4 + s) % 4 = 1 ∨
      ((w + 1) * 4 + s) % 4 = 2 ∨ ((w + 1) * 4 + s) % 4 = 3 := by omega
  · rw [hr, hpow 0 (w + 1 - k) (by omega)]
    norm_num [cutUnit]
  · rw [hr, hpow 3 (w + 1 - k) (by omega)]
    norm_num [cutUnit, roundPowers]
  · rw [hr, hpow 2 (w + 1 - k) (by omega)]
    norm_num [cutUnit, roundPowers]
  · rw [hr, hpow 1 (w + 1 - k) (by omega)]
    norm_num [cutUnit, roundPowers]

/-- Digits that all stand before the place are a multiple of the unit. -/
theorem exists_mul_unit (hcut : ¬ (k < l.length ∨ k = l.length ∧ 0 < ((w + 1) * 4 + s) % 4)) :
    ∃ m : Int, scaled nbase l w = m * unit s := by
  have hrange : 0 ≤ ((w + 1) * 4 + s) % 4 ∧ ((w + 1) * 4 + s) % 4 < 4 := by omega
  obtain ⟨c, hc⟩ : ∃ c, nbase ^ (k - l.length) = cutUnit (((w + 1) * 4 + s) % 4) * c := by
    by_cases h0 : ((w + 1) * 4 + s) % 4 = 0
    · rw [h0]
      exact ⟨_, (one_mul _).symm⟩
    obtain ⟨-, q, hq⟩ := cutUnit_spec hrange
    refine ⟨q * nbase ^ (k - l.length - 1), ?_⟩
    rw [← mul_assoc, ← hq, ← pow_succ', show k - l.length - 1 + 1 = k - l.length by omega]
  have hpow : (nbase : Rat) ^ (w + 1 - l.length) =
      ((nbase ^ (k - l.length) : Int) : Rat) * (nbase : Rat) ^ (w + 1 - k) := by
    have hne : (nbase : Rat) ≠ 0 := by norm_num [nbase]
    push_cast
    rw [← zpow_natCast, ← zpow_add₀ hne]
    congr 1
    omega
  refine ⟨value nbase l * c, ?_⟩
  rw [scaled, hpow, hc, unit_eq hdi hk]
  push_cast
  ring

/-- The power of the base below the place. -/
theorem unit_eq_mul (hle : k ≤ l.length) :
    unit s = (cutUnit (((w + 1) * 4 + s) % 4) * nbase ^ (l.length - k) : Int) *
      (nbase : Rat) ^ (w + 1 - l.length) := by
  have hne : (nbase : Rat) ≠ 0 := by norm_num [nbase]
  rw [unit_eq hdi hk]
  push_cast
  rw [mul_assoc, ← zpow_natCast, ← zpow_add₀ hne]
  congr 2
  omega

theorem place_of (hle : k ≤ l.length) :
    Place l k (((w + 1) * 4 + s) % 4) := ⟨by omega, hle, by omega⟩

end

section Round

variable {var : NumericVar}

theorem abs_lt_of_neg (h : Digits nbase var.digits) {e : Int} (hdi : (var.weight + 1) * 4 + s ≤ e) :
    var.abs < 10 ^ e * unit s := by
  refine (abs_lt h).trans_le ?_
  rw [unit, ← zpow_add₀ (by norm_num)]
  exact zpow_le_zpow_right₀ (by norm_num) (by omega)

/-- With the carry as one more digit or without, the number is the same. -/
theorem abs_carryOut (var : NumericVar) (s : Int) {r : List Int × Int} (hlen : r.1.length = k) :
    (if r.2 ≠ 0 then
      ({ var with digits := r.2 :: r.1, weight := var.weight + 1, dscale := s } : NumericVar)
    else { var with digits := r.1, dscale := s }).abs =
      (value nbase r.1 + nbase ^ k * r.2 : Int) * (nbase : Rat) ^ (var.weight + 1 - k) := by
  by_cases hr : r.2 = 0
  · rw [if_neg (not_not.mpr hr), hr, mul_zero, add_zero]
    simp only [NumericVar.abs, scaled, hlen]
  rw [if_pos hr, NumericVar.abs, scaled, value_cons, length_cons, hlen,
    show var.weight + 1 + 1 - ((k + 1 : Nat) : Int) = var.weight + 1 - k by push_cast; ring]
  push_cast
  ring

/-- Rounding a variable rounds its absolute value. -/
theorem roundVar_spec (h : Digits nbase var.digits) (s : Int) :
    (roundVar var s).abs = roundTo (unit s) var.abs ∧ Digits nbase (roundVar var s).digits := by
  have hu := unit_pos s
  simp only [roundVar, roundAt, show decDigits = 4 from rfl]
  split
  next hdi =>
    rw [roundTo_eq_zero hu (abs_nonneg h)]
    · exact ⟨scaled_nil, Digits.nil⟩
    have := abs_lt_of_neg h (s := s) (e := -1) (by omega)
    norm_num at this
    linarith
  next hdi =>
    generalize hk : (((var.weight + 1) * 4 + s + 4 - 1) / 4).toNat = k
    by_cases hcut : k < var.digits.length ∨ k = var.digits.length ∧
        ((var.weight + 1) * 4 + s) % 4 > 0
    · rw [if_pos hcut]
      have hle : k ≤ var.digits.length := by omega
      obtain ⟨K, X, hX0, hX, hval, hlen, hdig, hcarry, hsum⟩ :=
        roundDigits_spec (place_of (by omega) hk.symm hle) hcut h
      have ht : (0 : Rat) < (nbase : Rat) ^ (var.weight + 1 - var.digits.length) :=
        zpow_pos (by norm_num [nbase]) _
      rw [roundTo_of_split ht hX0 hX (unit_eq_mul (by omega) hk.symm hle)
        (by rw [NumericVar.abs, scaled, hval])]
      constructor
      · rw [abs_carryOut var s hlen, hsum, unit_eq (by omega) hk.symm]
        push_cast
        ring
      split
      · refine Digits.cons_iff.mpr ⟨?_, hdig⟩
        unfold nbase
        omega
      · exact hdig
    rw [if_neg hcut]
    obtain ⟨m, hm⟩ := exists_mul_unit (l := var.digits) (by omega) hk.symm hcut
    have habs : var.abs = m * unit s := hm
    rw [habs, roundTo_int_mul hu.ne']
    exact ⟨hm, h⟩

/-- Truncating a variable truncates its absolute value. -/
theorem truncVar_spec (h : Digits nbase var.digits) (s : Int) :
    (truncVar var s).abs = floorTo (unit s) var.abs ∧ Digits nbase (truncVar var s).digits := by
  have hu := unit_pos s
  simp only [truncVar, truncAt, show decDigits = 4 from rfl]
  split
  next hdi =>
    rw [floorTo_eq_zero hu (abs_nonneg h)]
    · exact ⟨scaled_nil, Digits.nil⟩
    · have := abs_lt_of_neg h (s := s) (e := 0) (by omega)
      rwa [zpow_zero, one_mul] at this
  next hdi =>
    generalize hk : (((var.weight + 1) * 4 + s + 4 - 1) / 4).toNat = k
    split
    next hle =>
      have hplace := place_of (l := var.digits) (by omega) hk.symm hle
      obtain ⟨K, X, hX0, hX, hval, hwhole, hwithin⟩ := hplace.split h
      have ht : (0 : Rat) < (nbase : Rat) ^ (var.weight + 1 - var.digits.length) :=
        zpow_pos (by norm_num [nbase]) _
      rw [floorTo_of_split ht hX0 hX (unit_eq_mul (by omega) hk.symm hle)
        (by rw [NumericVar.abs, scaled, hval]), unit_eq (by omega) hk.symm]
      by_cases h0 : ((var.weight + 1) * 4 + s) % 4 > 0
      · have hkpos := hplace.pos h0
        have hlast := h.digitAt nbase_pos (k - 1 : Nat)
        have hpow := (cutUnit_spec hplace.range).1
        have hcut : cutUnit (((var.weight + 1) * 4 + s) % 4) =
            roundPowers (((var.weight + 1) * 4 + s) % 4) := by rw [cutUnit, if_neg h0.ne']
        rw [hcut] at hpow hwithin ⊢
        rw [if_pos h0, show ((k : Int) - 1) = ((k - 1 : Nat) : Int) by omega,
          Int.tmod_eq_emod_of_nonneg hlast.1]
        obtain ⟨hK, -⟩ := hwithin h0
        have he := Int.mul_ediv_add_emod (digitAt var.digits (k - 1 : Nat))
          (roundPowers (((var.weight + 1) * 4 + s) % 4))
        have hmod0 := Int.emod_nonneg (digitAt var.digits (k - 1 : Nat)) hpow.ne'
        have hdiv0 := Int.ediv_nonneg hlast.1 hpow.le
        generalize roundPowers (((var.weight + 1) * 4 + s) % 4) = p at *
        constructor
        swap
        · refine Digits.append_iff.mpr ⟨h.take _, Digits.cons_iff.mpr ⟨⟨?_, ?_⟩, Digits.nil⟩⟩
          · nlinarith
          · linarith [hlast.2]
        have hvalue : value nbase (var.digits.take (k - 1) ++
            [digitAt var.digits (k - 1 : Nat) - digitAt var.digits (k - 1 : Nat) % p]) = K * p := by
          rw [value_append, value_cons, length_nil, length_singleton, value_nil, pow_zero, pow_one]
          linear_combination -hK - he
        rw [NumericVar.abs, scaled, hvalue, length_append, length_take,
          length_singleton, Nat.min_eq_left (by omega), Nat.sub_add_cancel hkpos]
        push_cast
        ring
      have h0' : ((var.weight + 1) * 4 + s) % 4 = 0 := by omega
      obtain ⟨rfl, -⟩ := hwhole h0'
      rw [if_neg h0, h0']
      refine ⟨?_, h.take k⟩
      rw [NumericVar.abs, scaled, length_take, Nat.min_eq_left hle, cutUnit, if_pos rfl,
        Int.cast_one, one_mul]
    next hle =>
      obtain ⟨m, hm⟩ := exists_mul_unit (l := var.digits) (w := var.weight) (s := s) (by omega)
        hk.symm (by omega)
      have habs : var.abs = m * unit s := hm
      rw [habs, floorTo_int_mul hu.ne']
      exact ⟨hm, h⟩

section Cut

variable (var : NumericVar) (s : Int)

theorem sign_roundVar :
    (roundVar var s).sign = var.sign ∨ (roundVar var s).abs = 0 ∧ (roundVar var s).sign = .pos := by
  simp only [roundVar, roundAt]
  split_ifs
  · exact .inr ⟨scaled_nil, rfl⟩
  · exact .inl rfl
  · exact .inl rfl
  · exact .inl rfl

theorem sign_truncVar :
    (truncVar var s).sign = var.sign ∨ (truncVar var s).abs = 0 ∧ (truncVar var s).sign = .pos := by
  simp only [truncVar, truncAt]
  split_ifs
  · exact .inr ⟨scaled_nil, rfl⟩
  · exact .inl rfl
  · exact .inl rfl
  · exact .inl rfl

/-- One digit in front at most. -/
theorem weight_roundVar :
    (roundVar var s).digits = [] ∨ (roundVar var s).weight ≤ var.weight + 1 := by
  simp only [roundVar, roundAt]
  split_ifs
  · exact .inl rfl
  · exact .inr le_rfl
  · exact .inr (Int.le_add_one le_rfl)
  · exact .inr (Int.le_add_one le_rfl)

theorem weight_truncVar : (truncVar var s).digits = [] ∨ (truncVar var s).weight = var.weight := by
  simp only [truncVar, truncAt]
  split_ifs
  · exact .inl rfl
  · exact .inr rfl
  · exact .inr rfl
  · exact .inr rfl

@[simp]
theorem dscale_roundVar : (roundVar var s).dscale = s := by
  simp only [roundVar, roundAt]
  split_ifs
  · rfl
  · rfl
  · rfl
  · rfl

@[simp]
theorem dscale_truncVar : (truncVar var s).dscale = s := by
  simp only [truncVar, truncAt]
  split_ifs
  · rfl
  · rfl
  · rfl
  · rfl

end Cut

section Sign

variable {sign sign' : Sign} {x : Rat}

section

variable (h : sign' = sign ∨ x = 0 ∧ sign' = .pos)
include h

/-- A sign that may have been reset for a zero. -/
theorem factor_mul_of_sign :
    sign'.factor * x = sign.factor * x := by
  rcases h with rfl | ⟨rfl, -⟩
  · rfl
  · rw [mul_zero, mul_zero]

theorem ne_nan_of_sign (hs : sign ≠ .nan) :
    sign' ≠ .nan := by
  rcases h with rfl | ⟨-, rfl⟩
  · exact hs
  · exact noConfusion

end

end Sign

theorem stripVar_roundVar (h : Digits nbase var.digits) (hs : var.sign ≠ .nan) (s : Int) :
    (stripVar (roundVar var s)).Valid ∧
      (stripVar (roundVar var s)).value = var.sign.factor * roundTo (unit s) var.abs := by
  obtain ⟨habs, hdig⟩ := roundVar_spec h s
  refine ⟨valid_stripVar hdig (ne_nan_of_sign (sign_roundVar _ _) hs), ?_⟩
  rw [value_stripVar hdig, factor_mul_of_sign (sign_roundVar var s), habs]

theorem stripVar_truncVar (h : Digits nbase var.digits) (hs : var.sign ≠ .nan) (s : Int) :
    (stripVar (truncVar var s)).Valid ∧
      (stripVar (truncVar var s)).value = var.sign.factor * floorTo (unit s) var.abs := by
  obtain ⟨habs, hdig⟩ := truncVar_spec h s
  refine ⟨valid_stripVar hdig (ne_nan_of_sign (sign_truncVar _ _) hs), ?_⟩
  rw [value_stripVar hdig, factor_mul_of_sign (sign_truncVar var s), habs]

end Round

end PrlPg.Numeric
