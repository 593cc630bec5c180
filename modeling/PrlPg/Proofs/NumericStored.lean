/-
Stored `numeric` values.

What `make_result` stores has no zero digits at its ends, and a zero has weight zero and no
sign.  Then the weight is determined by the value, and a value can be stored just if it is
less than the power of the base after the largest weight and, unless it is zero, not less
than that of the smallest one.

A display scale covers the digits if the value is a multiple of its unit.  Then there are no
more digits after the point than the scale asks for.

Stored values that compare equal have the same digits and weight, so `hash_numeric` does not
tell them apart.
-/
import PrlPg.Proofs.NumericAdd
import PrlPg.Utils.NumericConvert

namespace PrlPg.Numeric

open Radix Rounding List NumericVar Digits Except Sign

def NumericData.value (num : NumericData) : Rat := (setVarFromNum num).value

/-- The form of a stored value that is not NaN. -/
structure NumericData.Stored (num : NumericData) : Prop where
  digits : Digits nbase num.digits
  stripped : Stripped num.digits
  notNan : num.sign ≠ .nan
  zero : num.digits = [] → num.sign = .pos ∧ num.weight = 0
  weight : -32768 ≤ num.weight ∧ num.weight ≤ 32767
  dscale : 0 ≤ num.dscale ∧ num.dscale ≤ 16383

instance (num : NumericData) : Decidable num.Stored :=
  decidable_of_iff (Digits nbase num.digits ∧ Stripped num.digits ∧ num.sign ≠ .nan ∧
    (num.digits = [] → num.sign = .pos ∧ num.weight = 0) ∧
    (-32768 ≤ num.weight ∧ num.weight ≤ 32767) ∧ 0 ≤ num.dscale ∧ num.dscale ≤ 16383)
    ⟨fun ⟨hd, hs, hn, hz, hw, hc⟩ => ⟨hd, hs, hn, hz, hw, hc⟩,
      fun h => ⟨h.digits, h.stripped, h.notNan, h.zero, h.weight, h.dscale⟩⟩

/-- The display scale covers all digits. -/
def NumericVar.WithinScale (var : NumericVar) : Prop := ∃ m : Int, var.abs = m * unit var.dscale

section Weight

variable {var : NumericVar}

section

variable (h : Digits nbase var.digits) (hs : Stripped var.digits)
include h hs

theorem abs_eq_zero_iff : var.abs = 0 ↔ var.digits = [] := by
  rw [NumericVar.abs, h.scaled_eq_zero nbase_pos]
  constructor
  · intro hzero
    cases hd : var.digits with
    | nil => rfl
    | cons d ds =>
      rw [hd] at hzero hs
      exact absurd (congrArg some (hzero d mem_cons_self)) hs.1
  intro hnil
  rw [hnil]
  exact forall_mem_nil _

section

variable (hne : var.digits ≠ [])
include hne

theorem zpow_weight_le : (nbase : Rat) ^ var.weight ≤ var.abs := by
  rw [NumericVar.abs]
  cases hd : var.digits with
  | nil => exact absurd hd hne
  | cons d ds =>
    rw [hd] at h hs
    exact h.le_scaled nbase_pos fun h0 => hs.1 (congrArg some h0)

theorem weight_le_iff (n : Int) : var.weight ≤ n ↔ var.abs < (nbase : Rat) ^ (n + 1) := by
  have hone : (1 : Rat) < nbase := by norm_num [nbase]
  constructor
  · intro hle
    exact (h.scaled_lt nbase_pos).trans_le (zpow_le_zpow_right₀ hone.le (by omega))
  intro hlt
  have := (zpow_weight_le h hs hne).trans_lt hlt
  have := (zpow_lt_zpow_iff_right₀ hone).mp this
  omega

theorem le_weight_iff (n : Int) : n ≤ var.weight ↔ (nbase : Rat) ^ n ≤ var.abs := by
  have hone : (1 : Rat) < nbase := by norm_num [nbase]
  constructor
  · intro hle
    exact (zpow_le_zpow_right₀ hone.le hle).trans (zpow_weight_le h hs hne)
  intro hle
  have := hle.trans_lt (h.scaled_lt (w := var.weight) nbase_pos)
  have := (zpow_lt_zpow_iff_right₀ hone).mp this
  omega

/-- The last digit of a stripped number is not after a place that the number is a multiple of. -/
theorem length_le_of_multiple {e m : Int}
    (hm : var.abs = m * (nbase : Rat) ^ e) : (var.digits.length : Int) ≤ var.weight + 1 - e := by
  by_contra hlt
  obtain ⟨init, last, hsplit⟩ : ∃ init last, var.digits = init ++ [last] :=
    ⟨_, _, (dropLast_append_getLast hne).symm⟩
  have hlast : last ≠ 0 := by
    intro h0
    refine hs.2 ?_
    rw [hsplit, h0, getLast?_append]
    rfl
  have hrange : 0 ≤ last ∧ last < nbase := h last (by rw [hsplit]; simp)
  have hbase : (nbase : Rat) ≠ 0 := by norm_num [nbase]
  obtain ⟨k, hk⟩ : ∃ k : Nat, e = (k + 1 : Nat) + (var.weight + 1 - var.digits.length) :=
    ⟨(e - (var.weight + 1 - var.digits.length) - 1).toNat, by omega⟩
  have habs : var.abs = (value nbase init * nbase + last : Int) *
      (nbase : Rat) ^ (var.weight + 1 - var.digits.length) := by
    rw [NumericVar.abs, scaled]
    congr 2
    rw [hsplit, value_append, value_cons, value_nil, length_nil, length_singleton,
      pow_zero, pow_one, mul_one, add_zero]
  rw [habs, hk, zpow_add₀ hbase, ← mul_assoc] at hm
  have heq := mul_right_cancel₀ (zpow_ne_zero _ hbase) hm
  have hint : value nbase init * nbase + last = m * nbase ^ (k + 1) := by exact_mod_cast heq
  have hdvd : nbase ∣ last := by
    refine (Int.dvd_add_right (Dvd.intro_left (value nbase init) rfl)).mp ?_
    exact ⟨m * nbase ^ k, by rw [hint, pow_succ]; ring⟩
  exact hlast (Int.eq_zero_of_dvd_of_nonneg_of_lt hrange.1 hrange.2 hdvd)

end

end

/-- A scale that covers the digits bounds their number. -/
theorem NumericVar.WithinScale.length_le (hw : var.WithinScale) (h : Digits nbase var.digits)
    (hs : Stripped var.digits) (hne : var.digits ≠ []) :
    (var.digits.length : Int) ≤ var.weight + 1 + (var.dscale + 3) / 4 := by
  obtain ⟨m, hm⟩ := hw
  obtain ⟨k, hk⟩ : ∃ k : Nat, (k : Int) = 4 * ((var.dscale + 3) / 4) - var.dscale :=
    ⟨_, Int.toNat_of_nonneg (by omega)⟩
  have hunit : unit var.dscale = (10 ^ k : Int) * (nbase : Rat) ^ (-((var.dscale + 3) / 4)) := by
    push_cast
    rw [unit, nbase_zpow, ← zpow_natCast, ← zpow_add₀ (by norm_num)]
    congr 1
    omega
  rw [hunit] at hm
  have hlen := @length_le_of_multiple var h hs hne (-((var.dscale + 3) / 4)) (m * 10 ^ k)
    (by rw [hm]; push_cast; ring)
  omega

end Weight

/-! ### Storing a result -/

/-- A value whose weight can be stored. -/
def Storable (x : Rat) : Prop :=
  x = 0 ∨ (nbase : Rat) ^ (-32768 : Int) ≤ |x| ∧ |x| < (nbase : Rat) ^ (32768 : Int)

theorem storable_of_natCast {m n : Nat} (h0 : 0 < m) (hlt : m < 10000 ^ n) (hn : n ≤ 32768) :
    Storable m := by
  have hone : (1 : Rat) ≤ nbase := by norm_num [nbase]
  have habs : |(m : Rat)| = m := abs_of_nonneg (Nat.cast_nonneg m)
  refine .inr ⟨?_, ?_⟩
  · rw [habs]
    exact (zpow_le_one_of_nonpos₀ hone (by decide)).trans (Nat.one_le_cast.mpr h0)
  calc |(m : Rat)| = m := habs
    _ < ((10000 ^ n : Nat) : Rat) := Nat.cast_lt.mpr hlt
    _ = (nbase : Rat) ^ (n : Int) := by norm_num [nbase]
    _ ≤ (nbase : Rat) ^ (32768 : Int) := zpow_le_zpow_right₀ hone (by exact_mod_cast hn)

theorem toInt16_eq_iff {x : Int} : toInt16 x = x ↔ -32768 ≤ x ∧ x ≤ 32767 := by
  unfold toInt16
  constructor
  · intro h
    have := Int.le_bmod (x := x) (m := 65536) (by decide)
    have := Int.bmod_lt (x := x) (m := 65536) (by decide)
    omega
  · intro h
    exact IntArith.bmod_of_range (n := 32768) (by omega) (by omega)

section Store

variable {var : NumericVar}

/-- The fields of a stored value, as `make_result` takes them from a variable. -/
def NumericVar.stored (var : NumericVar) : NumericData where
  digits := var.digits
  weight := var.weight
  sign := var.sign
  dscale := var.dscale

/-- `make_result` strips the value and checks that weight and scale can be stored. -/
theorem makeResult_eq (hs : var.sign ≠ .nan) : makeResult var =
      if (-32768 ≤ (stripVar var).weight ∧ (stripVar var).weight ≤ 32767) ∧
          0 ≤ var.dscale ∧ var.dscale ≤ 16383 then .ok (stripVar var).stored
      else .error .valueOverflows := by
  have hscale : var.dscale % (dscaleMask + 1) = var.dscale ↔ 0 ≤ var.dscale ∧ var.dscale ≤ 16383 := by
    rw [show ((dscaleMask : Int) + 1) = 16384 from rfl]
    omega
  have hweight : (if stripDigits var.digits = [] then 0
      else var.weight - ((var.digits.takeWhile (· == 0)).length : Int)) = (stripVar var).weight := by
    simp only [stripVar]
    split
    · rfl
    · rfl
  unfold makeResult
  rw [if_neg hs]
  simp only [hweight]
  by_cases hfit : (-32768 ≤ (stripVar var).weight ∧ (stripVar var).weight ≤ 32767) ∧
      0 ≤ var.dscale ∧ var.dscale ≤ 16383
  · have hw := toInt16_eq_iff.mpr hfit.1
    have hd := hscale.mpr hfit.2
    rw [if_neg (by rw [hw, hd]; simp), if_pos hfit, hw, hd, ← digits_stripVar, stored,
      sign_stripVar, digits_stripVar, dscale_stripVar]
  rw [if_neg hfit, if_pos]
  by_contra hnot
  rw [not_or, not_ne_iff, not_ne_iff] at hnot
  exact hfit ⟨toInt16_eq_iff.mp hnot.1, hscale.mp hnot.2⟩

theorem weight_stripVar_of_nil (hnil : (stripVar var).digits = []) : (stripVar var).weight = 0 := by
  rw [digits_stripVar] at hnil
  simp only [stripVar, if_pos hnil]

theorem storable_iff (h : var.Valid) :
    (-32768 ≤ (stripVar var).weight ∧ (stripVar var).weight ≤ 32767) ↔ Storable var.value := by
  have hdig := strip h.digits
  have hstrip : Stripped (stripVar var).digits := by
    rw [digits_stripVar]
    exact stripDigits_stripped _
  have hzero : var.value = 0 ↔ (stripVar var).digits = [] := by
    rw [← abs_eq_zero_iff hdig hstrip, abs_stripVar, ← h.abs_value, abs_eq_zero]
  unfold Storable
  by_cases hnil : (stripVar var).digits = []
  · rw [weight_stripVar_of_nil hnil]
    exact ⟨fun _ => .inl (hzero.mpr hnil), fun _ => by decide⟩
  · rw [le_weight_iff hdig hstrip hnil, weight_le_iff hdig hstrip hnil, abs_stripVar, h.abs_value]
    exact ⟨fun hfit => .inr hfit, fun hfit => hfit.resolve_left fun h0 => hnil (hzero.mp h0)⟩

/-- What is stripped is in the form of a stored value, if weight and scale are in range. -/
theorem stored_of_range (h : Digits nbase var.digits) (hs : var.sign ≠ .nan)
    (hweight : -32768 ≤ (stripVar var).weight ∧ (stripVar var).weight ≤ 32767)
    (hscale : 0 ≤ var.dscale ∧ var.dscale ≤ 16383) : (stripVar var).stored.Stored where
  digits := strip h
  stripped := by
    change Stripped (stripVar var).digits
    rw [digits_stripVar]
    exact stripDigits_stripped _
  notNan := (valid_stripVar h hs).notNan
  zero := by
    intro hnil
    refine ⟨(valid_stripVar h hs).zero ?_, weight_stripVar_of_nil hnil⟩
    rw [NumericVar.abs, show (stripVar var).digits = [] from hnil, scaled_nil]
  weight := hweight
  dscale := by
    change 0 ≤ (stripVar var).dscale ∧ (stripVar var).dscale ≤ 16383
    rwa [dscale_stripVar]

section

variable (h : var.Valid)
include h

theorem stored_stripVar (hvalue : Storable var.value)
    (hscale : 0 ≤ var.dscale ∧ var.dscale ≤ 16383) : (stripVar var).stored.Stored :=
  stored_of_range h.digits h.notNan ((storable_iff h).mpr hvalue) hscale

theorem value_stored_stripVar : (stripVar var).stored.value = var.value :=
  value_stripVar h.digits

theorem makeResult_of_storable (hvalue : Storable var.value)
    (hscale : 0 ≤ var.dscale ∧ var.dscale ≤ 16383) :
    makeResult var = .ok (stripVar var).stored := by
  rw [makeResult_eq h.notNan, if_pos ⟨(storable_iff h).mpr hvalue, hscale⟩]

theorem storable_of_makeResult {num : NumericData} (hrun : makeResult var = .ok num) :
    Storable var.value ∧ (0 ≤ var.dscale ∧ var.dscale ≤ 16383) ∧ num = (stripVar var).stored := by
  rw [makeResult_eq h.notNan] at hrun
  split_ifs at hrun with hfit
  exact ⟨(storable_iff h).mp hfit.1, hfit.2, (ok.inj hrun).symm⟩

end

/-- Whatever `make_result` stores is NaN or has the form of a stored value. -/
theorem stored_of_makeResult (h : Digits nbase var.digits) {num : NumericData}
    (hrun : makeResult var = .ok num) :
    num = { digits := [], weight := 0, sign := .nan, dscale := 0 } ∨ num.Stored := by
  by_cases hs : var.sign = .nan
  · rw [makeResult, if_pos hs] at hrun
    exact .inl (ok.inj hrun).symm
  rw [makeResult_eq hs] at hrun
  split_ifs at hrun with hfit
  obtain rfl := ok.inj hrun
  exact .inr (stored_of_range h hs hfit.1 hfit.2)

end Store

section Stored

variable {num : NumericData}

theorem NumericData.Stored.valid (h : num.Stored) : (setVarFromNum num).Valid where
  digits := h.digits
  notNan := h.notNan
  zero h0 := (h.zero ((@abs_eq_zero_iff (setVarFromNum num) h.digits h.stripped).mp h0)).1

theorem NumericData.Stored.length_le (h : num.Stored) (hw : (setVarFromNum num).WithinScale) :
    (num.digits.length : Int) ≤ num.weight + 1 + (num.dscale + 3) / 4 := by
  have hscale := h.dscale
  by_cases hnil : num.digits = []
  · rw [hnil, (h.zero hnil).2, length_nil]
    omega
  · exact hw.length_le h.digits h.stripped hnil

theorem value_of_integer (hpos : num.sign = .pos)
    (hlen : (num.digits.length : Int) = num.weight + 1) :
    num.value = value nbase num.digits := by
  change num.sign.factor *
    ((value nbase num.digits : Rat) * nbase ^ (num.weight + 1 - num.digits.length)) = _
  rw [hpos, hlen, sub_self, zpow_zero, mul_one, factor, one_mul]

theorem withinScale_of_integer (hlen : (num.digits.length : Int) = num.weight + 1)
    (hscale : num.dscale = 0) : (setVarFromNum num).WithinScale := by
  refine ⟨value nbase num.digits, ?_⟩
  change (value nbase num.digits : Rat) * nbase ^ (num.weight + 1 - num.digits.length) =
    _ * 10 ^ (-num.dscale)
  rw [hlen, hscale, sub_self, neg_zero, zpow_zero, zpow_zero]

end Stored

/-! ### Comparing values -/

section Compare

variable {var1 var2 : NumericVar} {l : List Int}

theorem value_eq_zero_of_nil (hnil : var1.digits = []) : var1.value = 0 := by
  rw [NumericVar.value, NumericVar.abs, hnil, scaled_nil, mul_zero]

/-- A stripped number with digits has the sign that it shows. -/
theorem NumericVar.Valid.value_cases (h : var1.Valid) (hs : Stripped var1.digits)
    (hne : var1.digits ≠ []) :
    var1.sign = .pos ∧ 0 < var1.value ∧ var1.value = var1.abs ∨
      var1.sign = .neg ∧ var1.value < 0 ∧ var1.value = -var1.abs := by
  have hpos : 0 < var1.abs := lt_of_le_of_ne (abs_nonneg h.digits)
    (Ne.symm fun h0 => hne ((abs_eq_zero_iff h.digits hs).mp h0))
  rcases h.sign_cases with hsign | ⟨hsign, -⟩
  · have hvalue : var1.value = var1.abs := by rw [value, hsign, factor, one_mul]
    exact .inl ⟨hsign, hvalue ▸ hpos, hvalue⟩
  have hvalue : var1.value = -var1.abs := by rw [value, hsign, factor, neg_one_mul]
  exact .inr ⟨hsign, by linarith, hvalue⟩

theorem cmpVar_spec (h1 : var1.Valid) (h2 : var2.Valid) (hs1 : Stripped var1.digits)
    (hs2 : Stripped var2.digits) : Compares (cmpVar var1 var2) var1.value var2.value := by
  unfold cmpVar
  by_cases hnil1 : var1.digits = []
  · have hzero := value_eq_zero_of_nil hnil1
    rw [if_pos hnil1, hzero]
    split
    next hnil2 =>
      rw [value_eq_zero_of_nil hnil2]
      exact .inr (.inl ⟨rfl, rfl⟩)
    next hnil2 =>
      rcases h2.value_cases hs2 hnil2 with ⟨hsign, hlt, -⟩ | ⟨hsign, hlt, -⟩
      · rw [if_neg (by rw [hsign]; decide)]
        exact .inr (.inr ⟨rfl, hlt⟩)
      · rw [if_pos hsign]
        exact .inl ⟨rfl, hlt⟩
  rw [if_neg hnil1]
  have hcases1 := h1.value_cases hs1 hnil1
  split
  next hnil2 =>
    rw [value_eq_zero_of_nil hnil2]
    rcases hcases1 with ⟨hsign, hlt, -⟩ | ⟨hsign, hlt, -⟩
    · rw [if_pos hsign]
      exact .inl ⟨rfl, hlt⟩
    · rw [if_neg (by rw [hsign]; decide)]
      exact .inr (.inr ⟨rfl, hlt⟩)
  next hnil2 =>
    rcases hcases1 with ⟨hsign1, hlt1, heq1⟩ | ⟨hsign1, hlt1, heq1⟩
    · rw [if_pos hsign1]
      rcases h2.value_cases hs2 hnil2 with ⟨hsign2, -, heq2⟩ | ⟨hsign2, hlt2, -⟩
      · rw [if_neg (by rw [hsign2]; decide), heq1, heq2]
        exact cmpAbs_spec h1.digits h2.digits
      · rw [if_pos hsign2]
        exact .inl ⟨rfl, by linarith⟩
    rw [if_neg (by rw [hsign1]; decide)]
    rcases h2.value_cases hs2 hnil2 with ⟨hsign2, hlt2, -⟩ | ⟨hsign2, -, heq2⟩
    · rw [if_pos hsign2]
      exact .inr (.inr ⟨rfl, by linarith⟩)
    rw [if_neg (by rw [hsign2]; decide), heq1, heq2]
    -- both are negative, and the absolute values are compared the other way
    rcases cmpAbs_spec h2.digits h1.digits with ⟨hc, hlt⟩ | ⟨hc, heq⟩ | ⟨hc, hlt⟩
    · exact .inl ⟨hc, neg_lt_neg hlt⟩
    · exact .inr (.inl ⟨hc, by rw [heq]⟩)
    · exact .inr (.inr ⟨hc, neg_lt_neg hlt⟩)

theorem cmpNumerics_spec {num1 num2 : NumericData} (h1 : num1.Stored) (h2 : num2.Stored) :
    Compares (cmpNumerics num1 num2) num1.value num2.value := by
  rw [cmpNumerics, if_neg h1.notNan, if_neg h2.notNan]
  exact cmpVar_spec h1.valid h2.valid h1.stripped h2.stripped

theorem eq_nil_of_not_any (hl : l.getLast? ≠ some 0)
    (h : ¬ l.any (· ≠ 0) = true) : l = [] := by
  by_contra hne
  refine hl ((getLast?_eq_some_getLast hne).trans (congrArg some ?_))
  by_contra h0
  exact h (any_eq_true.mpr ⟨_, getLast_mem hne, decide_eq_true h0⟩)

/-- Without zeroes at the end, digits that compare equal are the same. -/
theorem eq_of_cmpDigits {l m : List Int} (hl : l.getLast? ≠ some 0) (hm : m.getLast? ≠ some 0)
    (h : cmpDigits l m = 0) : l = m := by
  have htail {x : Int} {xs : List Int} (hx : (x :: xs).getLast? ≠ some 0) :
      xs.getLast? ≠ some 0 := by
    cases xs with
    | nil => simp
    | cons y ys => rwa [getLast?_cons_cons] at hx
  induction l, m using cmpDigits.induct with
  | case1 d ds e es hne hgt => rw [cmpDigits, if_pos hne, if_pos hgt] at h; cases h
  | case2 d ds e es hne hgt => rw [cmpDigits, if_pos hne, if_neg hgt] at h; cases h
  | case3 d ds e es hne ih =>
    rw [cmpDigits, if_neg hne] at h
    rw [ih (htail hl) (htail hm) h, Int.sub_eq_zero.mp (not_not.mp hne)]
  | case4 l m hcons =>
    rw [cmpDigits, cmpRest] at h
    · split_ifs at h with h1 h2
      · cases h
      · rw [eq_nil_of_not_any hl h1, eq_nil_of_not_any hm h2]
    · exact hcons

theorem skipHigh_of_stripped (hs : Stripped l) (hne : l ≠ []) (w w' : Int) :
    skipHigh l w w' = if w > w' then none else some (l, w) := by
  cases l with
  | nil => cases hne rfl
  | cons d ds =>
    have hd : d ≠ 0 := fun h0 => hs.1 (congrArg some h0)
    rw [skipHigh, if_pos hd]

theorem eq_of_cmpAbs (hs1 : Stripped var1.digits) (hs2 : Stripped var2.digits)
    (hne1 : var1.digits ≠ []) (hne2 : var2.digits ≠ []) (h : cmpAbs var1 var2 = 0) :
    var1.digits = var2.digits ∧ var1.weight = var2.weight := by
  rw [cmpAbs, cmpAbsCommon, skipHigh_of_stripped hs1 hne1] at h
  split_ifs at h with h1
  · cases h
  simp only [skipHigh_of_stripped hs2 hne2] at h
  split_ifs at h with h2
  · cases h
  have hw : var1.weight = var2.weight := by omega
  simp only [hw, if_true] at h
  exact ⟨eq_of_cmpDigits hs1.2 hs2.2 h, hw⟩

section

variable {num1 num2 : NumericData} (h1 : num1.Stored) (h2 : num2.Stored)
include h1 h2

/-- Stored values that compare equal differ in their display scale at most. -/
theorem NumericData.Stored.eq_of_cmp (h : cmpVar (setVarFromNum num1) (setVarFromNum num2) = 0) :
    num1.digits = num2.digits ∧ num1.weight = num2.weight := by
  unfold cmpVar at h
  split_ifs at h with hnil1 hnil2 _ hnil2
  case pos => exact ⟨hnil1.trans hnil2.symm, (h1.zero hnil1).2.trans (h2.zero hnil2).2.symm⟩
  all_goals first
    | exact @eq_of_cmpAbs (setVarFromNum num1) _ h1.stripped h2.stripped hnil1 hnil2 h
    | exact (eq_of_cmpAbs h2.stripped h1.stripped hnil2 hnil1 h).imp Eq.symm Eq.symm
    | cases h

theorem NumericData.Stored.eq_of_value (hvalue : num1.value = num2.value) :
    num1 = { num2 with dscale := num1.dscale } := by
  obtain ⟨hdigits, hweight⟩ := h1.eq_of_cmp h2
    ((cmpVar_spec h1.valid h2.valid h1.stripped h2.stripped).zero_iff.mpr hvalue)
  have hsign : num1.sign = num2.sign := by
    rcases h1.valid.sign_cases with hs1 | ⟨hs1, -⟩
    · have hpos := h1.valid.value_nonneg_iff.mpr hs1
      exact hs1.trans (h2.valid.value_nonneg_iff.mp (hpos.trans_eq hvalue)).symm
    rcases h2.valid.sign_cases with hs2 | ⟨hs2, -⟩
    · have hpos := h2.valid.value_nonneg_iff.mpr hs2
      exact (h1.valid.value_nonneg_iff.mp (hpos.trans_eq hvalue.symm)).trans hs2.symm
    · exact hs1.trans hs2.symm
  cases num1
  cases num2
  simp_all

end

end Compare

/-! ### Order and hash -/

/-- What `make_result` can produce. -/
def Made : Type := { num : NumericData // ∃ var, Digits nbase var.digits ∧ makeResult var = .ok num }

theorem Made.cases (a : Made) : a.1.sign = .nan ∨ a.1.Stored := by
  obtain ⟨var, hdig, hrun⟩ := a.2
  rcases stored_of_makeResult hdig hrun with h | h
  · exact .inl (by rw [h])
  · exact .inr h

/-- The rational value, and all NaNs above. -/
def NumericData.rank (num : NumericData) : WithTop Rat := if num.sign = .nan then ⊤ else num.value

/-- `cmp_numerics` is the order of the values with all NaNs at its top, and values that compare
equal have the same hash, whatever their display scales. -/
theorem cmpNumerics_order_and_hash (a b : Made) : (cmpNumerics a.1 b.1 < 0 ↔ a.1.rank < b.1.rank) ∧
      (cmpNumerics a.1 b.1 = 0 ↔ a.1.rank = b.1.rank) ∧
      (0 < cmpNumerics a.1 b.1 ↔ b.1.rank < a.1.rank) ∧
      (cmpNumerics a.1 b.1 = 0 → ∀ hashAny, hashNumeric hashAny a.1 = hashNumeric hashAny b.1) := by
  rcases a.cases with ha | ha
  · rcases b.cases with hb | hb
    · simp [cmpNumerics, hashNumeric, NumericData.rank, ha, hb]
    · simp [cmpNumerics, NumericData.rank, ha, hb.notNan]
  rcases b.cases with hb | hb
  · simp [cmpNumerics, NumericData.rank, ha.notNan, hb]
  have hcmp := cmpNumerics_spec ha hb
  simp only [NumericData.rank, if_neg ha.notNan, if_neg hb.notNan, WithTop.coe_lt_coe,
    WithTop.coe_inj]
  refine ⟨hcmp.neg_iff, hcmp.zero_iff, hcmp.pos_iff, fun h hashAny => ?_⟩
  rw [cmpNumerics, if_neg ha.notNan, if_neg hb.notNan] at h
  obtain ⟨hdigits, hweight⟩ := ha.eq_of_cmp hb h
  simp only [hashNumeric, if_neg ha.notNan, if_neg hb.notNan, hdigits, hweight]

end PrlPg.Numeric
