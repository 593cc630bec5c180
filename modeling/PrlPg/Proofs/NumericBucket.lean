/-
Histogram buckets of `numeric` values.

Outside of the range `width_bucket` compares, and is right.  Inside of it, `compute_bucket`
first divides and rounds the quotient at the scale that `select_div_scale` chooses, and then
multiplies by the number of buckets.  The product, the sum and the floor are exact, as the
number of buckets has too few digits for an overflow; so the bucket is that of the rounded
quotient, and it is the right one just if the rounding does not move it across a boundary
(`widthBucket_exact_iff`).
-/
import PrlPg.Proofs.NumericInt

namespace PrlPg.Numeric

open Radix Rounding Sign

/-! ### Differences -/

/-- At most as many digits as nearly fill the largest allocation. -/
def NumericData.Sized (num : NumericData) : Prop := num.digits.length ≤ 536000000

instance (num : NumericData) : Decidable num.Sized := inferInstanceAs (Decidable (_ ≤ _))

section Difference

variable {num1 num2 : NumericData}

/-- All digits are before a common place. -/
theorem NumericData.Stored.multiple (h : num1.Stored) (hsize : num1.Sized) :
    ∃ m : Int, num1.value = m * (nbase : Rat) ^ (-536032767 : Int) := by
  have hweight := h.weight
  unfold NumericData.Sized at hsize
  obtain ⟨k, hk⟩ : ∃ k : Nat, num1.weight + 1 - num1.digits.length = k + (-536032767 : Int) :=
    ⟨(num1.weight + 1 - num1.digits.length + 536032767).toNat, by omega⟩
  have habs : (setVarFromNum num1).abs =
      (Radix.value nbase num1.digits * nbase ^ k : Int) * (nbase : Rat) ^ (-536032767 : Int) := by
    change (Radix.value nbase num1.digits : Rat) *
      (nbase : Rat) ^ (num1.weight + 1 - num1.digits.length) = _
    rw [hk, zpow_add₀ (by norm_num [nbase]), zpow_natCast]
    push_cast
    ring
  rw [NumericData.value, NumericVar.value, habs]
  rcases h.valid.sign_cases with hs | ⟨hs, -⟩
  · exact ⟨_, by rw [hs, factor, one_mul]⟩
  · exact ⟨-(Radix.value nbase num1.digits * nbase ^ k), by rw [hs, factor]; push_cast; ring⟩

theorem NumericData.Stored.abs_value_lt (h : num1.Stored) :
    |num1.value| < (nbase : Rat) ^ (32768 : Int) := by
  have hweight := h.weight.2
  rw [NumericData.value, h.valid.abs_value]
  refine (h.digits.scaled_lt nbase_pos).trans_le (zpow_le_zpow_right₀ (by norm_num [nbase]) ?_)
  change num1.weight + 1 ≤ 32768
  omega

/-- The sizes of a difference of stored values. -/
theorem sub_sizes (h1 : num1.Stored) (h2 : num2.Stored) (hsize1 : num1.Sized) (hsize2 : num2.Sized)
    (hne : (sub (setVarFromNum num1) (setVarFromNum num2)).digits ≠ []) :
    -536032767 ≤ (sub (setVarFromNum num1) (setVarFromNum num2)).weight ∧
      (sub (setVarFromNum num1) (setVarFromNum num2)).weight ≤ 32768 ∧
      (sub (setVarFromNum num1) (setVarFromNum num2)).digits.length ≤ 536065536 := by
  have hholds := sub_spec h1.valid h2.valid
  obtain ⟨m1, hm1⟩ := h1.multiple hsize1
  obtain ⟨m2, hm2⟩ := h2.multiple hsize2
  have hlt1 := h1.abs_value_lt
  have hlt2 := h2.abs_value_lt
  generalize sub (setVarFromNum num1) (setVarFromNum num2) = diff at hne hholds ⊢
  have hvalue : diff.value = num1.value - num2.value := hholds.value
  have hdig := hholds.valid.digits
  have hstripped := hholds.stripped
  have habs : diff.abs = (|m1 - m2| : Int) * (nbase : Rat) ^ (-536032767 : Int) := by
    rw [← hholds.valid.abs_value, hvalue, hm1, hm2, ← sub_mul, abs_mul,
      abs_of_pos (zpow_nbase_pos _)]
    push_cast
    rfl
  have hlow : -536032767 ≤ diff.weight := by
    rw [le_weight_iff hdig hstripped hne, habs]
    refine le_mul_of_one_le_left (zpow_nbase_pos _).le ?_
    have hpos : 0 < |m1 - m2| := by
      refine abs_pos.mpr fun h0 => hne ?_
      rw [← abs_eq_zero_iff hdig hstripped, habs, h0, abs_zero, Int.cast_zero, zero_mul]
    exact_mod_cast hpos
  have hhigh : diff.weight ≤ 32768 := by
    rw [weight_le_iff hdig hstripped hne, ← hholds.valid.abs_value, hvalue,
      zpow_add_one₀ (by norm_num [nbase])]
    have htri := abs_sub num1.value num2.value
    have hbase : (2 : Rat) ≤ nbase := by norm_num [nbase]
    have hdouble := mul_le_mul_of_nonneg_left hbase (zpow_nbase_pos 32768).le
    linarith
  have hlen := length_le_of_multiple hdig hstripped hne habs
  exact ⟨hlow, hhigh, by omega⟩

/-- Division of two differences at a scale that can be displayed. -/
theorem divRange_of_sub {num3 num4 : NumericData} (h1 : num1.Stored) (h2 : num2.Stored)
    (h3 : num3.Stored) (h4 : num4.Stored) (hsize1 : num1.Sized) (hsize2 : num2.Sized)
    (hsize3 : num3.Sized) (hsize4 : num4.Sized)
    (hne2 : (sub (setVarFromNum num3) (setVarFromNum num4)).digits ≠ []) {rscale : Int}
    (hscale : 0 ≤ rscale ∧ rscale ≤ 1000)
    (hne1 : (sub (setVarFromNum num1) (setVarFromNum num2)).digits ≠ []) :
    DivRange (sub (setVarFromNum num1) (setVarFromNum num2))
      (sub (setVarFromNum num3) (setVarFromNum num4)) rscale := by
  obtain ⟨hlow1, hhigh1, hlen1⟩ := sub_sizes h1 h2 hsize1 hsize2 hne1
  obtain ⟨hlow2, hhigh2, hlen2⟩ := sub_sizes h3 h4 hsize3 hsize4 hne2
  refine ⟨by omega, by omega, by omega, ⟨hscale.1, ?_⟩, ?_⟩ <;> unfold intMax <;> omega

end Difference

/-! ### The number of buckets -/

section Count

theorem length_int8Digits (fuel : Nat) : ∀ (uval : Nat) (digits : List Int),
    (int8Digits fuel uval digits).length ≤ fuel + digits.length := by
  induction fuel with
  | zero => exact fun _ digits => le_of_eq (zero_add _).symm
  | succ fuel ih =>
    intro uval digits
    unfold int8Digits
    simp only
    split
    · rw [List.length_cons]
      omega
    refine (ih _ _).trans ?_
    rw [List.length_cons]
    omega

/-- The variable for the number of buckets. -/
structure IsCount (var : NumericVar) (count : Int) : Prop where
  valid : var.Valid
  value : var.value = count
  few : var.digits.length ≤ 20
  weight : (var.digits.length : Int) = var.weight + 1
  dscale : var.dscale = 0

theorem isCount_int8ToNumericvar {count : Int} (hlo : 1 ≤ count) (hhi : count ≤ 2147483646) :
    IsCount (int8ToNumericvar count) count := by
  obtain ⟨hvalid, hvalue⟩ := @int8ToNumericvar_spec count (by omega) (by omega)
  have hne : count ≠ 0 := by omega
  refine ⟨hvalid, hvalue, ?_, ?_, ?_⟩
  · simp only [int8ToNumericvar, if_neg hne]
    refine (length_int8Digits 5 _ []).trans ?_
    decide
  · simp only [int8ToNumericvar, if_neg hne]
    omega
  · simp only [int8ToNumericvar, if_neg hne]

/-- A multiple of the number of buckets is exact. -/
theorem mulVar_count {arith : Arith} {var countVar : NumericVar} {count : Int} (h : var.Valid)
    (hstripped : Stripped var.digits) (hdscale : 0 ≤ var.dscale) (hscale : var.WithinScale)
    (hcount : IsCount countVar count) :
    ∃ result, mulVar arith var countVar (var.dscale + countVar.dscale) = .ok result ∧
      result.Valid ∧ Stripped result.digits ∧ result.value = var.value * count := by
  have hclip : Unclipped var countVar (var.dscale + countVar.dscale) := by
    intro hne _
    have hlen := hscale.length_le h.digits hstripped hne
    have hlen2 := hcount.weight
    rw [hcount.dscale]
    unfold decDigits mulGuardDigits
    omega
  have hw : countVar.WithinScale := by
    refine ⟨|count|, ?_⟩
    rw [← hcount.valid.abs_value, hcount.value, hcount.dscale, unit_zero, mul_one, Int.cast_abs]
  obtain ⟨result, hrun, hvalid, hstrip, -, hvalue⟩ := @mulVar_of_fits arith _ _ _ h hcount.valid hclip
    fun _ _ => carriesFit_of_few h.digits hcount.valid.digits
      (hcount.few.trans (by decide))
  refine ⟨result, hrun, hvalid, hstrip, ?_⟩
  rw [hvalue, roundTo_product hscale hw, factor_productSign h hcount.valid, ← hcount.value,
    NumericVar.value, NumericVar.value]
  ring

end Count

/-! ### The bucket of a quotient -/

section Bucket

variable {var countVar : NumericVar} {count : Int}

theorem value_constOne : constOne.value = 1 := by
  norm_num [NumericVar.value, NumericVar.abs, constOne, factor, scaled, value]

theorem toInt32_of_range {x : Int} (hlo : -2147483648 ≤ x) (hhi : x < 2147483648) : toInt32 x = x :=
  IntArith.bmod_of_range (n := 2147483648) hlo hhi

theorem numericvarToInt4_of_integer (h : var.Valid) {m : Int} (hm : var.value = m)
    (hlo : -2147483648 ≤ m) (hhi : m < 2147483648) : numericvarToInt4 var = .ok m := by
  have hround : (m : Rat) = roundAway 1 var.value := by rw [hm, roundAway_intCast]
  have hint8 := (numericvarToInt8_exact_iff h hround).mpr fun ⟨k, _, _, hk⟩ => by omega
  rw [int8Exact, if_pos ⟨by omega, by omega⟩] at hint8
  rw [numericvarToInt4, hint8]
  simp only [toInt32_of_range hlo hhi, ne_eq, not_true, if_false]

/-- Without a sign the floor is the truncated value. -/
theorem floorVar_of_pos (h : var.Valid) (hpos : var.sign = .pos) :
    (floorVar var).Valid ∧ (floorVar var).value = ⌊var.value⌋ := by
  have hfloor : floorVar var = truncVar var 0 := by
    rw [floorVar, if_neg (fun hneg => noConfusion (hpos.symm.trans hneg.1))]
  obtain ⟨habs, hdig⟩ := truncVar_spec h.digits 0
  have hsign : (truncVar var 0).sign = .pos := by
    rcases sign_truncVar var 0 with hs | ⟨-, hs⟩
    · rw [hs, hpos]
    · exact hs
  rw [hfloor]
  refine ⟨NumericVar.valid_of_pos hdig hsign, ?_⟩
  rw [NumericVar.value, hsign, habs, unit_zero, NumericVar.value, hpos, factor, one_mul,
    one_mul, floorTo, mul_one, div_one]

/-- Rounding does not leave the range. -/
theorem roundTo_unit_range {rscale : Int} (hscale : 0 ≤ rscale) {r : Rat} (h0 : 0 ≤ r) (h1 : r ≤ 1) :
    0 ≤ roundTo (unit rscale) r ∧ roundTo (unit rscale) r ≤ 1 := by
  have hu := unit_pos rscale
  obtain ⟨n, rfl⟩ := Int.eq_ofNat_of_zero_le hscale
  have hone : ((10 ^ n : Int) : Rat) * unit n = 1 := by
    push_cast
    rw [unit, ← zpow_natCast, ← zpow_add₀ (by norm_num), add_neg_cancel, zpow_zero]
  have hround := roundTo_int_mul hu.ne' (10 ^ n)
  rw [hone] at hround
  constructor
  · exact (roundTo_zero _).ge.trans (roundTo_mono hu h0)
  · exact (roundTo_mono hu h1).trans hround.le

/-- From the rounded quotient to the bucket nothing is lost. -/
theorem bucket_of_quotient (arith : Arith) {quotient : NumericVar} {rscale : Int} {r : Rat}
    (hrscale : 0 ≤ rscale) (hr0 : 0 ≤ r) (hr1 : r ≤ 1) (h : quotient.Valid)
    (hstripped : Stripped quotient.digits) (hdscale : quotient.dscale = rscale)
    (hquotient : quotient.value = roundTo (unit rscale) r)
    (hcount : IsCount countVar count) (hlo : 1 ≤ count) (hhi : count ≤ 2147483646) :
    ∃ product, mulVar arith quotient countVar (quotient.dscale + countVar.dscale) = .ok product ∧
      numericvarToInt4 (floorVar (add product constOne)) =
        .ok (1 + ⌊count * roundTo (unit rscale) r⌋) := by
  obtain ⟨h0, h1⟩ := roundTo_unit_range hrscale hr0 hr1
  have hscale : quotient.WithinScale := by
    refine ⟨⌊r / unit rscale + 1 / 2⌋, ?_⟩
    rw [hdscale, ← h.abs_value, hquotient, abs_of_nonneg h0, roundTo]
  rw [← hquotient] at h0 h1 ⊢
  subst hdscale
  obtain ⟨product, hrun, hvalid, hstrip, hvalue⟩ :=
    @mulVar_count arith _ _ _ h hstripped hrscale hscale hcount
  refine ⟨product, hrun, ?_⟩
  have hone : constOne.Valid := NumericVar.valid_of_pos (by decide) rfl
  have hholds := add_spec hvalid hone
  have hcount0 : (1 : Rat) ≤ count := by exact_mod_cast hlo
  have hsum : (add product constOne).value = count * quotient.value + 1 := by
    rw [hholds.value, hvalue, mul_comm, value_constOne]
  have hnonneg : 0 ≤ count * quotient.value := mul_nonneg (by linarith) h0
  have hle : count * quotient.value ≤ count := mul_le_of_le_one_right (by linarith) h1
  obtain ⟨hfvalid, hfloor⟩ := floorVar_of_pos hholds.valid
    (hholds.valid.value_nonneg_iff.mp (by rw [hsum]; linarith))
  have hfloor0 : 0 ≤ ⌊count * quotient.value⌋ := Int.floor_nonneg.mpr hnonneg
  have hfloor1 : ⌊count * quotient.value⌋ ≤ count :=
    Int.floor_le_iff.mpr (lt_of_le_of_lt hle (lt_add_one _))
  refine numericvarToInt4_of_integer hfvalid ?_ (by omega) (by omega)
  rw [hfloor, hsum, Int.floor_add_one, add_comm]

variable {num1 num2 num3 num4 : NumericData}

theorem selectDivScale_range (var1 var2 : NumericVar) :
    0 ≤ selectDivScale var1 var2 ∧ selectDivScale var1 var2 ≤ 1000 := by
  unfold selectDivScale
  have hmin : minDisplayScale = 0 := rfl
  have hmax : maxDisplayScale = 1000 := rfl
  simp only [hmin, hmax]
  omega

/-- The quotient of two differences, rounded. -/
theorem divVar_sub {arith : Arith} (h1 : num1.Stored) (h2 : num2.Stored) (h3 : num3.Stored)
    (h4 : num4.Stored) (hsize1 : num1.Sized) (hsize2 : num2.Sized) (hsize3 : num3.Sized)
    (hsize4 : num4.Sized) {rscale : Int} (hscale : 0 ≤ rscale ∧ rscale ≤ 1000)
    (hx : 0 ≤ num1.value - num2.value) (hy : 0 < num3.value - num4.value) :
    ∃ quotient, divVar arith (sub (setVarFromNum num1) (setVarFromNum num2))
        (sub (setVarFromNum num3) (setVarFromNum num4)) rscale true = .ok quotient ∧
      quotient.Valid ∧ Stripped quotient.digits ∧ quotient.dscale = rscale ∧
      quotient.value = roundTo (unit rscale)
        ((num1.value - num2.value) / (num3.value - num4.value)) := by
  have hholds1 := sub_spec h1.valid h2.valid
  have hholds2 := sub_spec h3.valid h4.valid
  have hvalue1 : (sub (setVarFromNum num1) (setVarFromNum num2)).value =
      num1.value - num2.value := hholds1.value
  have hvalue2 : (sub (setVarFromNum num3) (setVarFromNum num4)).value =
      num3.value - num4.value := hholds2.value
  have hne : (sub (setVarFromNum num3) (setVarFromNum num4)).digits ≠ [] := by
    intro hnil
    rw [value_eq_zero_of_nil hnil] at hvalue2
    linarith
  have hfirst : 0 < digitAt (sub (setVarFromNum num3) (setVarFromNum num4)).digits 0 := by
    have hstripped := hholds2.stripped.1
    have hdig := hholds2.valid.digits
    cases hd : (sub (setVarFromNum num3) (setVarFromNum num4)).digits with
    | nil => exact absurd hd hne
    | cons d ds =>
      rw [hd] at hstripped hdig
      exact lt_of_le_of_ne (Digits.cons_iff.mp hdig).1.1
        (Ne.symm fun h0 => hstripped (congrArg some h0))
  obtain ⟨quotient, hrun, hvalid, hstripped, hdscale, hvalue⟩ := @divVar_spec arith _ _ _
    hholds1.valid hholds2.valid hfirst
    (divRange_of_sub h1 h2 h3 h4 hsize1 hsize2 hsize3 hsize4 hne hscale) true
  refine ⟨quotient, hrun, hvalid, hstripped, hdscale, ?_⟩
  rw [hvalue, if_pos rfl, roundAway_quotient hholds1.valid hholds2.valid, hvalue1, hvalue2,
    roundAway_of_nonneg (div_nonneg hx hy.le)]

end Bucket

/-! ### Inside of the range -/

/-- The scale at which the quotient is rounded. -/
def bucketScale (operand bound1 bound2 : NumericData) : Int :=
  if cmpVar (setVarFromNum bound1) (setVarFromNum bound2) < 0 then
    selectDivScale (sub (setVarFromNum operand) (setVarFromNum bound1))
      (sub (setVarFromNum bound2) (setVarFromNum bound1))
  else
    selectDivScale (sub (setVarFromNum bound1) (setVarFromNum operand))
      (sub (setVarFromNum bound1) (setVarFromNum bound2))

/-- Not before the first bound and before the second, in the direction of the bounds. -/
def Inside (x bound1 bound2 : Rat) : Prop := bound1 ≤ x ∧ x < bound2 ∨ bound2 < x ∧ x ≤ bound1

/-- Before the first bound. -/
def Before (x bound1 bound2 : Rat) : Prop :=
  bound1 < bound2 ∧ x < bound1 ∨ bound2 < bound1 ∧ bound1 < x

/-- At the second bound or after it. -/
def After (x bound1 bound2 : Rat) : Prop :=
  bound1 < bound2 ∧ bound2 ≤ x ∨ bound2 < bound1 ∧ x ≤ bound2

instance (x bound1 bound2 : Rat) : Decidable (Before x bound1 bound2) :=
  inferInstanceAs (Decidable (_ ∨ _))

instance (x bound1 bound2 : Rat) : Decidable (After x bound1 bound2) :=
  inferInstanceAs (Decidable (_ ∨ _))

/-- The position in the range, of which the bounds are at zero and one. -/
def position (x bound1 bound2 : Rat) : Rat := (x - bound1) / (bound2 - bound1)

section Inside

variable {x bound1 bound2 : Rat}

theorem Inside.not_before (h : Inside x bound1 bound2) : ¬ Before x bound1 bound2 := by
  rcases h with ⟨ha, hb⟩ | ⟨ha, hb⟩ <;> rintro (⟨hc, hd⟩ | ⟨hc, hd⟩) <;> linarith

theorem Inside.not_after (h : Inside x bound1 bound2) : ¬ After x bound1 bound2 := by
  rcases h with ⟨ha, hb⟩ | ⟨ha, hb⟩ <;> rintro (⟨hc, hd⟩ | ⟨hc, hd⟩) <;> linarith

theorem inside_of_not (hne : bound1 ≠ bound2) (hbefore : ¬ Before x bound1 bound2)
    (hafter : ¬ After x bound1 bound2) : Inside x bound1 bound2 := by
  rcases lt_or_gt_of_ne hne with hlt | hlt
  · refine .inl ⟨?_, ?_⟩
    · by_contra hx
      exact hbefore (.inl ⟨hlt, not_le.mp hx⟩)
    · by_contra hx
      exact hafter (.inl ⟨hlt, not_lt.mp hx⟩)
  refine .inr ⟨?_, ?_⟩
  · by_contra hx
    exact hafter (.inr ⟨hlt, not_lt.mp hx⟩)
  · by_contra hx
    exact hbefore (.inr ⟨hlt, not_le.mp hx⟩)

theorem Inside.position_range (h : Inside x bound1 bound2) :
    0 ≤ position x bound1 bound2 ∧ position x bound1 bound2 < 1 := by
  rcases h with ⟨h1, h2⟩ | ⟨h1, h2⟩
  · have hpos : 0 < bound2 - bound1 := by linarith
    exact ⟨div_nonneg (by linarith) hpos.le, (div_lt_one hpos).mpr (by linarith)⟩
  · have hneg : bound2 - bound1 < 0 := by linarith
    exact ⟨div_nonneg_of_nonpos (by linarith) hneg.le, (div_lt_one_of_neg hneg).mpr (by linarith)⟩

end Inside

section Compute

variable {operand bound1 bound2 : NumericData} {countVar : NumericVar} {count : Int}

/-- The bucket that is computed is that of the rounded position. -/
theorem computeBucket_spec (arith : Arith) (h : operand.Stored) (h1 : bound1.Stored)
    (h2 : bound2.Stored) (hsize : operand.Sized) (hsize1 : bound1.Sized) (hsize2 : bound2.Sized)
    (hcount : IsCount countVar count) (hlo : 1 ≤ count) (hhi : count ≤ 2147483646)
    (hinside : Inside operand.value bound1.value bound2.value) :
    ∃ result, computeBucket arith operand bound1 bound2 countVar = .ok result ∧
      numericvarToInt4 result = .ok (1 + ⌊count * roundTo (unit (bucketScale operand bound1 bound2))
        (position operand.value bound1.value bound2.value)⌋) := by
  obtain ⟨hpos0, hpos1⟩ := hinside.position_range
  unfold computeBucket bucketScale
  rcases cmpVar_spec h1.valid h2.valid h1.stripped h2.stripped with
    ⟨hcmp, hlt⟩ | ⟨-, heq⟩ | ⟨hcmp, hlt⟩
  · -- descending bounds
    have hx : 0 ≤ bound1.value - operand.value := by
      rcases hinside with ⟨ha, hb⟩ | ⟨ha, hb⟩ <;> unfold NumericData.value at * <;> linarith
    have hy : 0 < bound1.value - bound2.value := by
      unfold NumericData.value
      linarith
    have hposition : (bound1.value - operand.value) / (bound1.value - bound2.value) =
        position operand.value bound1.value bound2.value := by
      rw [position, ← neg_sub operand.value, ← neg_sub bound2.value, neg_div_neg_eq]
    obtain ⟨quotient, hrun, hvalid, hstripped, hdscale, hvalue⟩ := @divVar_sub _ _ _ _ arith
      h1 h h1 h2 hsize1 hsize hsize1 hsize2 _
      (selectDivScale_range (sub (setVarFromNum bound1) (setVarFromNum operand))
        (sub (setVarFromNum bound1) (setVarFromNum bound2))) hx hy
    rw [hposition] at hvalue
    obtain ⟨product, hmul, hbucket⟩ := bucket_of_quotient arith (selectDivScale_range _ _).1
      hpos0 hpos1.le hvalid hstripped hdscale hvalue hcount hlo hhi
    have hge : ¬ cmpVar (setVarFromNum bound1) (setVarFromNum bound2) < 0 := by
      rw [hcmp]
      decide
    simp only [if_neg hge, hrun, ok_bind, hmul]
    exact ⟨_, rfl, hbucket⟩
  · exfalso
    rcases hinside with ⟨ha, hb⟩ | ⟨ha, hb⟩ <;> unfold NumericData.value at * <;> linarith
  have hx : 0 ≤ operand.value - bound1.value := by
    rcases hinside with ⟨ha, hb⟩ | ⟨ha, hb⟩ <;> unfold NumericData.value at * <;> linarith
  have hy : 0 < bound2.value - bound1.value := by
    unfold NumericData.value
    linarith
  obtain ⟨quotient, hrun, hvalid, hstripped, hdscale, hvalue⟩ := @divVar_sub _ _ _ _ arith
    h h1 h2 h1 hsize hsize1 hsize2 hsize1 _
    (selectDivScale_range (sub (setVarFromNum operand) (setVarFromNum bound1))
      (sub (setVarFromNum bound2) (setVarFromNum bound1))) hx hy
  obtain ⟨product, hmul, hbucket⟩ := bucket_of_quotient arith (selectDivScale_range _ _).1
    hpos0 hpos1.le hvalid hstripped hdscale hvalue hcount hlo hhi
  have hless : cmpVar (setVarFromNum bound1) (setVarFromNum bound2) < 0 := by
    rw [hcmp]
    decide
  simp only [if_pos hless, hrun, ok_bind, hmul]
  exact ⟨_, rfl, hbucket⟩

/-! ### The whole function -/

/-- The bucket as it is to be. -/
def bucketExact (x bound1 bound2 : Rat) (count : Int) : Int :=
  if Before x bound1 bound2 then 0
  else if After x bound1 bound2 then count + 1
  else 1 + ⌊count * (x - bound1) / (bound2 - bound1)⌋

theorem bucketExact_of_inside {x b1 b2 : Rat} (h : Inside x b1 b2) (count : Int) :
    bucketExact x b1 b2 count = 1 + ⌊count * position x b1 b2⌋ := by
  rw [bucketExact, if_neg h.not_before, if_neg h.not_after, mul_div_assoc, position]

theorem numericvarToInt4_constZero : numericvarToInt4 constZero = .ok 0 := by decide

/-- The bucket after the last one. -/
theorem numericvarToInt4_add_one (hlo : 1 ≤ count) (hhi : count ≤ 2147483646) :
    numericvarToInt4 (add (int8ToNumericvar count) constOne) = .ok (count + 1) := by
  have hcount := isCount_int8ToNumericvar hlo hhi
  have hone : constOne.Valid := NumericVar.valid_of_pos (by decide) rfl
  have hholds := add_spec hcount.valid hone
  refine numericvarToInt4_of_integer hholds.valid ?_ (by omega) (by omega)
  rw [hholds.value, hcount.value, value_constOne]
  push_cast
  rfl

/-- The function by the three comparisons that it makes. -/
theorem widthBucketNumeric_eq (arith : Arith) (h : operand.Stored) (h1 : bound1.Stored)
    (h2 : bound2.Stored) (hlo : 1 ≤ count) (hhi : count ≤ 2147483646) :
    widthBucketNumeric arith operand bound1 bound2 count =
      if bound1.value = bound2.value then .error .boundsEqual
      else if Before operand.value bound1.value bound2.value then .ok 0
      else if After operand.value bound1.value bound2.value then .ok (count + 1)
      else computeBucket arith operand bound1 bound2 (int8ToNumericvar count) >>= numericvarToInt4 := by
  have hzero := numericvarToInt4_constZero
  have hfar := numericvarToInt4_add_one hlo hhi
  have hbounds := cmpNumerics_spec h1 h2
  have hfirst := cmpNumerics_spec h h1
  have hsecond := cmpNumerics_spec h h2
  unfold widthBucketNumeric Before After
  rw [if_neg (by omega), if_neg (by simp [h.notNan, h1.notNan, h2.notNan])]
  simp only [hbounds.zero_iff, hbounds.neg_iff, hfirst.neg_iff, hfirst.pos_iff, ge_iff_le,
    ← not_lt, hsecond.neg_iff, hsecond.pos_iff]
  rcases lt_trichotomy bound1.value bound2.value with hlt | heq | hlt
  · simp only [hlt, hlt.ne, hlt.not_gt, true_and, false_and, or_false, if_true, if_false]
    split_ifs <;> simp only [ok_bind, hzero, hfar]
  · simp only [heq, if_true]
    rfl
  · simp only [hlt, hlt.ne', hlt.not_gt, true_and, false_and, false_or, if_false]
    split_ifs <;> simp only [ok_bind, hzero, hfar]

/-- Outside of the range the bucket is right.  Inside of it the bucket is right, and so one of
the buckets of the histogram, just if rounding the position does not move it across a
boundary. -/
theorem widthBucket_exact_iff (h : operand.Stored) (h1 : bound1.Stored) (h2 : bound2.Stored)
    (hsize : operand.Sized) (hsize1 : bound1.Sized) (hsize2 : bound2.Sized)
    (hne : bound1.value ≠ bound2.value) (hlo : 1 ≤ count) (hhi : count ≤ 2147483646) :
    widthBucketNumeric checked operand bound1 bound2 count =
        .ok (bucketExact operand.value bound1.value bound2.value count) ↔
      (Inside operand.value bound1.value bound2.value →
        ⌊count * Rounding.roundTo (unit (bucketScale operand bound1 bound2))
            (position operand.value bound1.value bound2.value)⌋ =
          ⌊count * position operand.value bound1.value bound2.value⌋) := by
  rw [widthBucketNumeric_eq checked h h1 h2 hlo hhi, if_neg hne]
  by_cases hinside : Inside operand.value bound1.value bound2.value
  · obtain ⟨result, hrun, hbucket⟩ := computeBucket_spec checked h h1 h2 hsize hsize1 hsize2
      (isCount_int8ToNumericvar hlo hhi) hlo hhi hinside
    rw [if_neg hinside.not_before, if_neg hinside.not_after, hrun, ok_bind, hbucket,
      bucketExact_of_inside hinside, Except.ok.injEq, add_right_inj]
    exact ⟨fun heq _ => heq, fun heq => heq hinside⟩
  refine iff_of_true ?_ fun hin => absurd hin hinside
  rw [bucketExact]
  split_ifs with hbefore hafter
  · rfl
  · rfl
  · exact absurd (inside_of_not hne hbefore hafter) hinside

/-- A small integer. -/
def smallInteger (d : Int) : NumericData where
  digits := if d = 0 then [] else [d]
  weight := 0
  sign := .pos
  dscale := 0

theorem value_smallInteger (d : Int) : (smallInteger d).value = d := by
  unfold smallInteger
  by_cases hd : d = 0
  · rw [hd]
    exact (value_eq_zero_of_nil rfl).trans Int.cast_zero.symm
  · rw [if_neg hd, value_of_integer rfl rfl]
    simp [value]

/-- The operand on the boundary of the second of three buckets: its position is rounded down. -/
theorem widthBucket_boundary :
    widthBucketNumeric checked (smallInteger 1) (smallInteger 0) (smallInteger 3) 3 = .ok 1 ∧
      bucketExact (smallInteger 1).value (smallInteger 0).value (smallInteger 3).value 3 = 2 := by
  refine ⟨by decide +kernel, ?_⟩
  rw [value_smallInteger, value_smallInteger, value_smallInteger]
  norm_num [bucketExact, Before, After]

/-- The middle of a descending range, on the boundary of two buckets. -/
theorem widthBucket_exact_half :
    widthBucketNumeric checked (smallInteger 2) (smallInteger 4) (smallInteger 0) 2 =
      .ok (bucketExact (smallInteger 2).value (smallInteger 4).value (smallInteger 0).value 2) := by
  refine (widthBucket_exact_iff (by decide) (by decide) (by decide) (by decide) (by decide)
    (by decide) ?_ (by decide) (by decide)).mpr fun _ => ?_
  · rw [value_smallInteger, value_smallInteger]
    norm_num
  rw [show bucketScale (smallInteger 2) (smallInteger 4) (smallInteger 0) = 20 by decide +kernel,
    value_smallInteger, value_smallInteger, value_smallInteger]
  norm_num [roundTo, unit, position]

end Compute

end PrlPg.Numeric
