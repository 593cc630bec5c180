/-
Comparison, addition and subtraction of `numeric` variables are exact.

`cmp_abs` skips the digits that only one side has, and decides at the first digit where the
sides differ.  What comes after a digit is less than one unit of it, so that the decision is
that of the values.

`add_abs` and `sub_abs` write the digits of both operands out with the weight of the result
and go over them once.  The window for the result is wide enough: nothing that is not zero
falls off, and no carry or borrow comes out of its first digit.  For subtraction this needs
the first operand to be the larger one, even for the digits of the second one that have more
weight than the first digit of the first: they must be zeroes then.

`add_var` and `sub_var` choose between the two by the signs.  They may be given the same
variable as operand and result.
-/
import PrlPg.Proofs.NumericVar

namespace PrlPg.Numeric

open Function Radix List Digits Sign

/-! ### Comparison -/

/-- A result of a comparison. -/
def Compares (c : Int) (x y : Rat) : Prop := c = 1 ∧ y < x ∨ c = 0 ∧ x = y ∨ c = -1 ∧ x < y

section Compares

variable {c : Int} {x y : Rat}

theorem Compares.neg_iff (h : Compares c x y) : c < 0 ↔ x < y := by
  rcases h with ⟨rfl, hlt⟩ | ⟨rfl, rfl⟩ | ⟨rfl, hlt⟩
  · exact iff_of_false (by decide) hlt.not_gt
  · exact iff_of_false (by decide) (lt_irrefl x)
  · exact iff_of_true (by decide) hlt

theorem Compares.pos_iff (h : Compares c x y) : c > 0 ↔ y < x := by
  rcases h with ⟨rfl, hlt⟩ | ⟨rfl, rfl⟩ | ⟨rfl, hlt⟩
  · exact iff_of_true (by decide) hlt
  · exact iff_of_false (by decide) (lt_irrefl x)
  · exact iff_of_false (by decide) hlt.not_gt

theorem Compares.zero_iff (h : Compares c x y) : c = 0 ↔ x = y := by
  rcases h with ⟨rfl, hlt⟩ | ⟨rfl, rfl⟩ | ⟨rfl, hlt⟩
  · exact iff_of_false (by decide) hlt.ne'
  · exact iff_of_true rfl rfl
  · exact iff_of_false (by decide) hlt.ne

end Compares

theorem zpow_nbase_pos (w : Int) : (0 : Rat) < (nbase : Rat) ^ w := zpow_pos (by norm_num [nbase]) w

section Compare

variable {l l' : List Int} {w w' other : Int}

theorem any_nonzero_iff : l.any (· ≠ 0) = true ↔ ¬ ∀ d ∈ l, d = 0 := by simp [any_eq_true]

theorem Digits.scaled_pos (h : Digits nbase l) (hne : l.any (· ≠ 0) = true) :
    0 < scaled nbase l w := by
  refine lt_of_le_of_ne (h.scaled_nonneg nbase_pos.le) fun hzero => ?_
  exact any_nonzero_iff.mp hne ((h.scaled_eq_zero nbase_pos).mp hzero.symm)

theorem scaled_eq_zero_of_any (hne : ¬ l.any (· ≠ 0) = true) : scaled nbase l w = 0 :=
  scaled_of_forall_zero (not_not.mp (mt any_nonzero_iff.mpr hne))

section

variable (h : Digits nbase l)
include h

/-- With no digits left on one side, the other decides. -/
theorem cmpRest_spec (h' : Digits nbase l') (hnil : l = [] ∨ l' = []) :
    Compares (cmpRest l l') (scaled nbase l w) (scaled nbase l' w') := by
  unfold cmpRest
  split
  next h1 =>
    obtain rfl : l' = [] := by
      rcases hnil with rfl | hnil
      · cases h1
      · exact hnil
    exact .inl ⟨rfl, by rw [scaled_nil]; exact scaled_pos h h1⟩
  next h1 =>
    rw [scaled_eq_zero_of_any h1]
    split_ifs with h2
    · exact .inr (.inr ⟨rfl, scaled_pos h' h2⟩)
    · rw [scaled_eq_zero_of_any h2]
      exact .inr (.inl ⟨rfl, rfl⟩)

theorem cmpDigits_spec (h' : Digits nbase l') :
    Compares (cmpDigits l l') (scaled nbase l w) (scaled nbase l' w) := by
  induction l generalizing l' w with
  | nil => exact cmpRest_spec h h' (.inl rfl)
  | cons d l ih =>
    cases l' with
    | nil => exact cmpRest_spec h h' (.inr rfl)
    | cons e l' =>
      obtain ⟨hd, hl⟩ := cons_iff.mp h
      obtain ⟨he, hl'⟩ := cons_iff.mp h'
      have hlt : ∀ {m : List Int}, Digits nbase m → scaled nbase m (w - 1) < (nbase : Rat) ^ w := by
        intro m hm
        have := hm.scaled_lt (w := w - 1) nbase_pos
        rwa [sub_add_cancel] at this
      have hl0 : 0 ≤ scaled nbase l (w - 1) := hl.scaled_nonneg nbase_pos.le
      have hl0' : 0 ≤ scaled nbase l' (w - 1) := hl'.scaled_nonneg nbase_pos.le
      rw [cmpDigits, scaled_cons nbase_ne_zero, scaled_cons nbase_ne_zero]
      split
      next hde =>
        split_ifs with hgt
        · have : (e : Rat) + 1 ≤ d := by exact_mod_cast (by omega : e + 1 ≤ d)
          refine .inl ⟨rfl, ?_⟩
          nlinarith [hlt hl']
        have : (d : Rat) + 1 ≤ e := by exact_mod_cast (by omega : d + 1 ≤ e)
        refine .inr (.inr ⟨rfl, ?_⟩)
        nlinarith [hlt hl]
      next hde =>
        obtain rfl : d = e := by omega
        rcases ih (w := w - 1) hl hl' with ⟨hc, hxy⟩ | ⟨hc, hxy⟩ | ⟨hc, hxy⟩
        · exact .inl ⟨hc, by linarith⟩
        · exact .inr (.inl ⟨hc, by rw [hxy]⟩)
        · exact .inr (.inr ⟨hc, by linarith⟩)

/-- A digit before the first common one is not zero. -/
theorem skipHigh_none (hskip : skipHigh l w other = none) :
    (nbase : Rat) ^ (other + 1) ≤ scaled nbase l w := by
  induction l generalizing w with
  | nil => cases hskip
  | cons d l ih =>
    obtain ⟨hd, hl⟩ := cons_iff.mp h
    rw [skipHigh] at hskip
    split at hskip
    next hw =>
      by_cases hd0 : d ≠ 0
      · refine le_trans (zpow_le_zpow_right₀ ?_ (by omega)) (h.le_scaled nbase_pos hd0)
        norm_num [nbase]
      rw [if_neg hd0] at hskip
      rw [scaled_cons nbase_ne_zero, not_not.mp hd0, Int.cast_zero, zero_mul, zero_add]
      exact ih hl hskip
    · cases hskip

theorem skipHigh_some (hskip : skipHigh l w other = some (l', w')) :
    Digits nbase l' ∧ scaled nbase l' w' = scaled nbase l w ∧
      (l' = [] ∨ w ≤ other ∧ w' = w ∨ other < w ∧ w' = other) := by
  induction l generalizing w with
  | nil =>
    obtain ⟨rfl, rfl⟩ := hskip
    exact ⟨h, rfl, .inl rfl⟩
  | cons d l ih =>
    obtain ⟨hd, hl⟩ := cons_iff.mp h
    rw [skipHigh] at hskip
    split at hskip
    next hw =>
      split at hskip
      · cases hskip
      next hd0 =>
        obtain ⟨hdig, hval, hend⟩ := ih hl hskip
        refine ⟨hdig, ?_, hend.imp_right fun hend => .inr (by omega)⟩
        rw [hval, scaled_cons nbase_ne_zero, not_not.mp hd0, Int.cast_zero, zero_mul, zero_add]
    next hw =>
      obtain ⟨rfl, rfl⟩ := hskip
      exact ⟨h, rfl, .inr (.inl ⟨by omega, rfl⟩)⟩

/-- The comparison of digits is that of values. -/
theorem cmpAbsCommon_spec (h' : Digits nbase l') :
    Compares (cmpAbsCommon l w l' w') (scaled nbase l w) (scaled nbase l' w') := by
  unfold cmpAbsCommon
  cases hskip : skipHigh l w w' with
  | none => exact .inl ⟨rfl, (h'.scaled_lt nbase_pos).trans_le (skipHigh_none h hskip)⟩
  | some r =>
    obtain ⟨l₁, w₁⟩ := r
    obtain ⟨hdig, hval, hend⟩ := skipHigh_some h hskip
    rw [← hval]
    simp only
    cases hskip' : skipHigh l' w' w₁ with
    | none => exact .inr (.inr ⟨rfl, (hdig.scaled_lt nbase_pos).trans_le (skipHigh_none h' hskip')⟩)
    | some r' =>
      obtain ⟨hdig', hval', hend'⟩ := skipHigh_some h' hskip'
      rw [← hval']
      simp only
      split_ifs with heq
      · rw [heq]
        exact cmpDigits_spec hdig hdig'
      refine cmpRest_spec hdig hdig' ?_
      rcases hend with hnil | hend
      · exact .inl hnil
      · exact .inr (hend'.resolve_right (by omega))

end
end Compare

theorem cmpAbs_spec {var1 var2 : NumericVar} (h1 : Digits nbase var1.digits)
    (h2 : Digits nbase var2.digits) : Compares (cmpAbs var1 var2) var1.abs var2.abs :=
  cmpAbsCommon_spec h1 h2

/-! ### Addition and subtraction of absolute values -/

section Abs

variable {var1 var2 : NumericVar} {w : Int}

/-- The digits of a result from a pass over a window, none falling off. -/
theorem scaled_run_aligned {step : Int × Int → Int → Int × Int} {c : Int} {I : Int → Prop}
    (h1 : Digits nbase var1.digits) (h2 : Digits nbase var2.digits)
    (hn : 0 < resRscale var1 var2 + w + 1)
    (hout1 : ∀ i, i < var1.weight - w → digitAt var1.digits i = 0)
    (hout2 : ∀ i, i < var2.weight - w → digitAt var2.digits i = 0)
    (hstep : ∀ x s, ((0 ≤ x.1 ∧ x.1 < nbase) ∧ 0 ≤ x.2 ∧ x.2 < nbase) → I s →
      (0 ≤ (step x s).1 ∧ (step x s).1 < nbase) ∧ I (step x s).2 ∧
        (step x s).1 + nbase * (step x s).2 = x.1 + c * x.2 + s)
    (hI : I 0) :
    Digits nbase (run step (alignedDigits var1 var2 w) 0).1 ∧
      I (run step (alignedDigits var1 var2 w) 0).2 ∧
      scaled nbase (run step (alignedDigits var1 var2 w) 0).1 w +
          (nbase : Rat) ^ (w + 1) * (run step (alignedDigits var1 var2 w) 0).2 =
        var1.abs + c * var2.abs := by
  have hne : (nbase : Rat) ≠ 0 := by norm_num [nbase]
  obtain ⟨n, hres, hcast⟩ : ∃ n : Nat, resNdigits var1 var2 w = n ∧
      (n : Int) = resRscale var1 var2 + w + 1 :=
    ⟨_, rfl, by rw [resNdigits, if_neg (by omega)]; omega⟩
  have hle1 : (var1.digits.length : Int) - var1.weight - 1 ≤ resRscale var1 var2 := le_max_left _ _
  have hle2 : (var2.digits.length : Int) - var2.weight - 1 ≤ resRscale var1 var2 := le_max_right _ _
  have hwin1 : scaled nbase (window var1.digits (var1.weight - w) n) w = var1.abs := by
    have hall : ∀ i, (i < var1.weight - w ∨ var1.weight - w + n ≤ i) → digitAt var1.digits i = 0 :=
      fun i hi => hi.elim (hout1 i) fun hi => digitAt_of_le (by omega)
    have hwin := scaled_window (w := var1.weight) nbase_ne_zero hall
    rwa [sub_sub_cancel] at hwin
  have hwin2 : scaled nbase (window var2.digits (var2.weight - w) n) w = var2.abs := by
    have hall : ∀ i, (i < var2.weight - w ∨ var2.weight - w + n ≤ i) → digitAt var2.digits i = 0 :=
      fun i hi => hi.elim (hout2 i) fun hi => digitAt_of_le (by omega)
    have hwin := scaled_window (w := var2.weight) nbase_ne_zero hall
    rwa [sub_sub_cancel] at hwin
  have haligned : alignedDigits var1 var2 w =
      (window var1.digits (var1.weight - w) n).zip (window var2.digits (var2.weight - w) n) := by
    simp only [alignedDigits, hres]
    rw [show resRscale var1 var2 + var1.weight + 1 - n = var1.weight - w by omega,
      show resRscale var1 var2 + var2.weight + 1 - n = var2.weight - w by omega]
  have hmem : ∀ x ∈ alignedDigits var1 var2 w, (0 ≤ x.1 ∧ x.1 < nbase) ∧ 0 ≤ x.2 ∧ x.2 < nbase := by
    intro x hx
    obtain ⟨hx1, hx2⟩ := of_mem_zip hx
    exact ⟨h1.window nbase_pos _ _ _ hx1, h2.window nbase_pos _ _ _ hx2⟩
  obtain ⟨hlen, hdig, hI', hval⟩ := run_spec (b := nbase) (I := I)
    (Q := fun d => 0 ≤ d ∧ d < nbase) (f := fun x => x.1 + c * x.2) (g := id) hstep hmem hI
  refine ⟨hdig, hI', ?_⟩
  have hlen' : (alignedDigits var1 var2 w).length = n := by
    rw [haligned, length_zip, length_window, length_window, Nat.min_self]
  have hsum : value nbase ((alignedDigits var1 var2 w).map fun x => x.1 + c * x.2) =
      value nbase (window var1.digits (var1.weight - w) n) +
        c * value nbase (window var2.digits (var2.weight - w) n) := by
    rw [haligned, value_zip_map (a := 1) (fun _ _ => by rw [one_mul])
      (by rw [length_window, length_window]), one_mul]
  rw [hsum, hlen', id, id, add_zero] at hval
  have hpow : (nbase : Rat) ^ (w + 1) = (nbase : Rat) ^ n * (nbase : Rat) ^ (w + 1 - n) := by
    rw [← zpow_natCast, ← zpow_add₀ hne]
    congr 1
    ring
  have hval' := congrArg (fun z : Int => (z : Rat)) hval
  push_cast at hval'
  rw [← hwin1, ← hwin2, scaled, scaled, scaled, length_window, length_window, hlen, hlen', hpow]
  linear_combination (nbase : Rat) ^ (w + 1 - n) * hval'

/-- What `add_abs` and `sub_abs` leave in the result, apart from the sign. -/
structure AbsResult (var1 var2 result : NumericVar) (x : Rat) : Prop where
  digits : Digits nbase result.digits
  abs : result.abs = x
  stripped : Stripped result.digits
  dscale : result.dscale = max var1.dscale var2.dscale

section

variable (x : Int × Int) (s : Int) (hx : (0 ≤ x.1 ∧ x.1 < nbase) ∧ 0 ≤ x.2 ∧ x.2 < nbase)
include x s hx

theorem addDigit_spec (hs : s = 0 ∨ s = 1) : (0 ≤ (addDigit x s).1 ∧ (addDigit x s).1 < nbase) ∧
      ((addDigit x s).2 = 0 ∨ (addDigit x s).2 = 1) ∧
      (addDigit x s).1 + nbase * (addDigit x s).2 = x.1 + 1 * x.2 + s := by
  simp only [addDigit]
  split
  · exact ⟨by simp only; omega, .inr rfl, by simp only; omega⟩
  · exact ⟨by simp only; omega, .inl rfl, by simp only; omega⟩

theorem subDigit_spec (hs : s = 0 ∨ s = -1) : (0 ≤ (subDigit x s).1 ∧ (subDigit x s).1 < nbase) ∧
      ((subDigit x s).2 = 0 ∨ (subDigit x s).2 = -1) ∧
      (subDigit x s).1 + nbase * (subDigit x s).2 = x.1 + (-1) * x.2 + s := by
  simp only [subDigit]
  split
  · exact ⟨by simp only; omega, .inr rfl, by simp only; omega⟩
  · exact ⟨by simp only; omega, .inl rfl, by simp only; omega⟩

end

section

variable (h1 : Digits nbase var1.digits) (h2 : Digits nbase var2.digits)
include h1 h2

theorem addAbs_spec (result : NumericVar) :
    AbsResult var1 var2 (addAbs var1 var2 result) (var1.abs + var2.abs) := by
  have hle1 : (var1.digits.length : Int) - var1.weight - 1 ≤ resRscale var1 var2 := le_max_left _ _
  have hw1 := le_max_left var1.weight var2.weight
  have hw2 := le_max_right var1.weight var2.weight
  obtain ⟨hdig, hcarry, hsum⟩ := scaled_run_aligned (w := max var1.weight var2.weight + 1)
    (I := fun s => s = 0 ∨ s = 1) h1 h2 (by omega) (fun i hi => digitAt_of_neg (by omega))
    (fun i hi => digitAt_of_neg (by omega)) addDigit_spec (.inl rfl)
  unfold addAbs combineAbs
  generalize run addDigit (alignedDigits var1 var2 (max var1.weight var2.weight + 1)) 0 = r at *
  generalize max var1.weight var2.weight = m at *
  -- the sum of two numbers with one digit less does not carry out
  have hno : r.2 = 0 := by
    rcases hcarry with hcarry | hcarry
    · exact hcarry
    have hone : (1 : Rat) ≤ nbase := by norm_num [nbase]
    have hlt1 := (h1.scaled_lt (w := var1.weight) nbase_pos).trans_le
      (zpow_le_zpow_right₀ hone (by omega : var1.weight + 1 ≤ m + 1))
    have hlt2 := (h2.scaled_lt (w := var2.weight) nbase_pos).trans_le
      (zpow_le_zpow_right₀ hone (by omega : var2.weight + 1 ≤ m + 1))
    have hnonneg := hdig.scaled_nonneg (w := m + 1) nbase_pos.le
    have hpow : (nbase : Rat) ^ (m + 1 + 1) = (nbase : Rat) ^ (m + 1) * 10000 := by
      rw [zpow_add_one₀ (by norm_num [nbase])]
      norm_num [nbase]
    have hpos := zpow_nbase_pos (m + 1)
    rw [hcarry, hpow] at hsum
    unfold NumericVar.abs at hsum
    push_cast at hsum
    linarith
  rw [hno, Int.cast_zero, mul_zero, add_zero, Int.cast_one, one_mul] at hsum
  refine ⟨strip hdig, ?_, ?_, dscale_stripVar _⟩
  · rw [abs_stripVar]
    exact hsum
  · rw [digits_stripVar]
    exact stripDigits_stripped _

theorem subAbs_spec (hlt : var2.abs < var1.abs) (result : NumericVar) :
    AbsResult var1 var2 (subAbs var1 var2 result) (var1.abs - var2.abs) := by
  have hle1 : (var1.digits.length : Int) - var1.weight - 1 ≤ resRscale var1 var2 := le_max_left _ _
  have hlen : 0 < var1.digits.length := by
    rw [length_pos_iff]
    intro hnil
    have habs := abs_nonneg h2
    have hzero : var1.abs = 0 := by rw [NumericVar.abs, hnil, scaled_nil]
    linarith
  have hout2 : ∀ i, i < var2.weight - var1.weight → digitAt var2.digits i = 0 := by
    intro i hi
    by_contra hne
    have hone : (1 : Rat) ≤ nbase := by norm_num [nbase]
    have hle := h2.zpow_le_scaled (w := var2.weight) nbase_pos hne
    have hlt1 := h1.scaled_lt (w := var1.weight) nbase_pos
    have hpow := zpow_le_zpow_right₀ hone (by omega : var1.weight + 1 ≤ var2.weight - i)
    unfold NumericVar.abs at hlt
    linarith
  obtain ⟨hdig, hborrow, hsum⟩ := scaled_run_aligned (w := var1.weight)
    (I := fun s => s = 0 ∨ s = -1) h1 h2 (by omega) (fun i hi => digitAt_of_neg (by omega))
    hout2 subDigit_spec (.inl rfl)
  unfold subAbs combineAbs
  generalize run subDigit (alignedDigits var1 var2 var1.weight) 0 = r at *
  have hno : r.2 = 0 := by
    rcases hborrow with hborrow | hborrow
    · exact hborrow
    have hlt' := hdig.scaled_lt (w := var1.weight) nbase_pos
    rw [hborrow] at hsum
    push_cast at hsum
    linarith
  rw [hno, Int.cast_zero, mul_zero, add_zero] at hsum
  refine ⟨strip hdig, ?_, ?_, dscale_stripVar _⟩
  · rw [abs_stripVar]
    refine hsum.trans ?_
    ring
  · rw [digits_stripVar]
    exact stripDigits_stripped _

end

end Abs

/-! ### With signs -/

/-- What a variable holds after an operation on two others. -/
structure Holds (var1 var2 result : NumericVar) (x : Rat) : Prop where
  valid : result.Valid
  value : result.value = x
  stripped : Stripped result.digits
  dscale : result.dscale = max var1.dscale var2.dscale

section Signs

variable {vars : Vars} {var1 var2 result : Nat} {sign sign1 sign2 : Sign} {a b r : NumericVar}

theorem AbsResult.withSign {x : Rat} (h : AbsResult a b r x)
    (hs : sign ≠ .nan) (hx : x = 0 → sign = .pos) :
    Holds a b { r with sign := sign } (sign.factor * x) := by
  have habs : NumericVar.abs { r with sign := sign } = x := h.abs
  refine ⟨⟨h.digits, hs, fun h0 => hx (habs ▸ h0)⟩, ?_, h.stripped, h.dscale⟩
  rw [NumericVar.value, habs]

/-- Only the result is written. -/
def Frame (vars vars' : Vars) (result : Nat) : Prop := ∀ p, p ≠ result → vars' p = vars p

/-- After an operation on two variables the result has this value, and the others are as before. -/
abbrev Sets (vars : Vars) (var1 var2 result : Nat) (vars' : Vars) (x : Rat) : Prop :=
  Holds (vars var1) (vars var2) (vars' result) x ∧ Frame vars vars' result

section

variable (h1 : Digits nbase (vars var1).digits) (h2 : Digits nbase (vars var2).digits)
include h1 h2

theorem addWithSign_spec (hs : sign ≠ .nan)
    (hx : (vars var1).abs + (vars var2).abs = 0 → sign = .pos) :
    Sets vars var1 var2 result (addWithSign vars var1 var2 result sign)
      (sign.factor * ((vars var1).abs + (vars var2).abs)) := by
  constructor
  · simp only [addWithSign, Vars.setSign, update_self]
    exact (addAbs_spec h1 h2 _).withSign hs hx
  · intro p hp
    simp only [addWithSign, Vars.setSign, update_of_ne hp]

theorem subWithSign_spec (hlt : (vars var2).abs < (vars var1).abs) (hs : sign ≠ .nan) :
    Sets vars var1 var2 result (subWithSign vars var1 var2 result sign)
      (sign.factor * ((vars var1).abs - (vars var2).abs)) := by
  constructor
  · simp only [subWithSign, Vars.setSign, update_self]
    exact (subAbs_spec h1 h2 hlt _).withSign hs fun h0 => by linarith
  · intro p hp
    simp only [subWithSign, Vars.setSign, update_of_ne hp]

end

theorem Holds.comm {x : Rat} (h : Holds a b r x) : Holds b a r x :=
  ⟨h.valid, h.value, h.stripped, by rw [h.dscale, max_comm]⟩

/-- The difference of the absolute values, in whichever order, with opposite signs. -/
theorem subSmaller_spec (h1 : Digits nbase (vars var1).digits)
    (h2 : Digits nbase (vars var2).digits) (hs : sign1 ≠ .nan) (hs' : sign2 ≠ .nan)
    (hopp : sign2.factor = -sign1.factor) :
    Sets vars var1 var2 result (subSmaller vars var1 var2 result sign1 sign2)
      (sign1.factor * ((vars var1).abs - (vars var2).abs)) := by
  simp only [subSmaller]
  rcases cmpAbs_spec h1 h2 with ⟨hc, hlt⟩ | ⟨hc, heq⟩ | ⟨hc, hlt⟩
  · rw [hc, if_neg (by decide), if_pos rfl]
    exact subWithSign_spec h1 h2 hlt hs
  · rw [hc, if_pos rfl, heq, sub_self, mul_zero]
    constructor
    swap
    · intro p hp
      simp only [update_of_ne hp]
    have hdscale : ∀ p, (update vars result (zeroVar (vars result)) p).dscale =
        (vars p).dscale := by
      intro p
      by_cases hp : p = result
      · rw [hp, update_self, zeroVar]
      · rw [update_of_ne hp]
    simp only [update_self, hdscale]
    refine ⟨⟨nil, noConfusion, fun _ => rfl⟩, ?_, stripped_nil, rfl⟩
    simp only [NumericVar.value, NumericVar.abs, zeroVar, scaled_nil, mul_zero]
  rw [hc, if_neg (by decide), if_neg (by decide)]
  refine ⟨?_, (subWithSign_spec h2 h1 hlt hs').2⟩
  have hval : sign1.factor * ((vars var1).abs - (vars var2).abs) =
      sign2.factor * ((vars var2).abs - (vars var1).abs) := by
    rw [hopp]
    ring
  rw [hval]
  exact (subWithSign_spec h2 h1 hlt hs').1.comm

theorem neg_factor_mul (y : Rat) : neg.factor * y = -(pos.factor * y) := by
  simp only [factor]
  ring

theorem pos_factor_mul (y : Rat) : pos.factor * y = -(neg.factor * y) := by
  rw [neg_factor_mul, neg_neg]

section

variable (h1 : (vars var1).Valid) (h2 : (vars var2).Valid)
include h1 h2

/-- The sum of the absolute values, with the sign of the first variable. -/
theorem addWithSign_own {sign : Sign} (hs : (vars var1).sign = sign) :
    Sets vars var1 var2 result (addWithSign vars var1 var2 result sign)
      (sign.factor * ((vars var1).abs + (vars var2).abs)) := by
  have ha1 := abs_nonneg h1.digits
  have ha2 := abs_nonneg h2.digits
  rcases h1.sign_cases with hs1 | ⟨hs1, hne1⟩ <;> cases hs1.symm.trans hs
  · exact addWithSign_spec h1.digits h2.digits noConfusion fun _ => rfl
  · exact addWithSign_spec h1.digits h2.digits noConfusion fun h0 => absurd (by linarith) hne1

theorem addVar_spec : Sets vars var1 var2 result (addVar vars var1 var2 result)
      ((vars var1).value + (vars var2).value) := by
  rcases h1.sign_cases with hs1 | ⟨hs1, -⟩ <;> rcases h2.sign_cases with hs2 | ⟨hs2, -⟩ <;>
    simp only [addVar, NumericVar.value, hs1, hs2, reduceIte, reduceCtorEq]
  · rw [← mul_add]
    exact addWithSign_own h1 h2 hs1
  · rw [neg_factor_mul, ← sub_eq_add_neg, ← mul_sub]
    exact subSmaller_spec h1.digits h2.digits noConfusion noConfusion rfl
  · rw [pos_factor_mul, ← sub_eq_add_neg, ← mul_sub]
    exact subSmaller_spec h1.digits h2.digits noConfusion noConfusion (by norm_num [factor])
  · rw [← mul_add]
    exact addWithSign_own h1 h2 hs1

theorem subVar_spec : Sets vars var1 var2 result (subVar vars var1 var2 result)
      ((vars var1).value - (vars var2).value) := by
  rcases h1.sign_cases with hs1 | ⟨hs1, -⟩ <;> rcases h2.sign_cases with hs2 | ⟨hs2, -⟩ <;>
    simp only [subVar, NumericVar.value, hs1, hs2, reduceIte, reduceCtorEq]
  · rw [← mul_sub]
    exact subSmaller_spec h1.digits h2.digits noConfusion noConfusion rfl
  · rw [neg_factor_mul, sub_neg_eq_add, ← mul_add]
    exact addWithSign_own h1 h2 hs1
  · rw [pos_factor_mul, sub_neg_eq_add, ← mul_add]
    exact addWithSign_own h1 h2 hs1
  rw [← mul_sub]
  exact subSmaller_spec h1.digits h2.digits noConfusion noConfusion (by norm_num [factor])

end

section

variable {a b : NumericVar} (ha : a.Valid) (hb : b.Valid)
include ha hb

theorem add_spec :
    Holds a b (add a b) (a.value + b.value) :=
  (@addVar_spec (Vars.ofTwo a b) 0 1 2 ha hb).1

theorem sub_spec :
    Holds a b (sub a b) (a.value - b.value) :=
  (@subVar_spec (Vars.ofTwo a b) 0 1 2 ha hb).1

end

end Signs

end PrlPg.Numeric
