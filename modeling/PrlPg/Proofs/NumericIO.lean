/-
Text and binary form of `numeric` values, forth and back.

The text of a variable has the decimal digits of its digits, and reading them groups them again,
aligned at the point; as numbers in base ten both steps keep the value (`value_flatMap`,
`abs_convertScan`).  So what is read back is the value that was printed, which is the stored
value rounded to its display scale (`numericIn_numericOut`).  It is the stored value just if
the scale covers the digits, which the text input ensures, but the binary one does not.

The binary form is an exact copy, but more than 3000 digits are not accepted.
-/
import PrlPg.Proofs.NumericMul
import PrlPg.Utils.NumericIO

namespace PrlPg.Numeric

open List Radix Rounding Except Sign Function

/-! ### Grouping decimal digits -/

variable {l : List Int} {scan : Scan}

section Group

theorem groupDigits_spec (n : Nat) : ∀ {l : List Int}, Digits 10 l → 4 * n ≤ l.length →
    Digits nbase (groupDigits n l) ∧ (groupDigits n l).length = n ∧
      value nbase (groupDigits n l) = value 10 (l.take (4 * n)) := by
  induction n with
  | zero =>
    intro l _ _
    exact ⟨Digits.nil, rfl, rfl⟩
  | succ n ih =>
    intro l hl hlen
    rcases l with _ | ⟨a, _ | ⟨b, _ | ⟨c, _ | ⟨d, l⟩⟩⟩⟩
    iterate 4
      simp only [length_cons, length_nil] at hlen
      omega
    simp only [Digits.cons_iff] at hl
    obtain ⟨ha, hb, hc, hd, hl⟩ := hl
    simp only [length_cons] at hlen
    obtain ⟨hdig, hglen, hvalue⟩ := ih hl (by omega)
    have hgroup : groupDigits (n + 1) (a :: b :: c :: d :: l) =
        (((a * 10 + b) * 10 + c) * 10 + d) :: groupDigits n l := rfl
    have htake : (a :: b :: c :: d :: l).take (4 * (n + 1)) =
        a :: b :: c :: d :: l.take (4 * n) := by
      rfl
    have hpow : nbase ^ n = 10 ^ (4 * n) := by
      rw [pow_mul]
      rfl
    rw [hgroup, htake]
    refine ⟨Digits.cons_iff.mpr ⟨by unfold nbase; omega, hdig⟩, by rw [length_cons, hglen], ?_⟩
    simp only [value_cons, hglen, hvalue, length_cons, length_take_of_le
      (show 4 * n ≤ l.length by omega), hpow, pow_succ]
    ring

/-- Weight and offset of the converted number. -/
theorem convert_offset (dweight : Int) :
    0 ≤ ((if dweight ≥ 0 then (dweight + 1 + decDigits - 1) / decDigits - 1
        else -((-dweight - 1) / decDigits + 1)) + 1) * decDigits - (dweight + 1) ∧
      ((if dweight ≥ 0 then (dweight + 1 + decDigits - 1) / decDigits - 1
        else -((-dweight - 1) / decDigits + 1)) + 1) * decDigits - (dweight + 1) < 4 := by
  unfold decDigits
  split <;> omega

theorem digits_replicate_zero {b : Int} (hb : 0 < b) (n : Nat) : Digits b (replicate n 0) := by
  intro d hd
  rw [eq_of_mem_replicate hd]
  exact ⟨le_refl 0, hb⟩

/-- Decimal digits with zeroes in front and after them, in groups. -/
theorem scaled_groupDigits (hl : Digits 10 l) {offset n : Nat} (hoffset : offset ≤ 4)
    (hn : offset + l.length ≤ 4 * n) (hn' : 4 * n ≤ offset + l.length + 3) (weight : Int) :
    Digits nbase (groupDigits n ((replicate 4 0 ++ l ++ replicate 3 0).drop (4 - offset))) ∧
      scaled nbase
          (groupDigits n ((replicate 4 0 ++ l ++ replicate 3 0).drop (4 - offset))) weight =
        scaled 10 l ((weight + 1) * 4 - offset - 1) := by
  have hdrop : (replicate 4 (0 : Int) ++ l ++ replicate 3 0).drop (4 - offset) =
      replicate offset 0 ++ l ++ replicate 3 0 := by
    rw [append_assoc, drop_append_of_le_length (by rw [length_replicate]; omega),
      drop_replicate, Nat.sub_sub_self hoffset, append_assoc]
  have hdig : Digits 10 (replicate offset 0 ++ l ++ replicate 3 0) :=
    Digits.append_iff.mpr ⟨Digits.append_iff.mpr ⟨digits_replicate_zero (by decide) _, hl⟩,
      digits_replicate_zero (by decide) _⟩
  have hlen : (replicate offset (0 : Int) ++ l ++ replicate 3 0).length =
      offset + l.length + 3 := by
    simp only [length_append, length_replicate]
  have htake : (replicate offset (0 : Int) ++ l ++ replicate 3 0).take (4 * n) =
      replicate offset 0 ++ l ++ replicate (4 * n - (offset + l.length)) 0 := by
    have hfront : (replicate offset (0 : Int) ++ l).length = offset + l.length := by
      rw [length_append, length_replicate]
    rw [take_append, take_of_length_le (by omega), hfront, take_replicate, min_eq_left (by omega)]
  obtain ⟨hgdig, hglen, hgvalue⟩ := groupDigits_spec n hdig (by omega)
  rw [hdrop]
  refine ⟨hgdig, ?_⟩
  rw [scaled, hgvalue, hglen, htake, value_append, value_append, value_replicate_zero,
    value_replicate_zero, zero_mul, zero_add, add_zero, length_replicate, scaled, nbase_zpow]
  push_cast
  rw [mul_assoc, ← zpow_natCast, ← zpow_add₀ (by norm_num)]
  congr 2
  omega

/-- The value of a number that has been read. -/
theorem convertScan_spec (hdig : Digits 10 scan.decdigits) {sign : Sign} (hsign : sign ≠ .nan) :
    (convertScan sign scan).Valid ∧ Stripped (convertScan sign scan).digits ∧
      (convertScan sign scan).dscale = scan.dscale ∧
      (convertScan sign scan).value = sign.factor * scaled 10 scan.decdigits scan.dweight := by
  obtain ⟨hoff0, hoff4⟩ := convert_offset scan.dweight
  unfold convertScan
  simp only
  generalize (if scan.dweight ≥ 0 then (scan.dweight + 1 + decDigits - 1) / decDigits - 1
    else -((-scan.dweight - 1) / decDigits + 1)) = weight at *
  obtain ⟨offset, hoffset⟩ : ∃ offset : Nat, (weight + 1) * decDigits - (scan.dweight + 1) = offset :=
    ⟨_, (Int.toNat_of_nonneg hoff0).symm⟩
  rw [hoffset] at hoff0 hoff4 ⊢
  obtain ⟨n, hn⟩ : ∃ n : Nat,
      ((scan.decdigits.length : Int) + offset + decDigits - 1) / decDigits = n :=
    ⟨_, (Int.toNat_of_nonneg (by unfold decDigits; omega)).symm⟩
  unfold decDigits at *
  rw [hn, show (4 - (offset : Int)).toNat = 4 - offset by omega]
  obtain ⟨hgdig, hgvalue⟩ := @scaled_groupDigits scan.decdigits hdig offset n (by omega) (by omega)
    (by omega) weight
  rw [show (weight + 1) * 4 - offset - 1 = scan.dweight by omega] at hgvalue
  refine ⟨valid_stripVar hgdig hsign, ?_, dscale_stripVar _, ?_⟩
  · rw [digits_stripVar]
    exact stripDigits_stripped _
  · rw [value_stripVar hgdig, ← hgvalue]
    rfl

end Group

/-! ### Decimal digits of digits -/

section Expand

theorem decimalDigits_spec {dig : Int} (h : 0 ≤ dig ∧ dig < nbase) :
    Digits 10 (decimalDigits dig) ∧ (decimalDigits dig).length = 4 ∧
      value 10 (decimalDigits dig) = dig := by
  unfold nbase at h
  unfold decimalDigits
  simp only [Digits.cons_iff, value_cons, value_nil, length_cons, length_nil]
  refine ⟨⟨by omega, by omega, by omega, by omega, Digits.nil⟩, trivial, ?_⟩
  norm_num

theorem putDigit_true (dig : Int) : putDigit true dig = decimalDigits dig := rfl

/-- A digit printed without leading zeroes. -/
theorem putDigit_false_spec {dig : Int} (h : 0 ≤ dig ∧ dig < nbase) :
    Digits 10 (putDigit false dig) ∧ putDigit false dig ≠ [] ∧
      value 10 (putDigit false dig) = dig := by
  obtain ⟨hdig, -, hvalue⟩ := decimalDigits_spec h
  -- what is left out in front are zeroes
  obtain ⟨zeros, hsplit, hzero⟩ : ∃ zeros, decimalDigits dig = zeros ++ putDigit false dig ∧
      ∀ d ∈ zeros, d = 0 := by
    unfold putDigit decimalDigits
    by_cases h1 : dig / 1000 > 0
    · exact ⟨[], by simp [h1], forall_mem_nil _⟩
    by_cases h2 : (dig - dig / 1000 * 1000) / 100 > 0
    · exact ⟨[dig / 1000], by simp [h1, h2], forall_mem_singleton.mpr (by omega)⟩
    by_cases h3 : (dig - dig / 1000 * 1000 - (dig - dig / 1000 * 1000) / 100 * 100) / 10 > 0
    · refine ⟨[dig / 1000, (dig - dig / 1000 * 1000) / 100], by simp [h1, h2, h3], ?_⟩
      simp only [forall_mem_cons]
      exact ⟨by omega, by omega, forall_mem_nil _⟩
    refine ⟨[dig / 1000, (dig - dig / 1000 * 1000) / 100,
      (dig - dig / 1000 * 1000 - (dig - dig / 1000 * 1000) / 100 * 100) / 10],
      by simp [h1, h2, h3], ?_⟩
    simp only [forall_mem_cons]
    exact ⟨by omega, by omega, by omega, forall_mem_nil _⟩
  rw [hsplit, value_append, value_of_forall_zero hzero, zero_mul, zero_add] at hvalue
  rw [hsplit, Digits.append_iff] at hdig
  exact ⟨hdig.2, by unfold putDigit; simp, hvalue⟩

/-- Expanding digits keeps the value. -/
theorem flatMap_decimalDigits (h : Digits nbase l) :
    Digits 10 (l.flatMap decimalDigits) ∧ (l.flatMap decimalDigits).length = 4 * l.length ∧
      value 10 (l.flatMap decimalDigits) = value nbase l := by
  induction l with
  | nil => exact ⟨Digits.nil, rfl, rfl⟩
  | cons d l ih =>
    rw [Digits.cons_iff] at h
    obtain ⟨hd, hl⟩ := h
    obtain ⟨hdig, hlen, hvalue⟩ := ih hl
    obtain ⟨hddig, hdlen, hdvalue⟩ := decimalDigits_spec hd
    rw [flatMap_cons]
    refine ⟨Digits.append_iff.mpr ⟨hddig, hdig⟩, ?_, ?_⟩
    · rw [length_append, length_cons]
      omega
    · rw [value_append, hdvalue, hvalue, hlen, pow_mul]
      rfl

variable {var : NumericVar}

theorem window_succ (l : List Int) (start : Int) (n : Nat) :
    window l start (n + 1) = digitAt l start :: window l (start + 1) n := by
  unfold window
  rw [range_succ_eq_map, map_cons, map_map]
  congr 1
  · rw [Nat.cast_zero, add_zero]
  refine map_congr_left fun k _ => ?_
  simp only [comp, Nat.cast_succ]
  congr 1
  ring

/-- The digits before the point. -/
theorem integerDigits_spec (h : Digits nbase var.digits) :
    Digits 10 (integerDigits var) ∧ integerDigits var ≠ [] ∧ value 10 (integerDigits var) =
        value nbase (window var.digits 0 (var.weight + 1).toNat) := by
  unfold integerDigits
  split_ifs with hneg
  · rw [show (var.weight + 1).toNat = 0 by omega]
    exact ⟨by decide, by decide, rfl⟩
  obtain ⟨w, hw⟩ : ∃ w : Nat, (var.weight + 1).toNat = w + 1 := ⟨var.weight.toNat, by omega⟩
  have hfirst := h.digitAt nbase_pos 0
  obtain ⟨hpdig, hpne, hpvalue⟩ := putDigit_false_spec hfirst
  obtain ⟨hedig, helen, hevalue⟩ := flatMap_decimalDigits (h.window nbase_pos 1 w)
  have hsplit : ((range (w + 1)).flatMap fun d : Nat =>
      putDigit (decide (d > 0)) (digitAt var.digits d)) =
      putDigit false (digitAt var.digits 0) ++ (window var.digits 1 w).flatMap decimalDigits := by
    rw [range_succ_eq_map, flatMap_cons, flatMap_map, window, flatMap_map]
    congr 1
    refine flatMap_congr fun k _ => ?_
    rw [show decide (k.succ > 0) = true by simp, putDigit_true, Nat.cast_succ, add_comm]
  rw [hw, hsplit]
  refine ⟨Digits.append_iff.mpr ⟨hpdig, hedig⟩, append_ne_nil_of_left_ne_nil hpne _, ?_⟩
  rw [value_append, hpvalue, hevalue, helen, length_window, window_succ, value_cons, length_window,
    zero_add, pow_mul]
  rfl

theorem window_append (l : List Int) (start : Int) (m n : Nat) :
    window l start m ++ window l (start + m) n = window l start (m + n) := by
  unfold window
  rw [range_add, map_append, map_map]
  congr 1
  refine map_congr_left fun k _ => ?_
  simp only [comp, Nat.cast_add]
  congr 1
  ring

/-- All digits of a variable whose last digit is before the end of the printed ones. -/
theorem abs_of_windows {m : Nat} (hcover : (var.digits.length : Int) ≤ var.weight + 1 + m) :
    var.abs = (value nbase (window var.digits 0 (var.weight + 1).toNat) * nbase ^ m +
      value nbase (window var.digits (var.weight + 1) m) : Int) * (nbase : Rat) ^ (-m : Int) := by
  by_cases hneg : var.weight < 0
  · have hout : ∀ i, i < var.weight + 1 ∨ var.weight + 1 + m ≤ i → digitAt var.digits i = 0 := by
      intro i hi
      rcases hi with hi | hi
      · exact digitAt_of_neg (by omega)
      · exact digitAt_of_le (by omega)
    rw [NumericVar.abs, ← scaled_window nbase_ne_zero hout, scaled, length_window,
      show (var.weight + 1).toNat = 0 by omega, show window var.digits 0 0 = [] from rfl, value_nil,
      zero_mul, zero_add]
    congr 2
    ring
  obtain ⟨w, hw⟩ : ∃ w : Nat, var.weight + 1 = w := ⟨_, (Int.toNat_of_nonneg (by omega)).symm⟩
  have hout : ∀ i, i < 0 ∨ 0 + ((w + m : Nat) : Int) ≤ i → digitAt var.digits i = 0 := by
    intro i hi
    rcases hi with hi | hi
    · exact digitAt_of_neg hi
    · exact digitAt_of_le (by omega)
  rw [NumericVar.abs, ← scaled_window nbase_ne_zero hout, scaled, length_window,
    ← window_append, value_append, length_window, hw, Int.toNat_natCast, zero_add]
  congr 2
  omega

/-- The printed digits, as a decimal number. -/
theorem printedDigits_spec (h : Digits nbase var.digits) {s : Int} (hs : 0 ≤ s)
    (hcover : (var.digits.length : Int) ≤ var.weight + 1 + (s + 3) / 4) {k : Int}
    (hk : var.abs = k * unit s) :
    Digits 10 (integerDigits var ++ fractionDigits var s) ∧
      (fractionDigits var s).length = s.toNat ∧
      value 10 (integerDigits var ++ fractionDigits var s) = k := by
  obtain ⟨hidig, -, hivalue⟩ := integerDigits_spec h
  obtain ⟨m, hm⟩ : ∃ m : Nat, (s + 3) / 4 = m := ⟨_, (Int.toNat_of_nonneg (by omega)).symm⟩
  obtain ⟨n, rfl⟩ := Int.eq_ofNat_of_zero_le hs
  rw [hm] at hcover
  obtain ⟨hedig, helen, hevalue⟩ := flatMap_decimalDigits (h.window nbase_pos (var.weight + 1) m)
  rw [length_window] at helen
  have hfraction : fractionDigits var n =
      ((window var.digits (var.weight + 1) m).flatMap decimalDigits).take n := by
    rw [fractionDigits, show ((n : Int) + 3) / decDigits = m from hm, Int.toNat_natCast,
      Int.toNat_natCast]
  have hflen : (fractionDigits var n).length = n := by
    rw [hfraction, length_take]
    omega
  refine ⟨Digits.append_iff.mpr ⟨hidig, hfraction ▸ hedig.take n⟩,
    by rw [hflen, Int.toNat_natCast], ?_⟩
  -- the digits that were cut off are what is left of a division by a power of ten
  have htake : integerDigits var ++ fractionDigits var n =
      (integerDigits var ++ (window var.digits (var.weight + 1) m).flatMap decimalDigits).take
        ((integerDigits var).length + n) := by
    rw [take_length_add_append, hfraction]
  have htotal : value 10
      (integerDigits var ++ (window var.digits (var.weight + 1) m).flatMap decimalDigits) =
        k * 10 ^ (4 * m - n) := by
    rw [value_append, hivalue, hevalue, helen, pow_mul]
    have habs := abs_of_windows hcover
    rw [hk, unit, nbase_zpow] at habs
    have hpow : (10 : Rat) ^ (-(n : Int)) = 10 ^ (4 * m - n : Nat) * 10 ^ (4 * (-(m : Int))) := by
      rw [← zpow_natCast, ← zpow_add₀ (by norm_num)]
      congr 1
      omega
    rw [hpow, ← mul_assoc] at habs
    have hcancel := mul_right_cancel₀ (zpow_ne_zero _ (by norm_num)) habs
    exact_mod_cast hcancel.symm
  rw [htake, Digits.value_take (by decide) (Digits.append_iff.mpr ⟨hidig, hedig⟩), htotal,
    length_append, helen,
    show (integerDigits var).length + 4 * m - ((integerDigits var).length + n) = 4 * m - n by omega,
    Int.mul_ediv_cancel _ (pow_ne_zero _ (by decide))]

end Expand

/-! ### Reading a printed number -/

variable {cp : List Char} {typmod : Int}

section Read

/-- The character of a decimal digit. -/
structure DigitChar (c : Char) (d : Int) : Prop where
  isDigit : isDigit c = true
  value : digitValue c = d
  notSpace : isSpace c = false
  notSign : c.toNat ≠ 43 ∧ c.toNat ≠ 45
  notPoint : c.toNat ≠ 46
  notNan : c.toLower ≠ 'n'

theorem digitChar_spec {d : Int} (h : 0 ≤ d ∧ d < 10) : DigitChar (digitChar d) d := by
  obtain ⟨n, rfl⟩ := Int.eq_ofNat_of_zero_le h.1
  have hall : ∀ i : Fin 10, isDigit (digitChar (i : Nat)) = true ∧
      digitValue (digitChar (i : Nat)) = (i : Nat) ∧ isSpace (digitChar (i : Nat)) = false ∧
      ((digitChar (i : Nat)).toNat ≠ 43 ∧ (digitChar (i : Nat)).toNat ≠ 45) ∧
      (digitChar (i : Nat)).toNat ≠ 46 ∧ (digitChar (i : Nat)).toLower ≠ 'n' := by decide
  obtain ⟨h1, h2, h3, h4, h5, h6⟩ := hall ⟨n, by omega⟩
  exact ⟨h1, h2, h3, h4, h5, h6⟩

/-- A run of digits is read. -/
theorem scanDigits_digits (hl : Digits 10 l) (rest : List Char) (scan : Scan) :
    scanDigits (l.map digitChar ++ rest) scan = scanDigits rest
      { decdigits := scan.decdigits ++ l
        dweight := if scan.haveDp then scan.dweight else scan.dweight + l.length
        dscale := if scan.haveDp then scan.dscale + l.length else scan.dscale
        haveDp := scan.haveDp } := by
  induction l generalizing scan with
  | nil =>
    rw [map_nil, nil_append, append_nil, length_nil, Nat.cast_zero, add_zero,
      add_zero, ite_self, ite_self]
  | cons d l ih =>
    rw [Digits.cons_iff] at hl
    have hc := digitChar_spec hl.1
    rw [map_cons, cons_append, scanDigits, if_pos hc.isDigit, ih hl.2, hc.value]
    congr 1
    cases scan.haveDp with
    | false =>
      simp only [Bool.false_eq_true, if_false, append_assoc, singleton_append,
        length_cons, Nat.cast_succ]
      congr 1
      ring
    | true =>
      simp only [if_true, append_assoc, singleton_append, length_cons, Nat.cast_succ]
      congr 1
      ring

theorem scanDigits_point (h : scan.haveDp = false) :
    scanDigits ('.' :: cp) scan = scanDigits cp { scan with haveDp := true } := by
  rw [scanDigits, if_neg (by decide), if_pos (by decide), if_neg (by rw [h]; decide)]

variable {var : NumericVar} {s : Int}

/-- The sign in front, which is not printed for a positive number. -/
theorem scanSign_printed {c : Char} (hc : c.toNat ≠ 43 ∧ c.toNat ≠ 45) (cp : List Char) :
    scanSign ((if var.sign = .neg then ['-'] else []) ++ c :: cp) =
      (if var.sign = .neg then .neg else .pos, c :: cp) := by
  split_ifs with hs
  · rfl
  · rw [nil_append, scanSign, if_neg hc.1, if_neg hc.2]

/-- What is read of the text of a variable. -/
theorem setVarFromStr_printVar (hint : Digits 10 (integerDigits var)) (hne : integerDigits var ≠ [])
    (hfrac : Digits 10 (fractionDigits var s)) (hs : 0 ≤ s)
    (hlen : (fractionDigits var s).length = s.toNat) :
    setVarFromStr (printVar var s) = .ok (convertScan (if var.sign = .neg then .neg else .pos)
        { decdigits := integerDigits var ++ fractionDigits var s
          dweight := (integerDigits var).length - 1
          dscale := s
          haveDp := decide (s > 0) }, []) := by
  obtain ⟨d, ds, hd⟩ := exists_cons_of_ne_nil hne
  have hc : DigitChar (digitChar d) d := digitChar_spec (hint d (by rw [hd]; simp))
  have hscan : ∀ rest, scanDigits ((integerDigits var).map digitChar ++ rest)
      { decdigits := [], dweight := -1, dscale := 0, haveDp := false } = scanDigits rest
      { decdigits := integerDigits var, dweight := (integerDigits var).length - 1, dscale := 0,
        haveDp := false } := by
    intro rest
    rw [scanDigits_digits hint]
    simp only [Bool.false_eq_true, if_false, nil_append, neg_add_eq_sub]
  have hsigned : scanSign (printVar var s) = (if var.sign = .neg then .neg else .pos,
      (integerDigits var).map digitChar ++
        if s > 0 then '.' :: (fractionDigits var s).map digitChar else []) := by
    rw [printVar, append_assoc, hd]
    exact scanSign_printed hc.notSign _
  have hhead : ((integerDigits var).map digitChar ++
      if s > 0 then '.' :: (fractionDigits var s).map digitChar else []).head? =
        some (digitChar d) := by
    rw [hd]
    rfl
  unfold setVarFromStr
  simp only [hsigned, hhead, Option.map_some, Option.some.injEq, hc.notPoint, decide_false,
    Bool.false_eq_true, if_false, hc.isDigit, ne_eq, not_true]
  rw [hscan]
  by_cases hpos : s > 0
  · rw [if_pos hpos, scanDigits_point rfl, ← append_nil ((fractionDigits var s).map digitChar),
      scanDigits_digits hfrac, scanDigits, ok_bind]
    simp only [if_true, hlen, zero_add, Int.toNat_of_nonneg hs]
    rw [scanExponent, ok_bind, decide_eq_true hpos]
  obtain rfl : s = 0 := by omega
  have hnil : fractionDigits var 0 = [] := length_eq_zero_iff.mp hlen
  rw [hnil, append_nil]
  rfl

section

variable (h : Digits nbase var.digits)
include h

/-- Rounding leaves no digits after the scale. -/
theorem length_roundVar (hs : 0 ≤ s) :
    ((roundVar var s).digits.length : Int) ≤ (roundVar var s).weight + 1 + (s + 3) / 4 := by
  simp only [roundVar, roundAt, show decDigits = 4 from rfl]
  split
  next hdi =>
    simp only [length_nil]
    omega
  next hdi =>
    obtain ⟨k, hk⟩ : ∃ k, k = (((var.weight + 1) * 4 + s + 4 - 1) / 4).toNat := ⟨_, rfl⟩
    rw [← hk]
    split
    swap
    · simp only
      omega
    rename_i hcut
    obtain ⟨K, X, -, -, -, hlen, -⟩ := roundDigits_spec (place_of (by omega) hk (by omega)) hcut h
    split
    · simp only [length_cons, hlen]
      omega
    · simp only [hlen]
      omega

/-- What is read back from a printed variable is its rounded value. -/
theorem read_printed (hsign : var.sign ≠ .nan) (hs : 0 ≤ s) :
    ∃ value, setVarFromStr (getStrFromVar var s) = .ok (value, []) ∧ value.Valid ∧
      Stripped value.digits ∧ value.dscale = s ∧
      value.value = var.sign.factor * roundTo (unit s) var.abs := by
  obtain ⟨habs, hdig⟩ := roundVar_spec h s
  have hnan := ne_nan_of_sign (sign_roundVar var s) hsign
  obtain ⟨hidig, hine, -⟩ := integerDigits_spec hdig
  obtain ⟨hpdig, hflen, hpvalue⟩ := printedDigits_spec hdig hs (length_roundVar h hs) habs
  have hfdig := (Digits.append_iff.mp hpdig).2
  have hprinted : (if (roundVar var s).sign = .neg then neg else .pos) = (roundVar var s).sign := by
    cases hr : (roundVar var s).sign with
    | pos => rfl
    | neg => rfl
    | nan => exact absurd hr hnan
  obtain ⟨hvalid, hstripped, hdscale, hvalue⟩ := @convertScan_spec
    ⟨integerDigits (roundVar var s) ++ fractionDigits (roundVar var s) s,
      (integerDigits (roundVar var s)).length - 1, s, decide (s > 0)⟩ hpdig _ hnan
  refine ⟨_, ?_, hvalid, hstripped, hdscale, ?_⟩
  · rw [getStrFromVar, max_eq_left hs, setVarFromStr_printVar hidig hine hfdig hs hflen, hprinted]
  have hscaled : scaled 10 (integerDigits (roundVar var s) ++ fractionDigits (roundVar var s) s)
      ((integerDigits (roundVar var s)).length - 1) = (roundVar var s).abs := by
    rw [habs, scaled, length_append]
    congr 2
    omega
  rw [hvalue, hscaled, factor_mul_of_sign (sign_roundVar var s), (roundVar_spec h s).1]

/-- The first character is that of a number. -/
theorem printVar_head (s : Int) :
    ∃ c cp, printVar var s = c :: cp ∧ isSpace c = false ∧ c.toLower ≠ 'n' := by
  obtain ⟨hidig, hine, -⟩ := integerDigits_spec h
  obtain ⟨d, ds, hd⟩ := exists_cons_of_ne_nil hine
  have hc : DigitChar (digitChar d) d := digitChar_spec (hidig d (by rw [hd]; simp))
  rw [printVar, hd]
  split
  · exact ⟨'-', _, rfl, by decide, by decide⟩
  · exact ⟨digitChar d, _, rfl, hc.notSpace, hc.notNan⟩

end

theorem applyTypmod_default (value : NumericVar) : applyTypmod value (-1) = .ok value :=
  if_pos (by decide)

end Read

/-! ### Texts -/

section Text

variable {num : NumericData}

/-- What is read back from the text of a stored value: its value, rounded to the scale. -/
theorem numericIn_numericOut (h : num.Stored) :
    ∃ value : NumericVar, numericIn (numericOut num) (-1) = makeResult value ∧ value.Valid ∧
      value.dscale = num.dscale ∧
      value.value = num.sign.factor * roundTo (unit num.dscale) (setVarFromNum num).abs := by
  obtain ⟨value, hread, hvalid, -, hdscale, hvalue⟩ :=
    @read_printed (setVarFromNum num) num.dscale h.digits h.notNan h.dscale.1
  obtain ⟨c, cp, hprint, hspace, hnan⟩ :=
    printVar_head (@roundVar_spec (setVarFromNum num) h.digits num.dscale).2 num.dscale
  have hout : numericOut num = getStrFromVar (setVarFromNum num) num.dscale := if_neg h.notNan
  have htext : getStrFromVar (setVarFromNum num) num.dscale = c :: cp := by
    rw [getStrFromVar, max_eq_left h.dscale.1, hprint]
  have hskip : (c :: cp).dropWhile isSpace = c :: cp := by
    rw [dropWhile_cons, hspace]
    rfl
  have hnotNan : isNan (c :: cp) = false := by
    refine decide_eq_false fun heq => hnan ?_
    exact (cons.inj heq).1
  refine ⟨value, ?_, hvalid, hdscale, hvalue⟩
  rw [htext] at hread
  rw [hout, htext, numericIn, hskip, hnotNan, hread, ok_bind]
  change (applyTypmod value (-1) >>= fun _ => _) = _
  rw [applyTypmod_default, ok_bind]

/-- Stored values can be stored. -/
theorem NumericData.Stored.storable (h : num.Stored) : Storable num.value := by
  have hvalid := h.valid
  have hweight := h.weight
  unfold Storable
  by_cases hnil : num.digits = []
  · exact .inl (@value_eq_zero_of_nil (setVarFromNum num) hnil)
  rw [NumericData.value, hvalid.abs_value]
  exact .inr ⟨(@le_weight_iff (setVarFromNum num) h.digits h.stripped hnil _).mp hweight.1,
    (@weight_le_iff (setVarFromNum num) h.digits h.stripped hnil 32767).mp hweight.2⟩

/-- A value whose digits the new scale covers is not rounded. -/
theorem roundTo_of_withinScale (hw : (setVarFromNum num).WithinScale) {s : Int} (hs : num.dscale ≤ s) :
    roundTo (unit s) (setVarFromNum num).abs = (setVarFromNum num).abs := by
  obtain ⟨m, hm⟩ := hw
  obtain ⟨j, hj⟩ := Int.eq_ofNat_of_zero_le (Int.sub_nonneg.mpr hs)
  have hunit : unit num.dscale = (10 ^ j : Int) * unit s := by
    rw [unit, unit, show -num.dscale = j + -s by omega, zpow_add₀ (by norm_num)]
    norm_num
  have habs : (setVarFromNum num).abs = (m * 10 ^ j : Int) * unit s := by
    rw [hm, show (setVarFromNum num).dscale = num.dscale from rfl, hunit]
    push_cast
    ring
  rw [habs, roundTo_int_mul (unit_pos s).ne']

/-- A text gives the value and the scale back just if the scale covers the digits. -/
theorem text_iff (h : num.Stored) :
    (∃ result, numericIn (numericOut num) (-1) = .ok result ∧ cmpNumerics result num = 0 ∧
      result.dscale = num.dscale) ↔ (setVarFromNum num).WithinScale := by
  obtain ⟨value, hrun, hvalid, hdscale, hvalue⟩ := numericIn_numericOut h
  rw [hrun]
  constructor
  · rintro ⟨result, hok, hcmp, -⟩
    obtain ⟨hstorable, hscale, rfl⟩ := storable_of_makeResult hvalid hok
    have hequal := (cmpNumerics_spec (stored_stripVar hvalid hstorable hscale) h).zero_iff.mp hcmp
    rw [value_stored_stripVar hvalid, hvalue] at hequal
    have hfactor : (setVarFromNum num).sign.factor ≠ 0 := by
      rcases h.valid.sign_cases with hs | ⟨hs, -⟩
      · rw [hs]
        exact one_ne_zero
      · rw [hs]
        exact neg_ne_zero.mpr one_ne_zero
    exact ⟨_, (mul_left_cancel₀ hfactor hequal).symm⟩
  intro hw
  have hsame : value.value = num.value := by
    rw [hvalue, roundTo_of_withinScale hw le_rfl]
    rfl
  have hscale : 0 ≤ value.dscale ∧ value.dscale ≤ 16383 := hdscale ▸ h.dscale
  have hstorable : Storable value.value := hsame ▸ h.storable
  refine ⟨_, makeResult_of_storable hvalid hstorable hscale, ?_, ?_⟩
  · rw [(cmpNumerics_spec (stored_stripVar hvalid hstorable hscale) h).zero_iff,
      value_stored_stripVar hvalid, hsame]
  · exact (dscale_stripVar value).trans hdscale

end Text

/-! ### Messages -/

section Binary

variable {num : NumericData}

theorem getMsgInt2_sendInt2 (i : Int) (buf : List UInt8) :
    getMsgInt2 (sendInt2 i ++ buf) = .ok (i % 65536, buf) := by
  have h0 := Int.emod_nonneg i (show (65536 : Int) ≠ 0 by decide)
  obtain ⟨n, hn⟩ : ∃ n : Nat, i % 65536 = n := ⟨_, (Int.toNat_of_nonneg h0).symm⟩
  have hbytes : (UInt8.ofNat (n / 256)).toNat * 256 + (UInt8.ofNat (n % 256)).toNat = n := by
    rw [UInt8.toNat_ofNat', UInt8.toNat_ofNat']
    omega
  rw [sendInt2, hn, Int.toNat_natCast]
  simp only [cons_append, nil_append, getMsgInt2, hbytes]

theorem toInt16_emod {i : Int} (hlo : -32768 ≤ i) (hhi : i ≤ 32767) : toInt16 (i % 65536) = i := by
  have hmod : toInt16 (i % ((65536 : Nat) : Int)) = toInt16 i := Int.emod_bmod i 65536
  exact hmod.trans (toInt16_eq_iff.mpr ⟨hlo, hhi⟩)

/-- Digits arrive as they were sent. -/
theorem recvDigits_sendInt2 {digits : List Int} (h : Digits nbase digits) :
    recvDigits digits.length (digits.flatMap sendInt2) = .ok digits := by
  induction digits with
  | nil => rfl
  | cons d digits ih =>
    rw [Digits.cons_iff] at h
    obtain ⟨hd, hrest⟩ := h
    have hd' : ¬ (d < 0 ∨ d ≥ nbase) := by omega
    unfold nbase at hd
    rw [length_cons, flatMap_cons, recvDigits, getMsgInt2_sendInt2]
    simp only [toInt16_emod (show -32768 ≤ d by omega) (by omega), if_neg hd', ih hrest, ok_bind]

theorem recvSign_code (sign : Sign) : recvSign (sign.code % 65536) = .ok sign := by
  cases sign with
  | pos => rfl
  | neg => rfl
  | nan => rfl

/-- A message with few digits arrives as it was sent. -/
theorem numericRecv_numericSend (hdig : Digits nbase num.digits)
    (hweight : -32768 ≤ num.weight ∧ num.weight ≤ 32767)
    (hdscale : 0 ≤ num.dscale ∧ num.dscale ≤ 16383) (hlen : num.digits.length ≤ 3000) :
    numericRecv (numericSend num) (-1) = makeResult (setVarFromNum num) := by
  have hlen' : (num.digits.length : Int) % 65536 = num.digits.length := by omega
  have hshort : ¬ (num.digits.length : Int) > maxPrecision + maxResultScale := by
    rw [show maxPrecision + maxResultScale = 3000 from rfl]
    omega
  have hdscale' : num.dscale % 65536 = num.dscale := by omega
  unfold numericRecv numericSend
  simp only [append_assoc, setVarFromNum]
  rw [getMsgInt2_sendInt2, ok_bind, hlen', if_neg hshort, getMsgInt2_sendInt2, ok_bind,
    getMsgInt2_sendInt2, ok_bind, recvSign_code, ok_bind, getMsgInt2_sendInt2, ok_bind, hdscale',
    Int.toNat_natCast, recvDigits_sendInt2 hdig, ok_bind, toInt16_emod hweight.1 hweight.2,
    applyTypmod_default, ok_bind]

/-- What a message can hold. -/
theorem recvDigits_spec (n : Nat) : ∀ {buf : List UInt8} {digits : List Int},
    recvDigits n buf = .ok digits → Digits nbase digits ∧ digits.length = n := by
  induction n with
  | zero =>
    intro buf digits h
    obtain rfl := ok.inj h
    exact ⟨Digits.nil, rfl⟩
  | succ n ih =>
    intro buf digits h
    obtain ⟨msg, -, h⟩ := exists_of_bind h
    simp only at h
    split_ifs at h with hd
    obtain ⟨rest, hrest, h⟩ := exists_of_bind h
    obtain ⟨hdig, hlen⟩ := ih hrest
    obtain rfl := ok.inj h
    exact ⟨Digits.cons_iff.mpr ⟨by omega, hdig⟩, by rw [length_cons, hlen]⟩

/-- A value that comes from a message. -/
theorem exists_of_numericRecv {buf : List UInt8}
    (h : numericRecv buf typmod = .ok num) :
    ∃ var value : NumericVar, Digits nbase var.digits ∧ var.digits.length ≤ 3000 ∧
      applyTypmod var typmod = .ok value ∧ makeResult value = .ok num := by
  obtain ⟨len, hlen, h⟩ := exists_of_bind h
  split_ifs at h with hshort
  obtain ⟨weight, -, h⟩ := exists_of_bind h
  obtain ⟨code, -, h⟩ := exists_of_bind h
  obtain ⟨sign, -, h⟩ := exists_of_bind h
  obtain ⟨dscale, -, h⟩ := exists_of_bind h
  obtain ⟨digits, hdigits, h⟩ := exists_of_bind h
  obtain ⟨value, hvalue, h⟩ := exists_of_bind h
  obtain ⟨hdig, hdlen⟩ := recvDigits_spec _ hdigits
  refine ⟨_, value, hdig, ?_, hvalue, h⟩
  rw [show maxPrecision + maxResultScale = 3000 from rfl] at hshort
  change digits.length ≤ 3000
  omega

end Binary

/-! ### Values that come from a text or a message -/

section Produced

variable {num : NumericData}

/-- The values that the input functions give. -/
def Produced (num : NumericData) : Prop :=
  (∃ str typmod, numericIn str typmod = .ok num) ∨ ∃ buf typmod, numericRecv buf typmod = .ok num

theorem digits_scanDigits : ∀ {scan : Scan} {r : Scan × List Char},
    Digits 10 scan.decdigits → scanDigits cp scan = .ok r → Digits 10 r.1.decdigits := by
  induction cp with
  | nil =>
    intro scan r h hrun
    obtain rfl := ok.inj hrun
    exact h
  | cons c cp ih =>
    intro scan r h hrun
    rw [scanDigits] at hrun
    split at hrun
    · rename_i hdigit
      refine ih (Digits.append_iff.mpr ⟨h, ?_⟩) hrun
      have hrange : 48 ≤ c.toNat ∧ c.toNat ≤ 57 := of_decide_eq_true hdigit
      exact Digits.cons_iff.mpr ⟨by unfold digitValue; omega, Digits.nil⟩
    split at hrun
    · split_ifs at hrun
      exact @ih { scan with haveDp := true } r h hrun
    · obtain rfl := ok.inj hrun
      exact h

theorem decdigits_scanExponent {r : Scan × List Char} (hrun : scanExponent scan cp = .ok r) :
    r.1.decdigits = scan.decdigits := by
  cases cp with
  | nil =>
    obtain rfl := ok.inj hrun
    rfl
  | cons c cp =>
    rw [scanExponent] at hrun
    split at hrun
    · split at hrun
      · cases hrun
      simp only at hrun
      split_ifs at hrun
      obtain rfl := ok.inj hrun
      rfl
    · obtain rfl := ok.inj hrun
      rfl

theorem scanSign_ne_nan (cp : List Char) : (scanSign cp).1 ≠ .nan := by
  cases cp with
  | nil => exact noConfusion
  | cons c cp =>
    rw [scanSign]
    split
    · exact noConfusion
    split
    · exact noConfusion
    · exact noConfusion

theorem digits_setVarFromStr {r : NumericVar × List Char} (hrun : setVarFromStr cp = .ok r) :
    Digits nbase r.1.digits := by
  unfold setVarFromStr at hrun
  extract_lets signed haveDp digits at hrun
  split_ifs at hrun
  obtain ⟨scanned, hscan, hrun⟩ := exists_of_bind hrun
  obtain ⟨scanned', hexp, hrun⟩ := exists_of_bind hrun
  obtain rfl := ok.inj hrun
  have hdigits := digits_scanDigits Digits.nil hscan
  rw [← decdigits_scanExponent hexp] at hdigits
  exact (convertScan_spec hdigits (scanSign_ne_nan cp)).1.digits

theorem digits_applyTypmod {var value : NumericVar} (h : Digits nbase var.digits)
    (hrun : applyTypmod var typmod = .ok value) : Digits nbase value.digits := by
  rw [applyTypmod] at hrun
  split at hrun
  · obtain rfl := ok.inj hrun
    exact h
  simp only at hrun
  split at hrun
  · obtain ⟨-, -, hrun⟩ := exists_of_bind hrun
    obtain rfl := ok.inj hrun
    exact (roundVar_spec h _).2
  · obtain rfl := ok.inj hrun
    exact (roundVar_spec h _).2

/-- Every value that comes in is NaN or has the form of a stored value. -/
theorem Produced.stored (h : Produced num) :
    num = { digits := [], weight := 0, sign := .nan, dscale := 0 } ∨ num.Stored := by
  rcases h with ⟨str, typmod, hrun⟩ | ⟨buf, typmod, hrun⟩
  swap
  · obtain ⟨var, value, hdigits, -, hvalue, hmake⟩ := exists_of_numericRecv hrun
    exact stored_of_makeResult (digits_applyTypmod hdigits hvalue) hmake
  rw [numericIn] at hrun
  split at hrun
  · split_ifs at hrun
    exact @stored_of_makeResult constNan Digits.nil _ hrun
  obtain ⟨parsed, hparsed, hrun⟩ := exists_of_bind hrun
  split_ifs at hrun
  obtain ⟨value, hvalue, hrun⟩ := exists_of_bind hrun
  exact stored_of_makeResult (digits_applyTypmod (digits_setVarFromStr hparsed) hvalue) hrun

theorem makeResult_setVarFromNum (h : num.Stored) : makeResult (setVarFromNum num) = .ok num := by
  rw [makeResult_of_storable h.valid h.storable h.dscale,
    @stripVar_of_stripped (setVarFromNum num) h.stripped h.zero]
  rfl

/-- A message gives the value back just if it has no more than 3000 digits. -/
theorem binary_iff (h : num.Stored) :
    numericRecv (numericSend num) (-1) = .ok num ↔ num.digits.length ≤ 3000 := by
  constructor
  swap
  · intro hlen
    rw [numericRecv_numericSend h.digits h.weight h.dscale hlen, makeResult_setVarFromNum h]
  intro hrun
  obtain ⟨var, value, -, hlen, hvalue, hmake⟩ := exists_of_numericRecv hrun
  obtain rfl := ok.inj hvalue
  by_cases hs : var.sign = .nan
  · rw [makeResult, if_pos hs] at hmake
    obtain rfl := ok.inj hmake
    cases h.notNan rfl
  rw [makeResult_eq hs] at hmake
  split_ifs at hmake
  obtain rfl := ok.inj hmake
  refine le_trans ?_ hlen
  rw [NumericVar.stored, digits_stripVar]
  exact (stripDigits_sublist _).length_le

/-- A value survives both round trips, through its text and through its message, just if it is
NaN or its scale covers its digits and it has no more than 3000 of them. -/
theorem roundTrips_iff (h : Produced num) :
    ((∃ result, numericIn (numericOut num) (-1) = .ok result ∧ cmpNumerics result num = 0 ∧
        result.dscale = num.dscale) ∧ numericRecv (numericSend num) (-1) = .ok num) ↔
      num.sign = .nan ∨ (setVarFromNum num).WithinScale ∧ num.digits.length ≤ 3000 := by
  rcases h.stored with rfl | hstored
  · exact ⟨fun _ => .inl rfl, fun _ => ⟨⟨_, by decide +kernel, rfl, rfl⟩, by decide +kernel⟩⟩
  · rw [text_iff hstored, binary_iff hstored]
    exact ⟨.inr, fun hor => hor.resolve_left hstored.notNan⟩

/-- The text `0.5`. -/
theorem roundTrips_half :
    (∃ result, numericIn (numericOut ⟨[5000], -1, .pos, 1⟩) (-1) = .ok result ∧
        cmpNumerics result ⟨[5000], -1, .pos, 1⟩ = 0 ∧ result.dscale = 1) ∧
      numericRecv (numericSend ⟨[5000], -1, .pos, 1⟩) (-1) = .ok ⟨[5000], -1, .pos, 1⟩ := by
  have hin : numericIn ['0', '.', '5'] (-1) = .ok ⟨[5000], -1, .pos, 1⟩ := by decide +kernel
  refine (roundTrips_iff (.inl ⟨_, _, hin⟩)).mpr (.inr ⟨⟨5, ?_⟩, by decide⟩)
  norm_num [NumericVar.abs, setVarFromNum, scaled, value, unit, nbase]

/-- A message with a digit after the point and a scale of zero is accepted, and the text of
what it gives is `1`. -/
theorem numericOut_loses_digits :
    numericRecv [0, 1, 255, 255, 0, 0, 0, 0, 19, 136] (-1) = .ok ⟨[5000], -1, .pos, 0⟩ ∧
      numericOut ⟨[5000], -1, .pos, 0⟩ = ['1'] ∧
      numericIn ['1'] (-1) = .ok ⟨[1], 0, .pos, 0⟩ ∧
      cmpNumerics ⟨[1], 0, .pos, 0⟩ ⟨[5000], -1, .pos, 0⟩ ≠ 0 := by
  decide +kernel

end Produced

/-! ### Type modifiers -/

/-- A precision and a scale, as `numerictypmodin` accepts them. -/
structure Typmod where
  precision : Int
  scale : Int
  valid : (1 ≤ precision ∧ precision ≤ 1000) ∧ 0 ≤ scale ∧ scale ≤ precision

def Typmod.code (t : Typmod) : Int := t.precision * 65536 + t.scale + varhdrsz

theorem Typmod.fields (t : Typmod) : ¬ t.code < varhdrsz ∧
    (t.code - varhdrsz) / 65536 % 65536 = t.precision ∧ (t.code - varhdrsz) % 65536 = t.scale ∧
    t.scale % (dscaleMask + 1) = t.scale := by
  have hv := t.valid
  rw [code, dscaleMask]
  omega

section Typmod

variable {l : List Int} {d w : Int} {t : Typmod}

/-- The number of decimal digits of the first digit decides. -/
theorem zpow_le_scaled_iff (h : Digits nbase (d :: l)) {k : Nat}
    (hk : 10 ^ k ≤ d ∧ d < 10 ^ (k + 1)) (n : Int) :
    (10 : Rat) ^ n ≤ scaled nbase (d :: l) w ↔ n < 4 * w + k + 1 := by
  have hl := (Digits.cons_iff.mp h).2
  have hlt := hl.scaled_lt (w := w - 1) nbase_pos
  have hpos : (0 : Rat) < 10 ^ (4 * w) := zpow_pos (by norm_num) _
  rw [scaled_cons nbase_ne_zero, nbase_zpow]
  rw [sub_add_cancel, nbase_zpow] at hlt
  have hsplit : ∀ j : Nat, (10 : Rat) ^ (4 * w + j) = ((10 ^ j : Int) : Rat) * 10 ^ (4 * w) := by
    intro j
    rw [zpow_add₀ (by norm_num), mul_comm]
    norm_num
  constructor
  · intro hle
    have hmul := mul_le_mul_of_nonneg_right
      (Int.cast_le (R := Rat).mpr (show d + 1 ≤ 10 ^ (k + 1) from hk.2)) hpos.le
    rw [← hsplit] at hmul
    push_cast at hmul
    rw [← add_assoc] at hmul
    exact (zpow_lt_zpow_iff_right₀ (by norm_num)).mp
      (show (10 : Rat) ^ n < 10 ^ (4 * w + k + 1) by linarith)
  intro hlt'
  have hmul := mul_le_mul_of_nonneg_right (Int.cast_le (R := Rat).mpr hk.1) hpos.le
  have hmono := zpow_le_zpow_right₀ (show (1 : Rat) ≤ 10 by norm_num) (show n ≤ 4 * w + k by omega)
  rw [hsplit] at hmono
  linarith [hl.scaled_nonneg (w := w - 1) nbase_pos.le]

/-- The digits before the point are too many just if the number is too large. -/
theorem checkDdigits_spec (p s : Int) (h : Digits nbase l) : checkDdigits p s l ((w + 1) * 4) =
      if 10 ^ (p - s) ≤ scaled nbase l w then .error (.fieldOverflow p s) else .ok () := by
  induction l generalizing w with
  | nil =>
    rw [scaled_nil, if_neg (not_le.mpr (zpow_pos (by norm_num) _))]
    rfl
  | cons d l ih =>
    obtain ⟨hd, hl⟩ := Digits.cons_iff.mp h
    rw [checkDdigits]
    split
    next hne =>
      obtain ⟨k, hk, hdigits⟩ : ∃ k : Nat, (10 ^ k ≤ d ∧ d < 10 ^ (k + 1)) ∧
          (if d < 10 then (w + 1) * 4 - 3 else if d < 100 then (w + 1) * 4 - 2
            else if d < 1000 then (w + 1) * 4 - 1 else (w + 1) * 4) = 4 * w + k + 1 := by
        unfold nbase at hd
        split_ifs
        · exact ⟨0, by omega, by omega⟩
        · exact ⟨1, by omega, by omega⟩
        · exact ⟨2, by omega, by omega⟩
        · exact ⟨3, by omega, by omega⟩
      simp only [hdigits, zpow_le_scaled_iff h hk, gt_iff_lt]
    next hzero =>
      rw [scaled_cons nbase_ne_zero, not_not.mp hzero, Int.cast_zero, zero_mul, zero_add,
        ← ih hl, show decDigits = 4 from rfl]
      congr 1
      omega

section

variable {var : NumericVar} (h : Digits nbase var.digits)
include h

theorem applyTypmod_spec (t : Typmod) :
    applyTypmod var t.code =
      if 10 ^ (t.precision - t.scale) ≤ roundTo (unit t.scale) var.abs then
        .error (.fieldOverflow t.precision t.scale)
      else .ok (roundVar var t.scale) := by
  obtain ⟨hcode, hp, hs, -⟩ := t.fields
  obtain ⟨habs, hdig⟩ := roundVar_spec h t.scale
  rw [applyTypmod, if_neg hcode]
  simp only [hp, hs, show decDigits = 4 from rfl]
  split
  · rw [checkDdigits_spec _ _ hdig, ← habs, NumericVar.abs]
    split
    · rfl
    · rfl
  next hle =>
    rw [if_neg (not_le.mpr ?_)]
    · rfl
    rw [← habs]
    exact (abs_lt hdig).trans_le (zpow_le_zpow_right₀ (by norm_num) (by omega))

/-- A rounded value below the bound can be stored. -/
theorem makeResult_roundVar (hsign : var.sign ≠ .nan)
    (hlt : roundTo (unit t.scale) var.abs < 10 ^ (t.precision - t.scale)) :
    makeResult (roundVar var t.scale) = .ok (stripVar (roundVar var t.scale)).stored := by
  have hv := t.valid
  obtain ⟨habs, hdig⟩ := roundVar_spec h t.scale
  have hone : (1 : Rat) ≤ 10 := by norm_num
  have hstrip : Stripped (stripVar (roundVar var t.scale)).digits := by
    rw [digits_stripVar]
    exact stripDigits_stripped _
  rw [makeResult_eq (ne_nan_of_sign (sign_roundVar _ _) hsign), if_pos]
  rw [dscale_roundVar]
  refine ⟨?_, by omega⟩
  by_cases hnil : (stripVar (roundVar var t.scale)).digits = []
  · rw [weight_stripVar_of_nil hnil]
    decide
  have hpos : 0 < (roundVar var t.scale).abs := by
    refine lt_of_le_of_ne (abs_nonneg hdig) fun h0 => hnil ?_
    rw [← abs_eq_zero_iff (Digits.strip hdig) hstrip, abs_stripVar, ← h0]
  rw [le_weight_iff (Digits.strip hdig) hstrip hnil, weight_le_iff (Digits.strip hdig) hstrip hnil,
    nbase_zpow, nbase_zpow, abs_stripVar]
  rw [habs] at hpos ⊢
  exact ⟨(zpow_le_zpow_right₀ hone (by omega)).trans (unit_le_roundTo (unit_pos t.scale) hpos),
    hlt.trans_le (zpow_le_zpow_right₀ hone (by omega))⟩

end

variable {num : NumericData}

/-- The copy has the fields of what rounding would give. -/
theorem numeric_eq (h : num.Stored)
    (hw : (num.weight + 1) * decDigits ≤ t.precision - t.scale ∧ num.dscale ≤ t.scale →
      (setVarFromNum num).WithinScale) :
    numeric num t.code = applyTypmod (setVarFromNum num) t.code >>= makeResult := by
  obtain ⟨hcode, hp, hs, hscale⟩ := t.fields
  rw [numeric, if_neg h.notNan, if_neg hcode]
  simp only [hp, hs]
  split
  next hfast =>
    have hround := roundTo_of_withinScale (hw hfast) hfast.2
    have hlt : roundTo (unit t.scale) (setVarFromNum num).abs < 10 ^ (t.precision - t.scale) := by
      rw [hround]
      exact (abs_lt h.digits).trans_le (zpow_le_zpow_right₀ (by norm_num)
        ((mul_comm _ _).trans_le hfast.1))
    have hdig := (roundVar_spec h.valid.digits t.scale).2
    have hmake := makeResult_roundVar h.digits h.notNan hlt
    obtain ⟨hvalid, hvalue⟩ := stripVar_roundVar h.valid.digits h.notNan t.scale
    have hstored := (stored_of_makeResult hdig hmake).resolve_left
      fun hnan => hvalid.notNan (congrArg NumericData.sign hnan)
    rw [applyTypmod_spec h.digits, if_neg (not_le.mpr hlt), ok_bind, hmake,
      hstored.eq_of_value h (hvalue.trans (by rw [hround]; rfl))]
    rw [NumericVar.stored, dscale_stripVar, dscale_roundVar, hscale]
  · rfl

/-- The decimal place is one for which the `int`s of `round_var` and `trunc_var` do not overflow. -/
def PlaceFits (weight rscale : Int) : Prop :=
  -2147483648 ≤ (weight + 1) * decDigits ∧ (weight + 1) * decDigits < 2147483648 ∧
  -2147483648 ≤ (weight + 1) * decDigits + rscale ∧
  (weight + 1) * decDigits + rscale + decDigits - 1 < 2147483648

section

variable {var : NumericVar} {s : Int} (arith : Arith) (h : PlaceFits var.weight s)
include h

theorem digitsWanted_of_fits :
    digitsWanted arith var.weight s = .ok ((var.weight + 1) * decDigits + s) := by
  have hdec : decDigits = 4 := rfl
  obtain ⟨h1, h2, h3, h4⟩ := h
  have hweight : -2147483648 ≤ var.weight + 1 ∧ var.weight + 1 < 2147483648 := by
    rw [hdec] at h1 h2
    omega
  rw [digitsWanted, arith.int32_bind hweight, arith.int32_bind ⟨h1, h2⟩,
    arith.int32_of h3 (by omega)]

theorem roundVarInt_of_fits : roundVarInt arith var s = .ok (roundVar var s) := by
  rw [roundVarInt, digitsWanted_of_fits arith h, ok_bind, roundVar]
  split
  next hneg => simp only [ok_bind, roundAt, if_pos hneg]
  next hpos =>
    rw [arith.int32_bind]
    obtain ⟨-, -, -, h4⟩ := h
    have hdec : decDigits = 4 := rfl
    omega

theorem truncVarInt_of_fits : truncVarInt arith var s = .ok (truncVar var s) := by
  rw [truncVarInt, digitsWanted_of_fits arith h, ok_bind, truncVar]
  split
  next hneg => simp only [ok_bind, truncAt, if_pos hneg]
  next hpos =>
    rw [arith.int32_bind]
    obtain ⟨-, -, -, h4⟩ := h
    have hdec : decDigits = 4 := rfl
    omega

end

/-- Far behind the point the number of digits wanted is too large for an `int`; on the machine it
becomes negative, and nothing is left of the value. -/
theorem far_place_overflows : constOne.value = 1 ∧
    roundVarInt checked constOne 2147483647 = .error .intOverflow ∧
    truncVarInt checked constOne 2147483647 = .error .intOverflow ∧
    roundVarInt .wrapping constOne 2147483647 = .ok { constZero with dscale := 2147483647 } ∧
    truncVarInt .wrapping constOne 2147483647 = .ok { constZero with dscale := 2147483647 } := by
  refine ⟨?_, rfl, rfl, rfl, rfl⟩
  norm_num [NumericVar.value, NumericVar.abs, constOne, Sign.factor, scaled, value, nbase]

/-- Rounding and cutting off at every decimal place that fits, which takes one digit in front at
most, and what a type modifier makes of a stored value: an error just if the rounded value is too
large.  The copy is what the long way gives, if the display scale of a copied value covers its
digits. -/
theorem rounding_and_typmod (arith : Arith) (var : { var : NumericVar // Digits nbase var.digits })
    (s : Int) (hs : PlaceFits var.1.weight s) (num : { num : NumericData // num.Stored })
    (t : Typmod) :
    (∃ result, roundVarInt arith var.1 s = .ok result ∧
      result.value = var.1.sign.factor * (⌊var.1.abs * 10 ^ s + 1 / 2⌋ / 10 ^ s) ∧
      (result.digits = [] ∨ result.weight ≤ var.1.weight + 1)) ∧
    (∃ result, truncVarInt arith var.1 s = .ok result ∧
      result.value = var.1.sign.factor * (⌊var.1.abs * 10 ^ s⌋ / 10 ^ s) ∧
      (result.digits = [] ∨ result.weight = var.1.weight)) ∧
    (((num.1.weight + 1) * decDigits ≤ t.precision - t.scale ∧ num.1.dscale ≤ t.scale →
        (setVarFromNum num.1).WithinScale) →
      numeric num.1 t.code = applyTypmod (setVarFromNum num.1) t.code >>= makeResult ∧
      (10 ^ (t.precision - t.scale) ≤ roundTo (unit t.scale) (setVarFromNum num.1).abs ∧
          numeric num.1 t.code = .error (.fieldOverflow t.precision t.scale) ∨
        roundTo (unit t.scale) (setVarFromNum num.1).abs < 10 ^ (t.precision - t.scale) ∧
          ∃ result, numeric num.1 t.code = .ok result ∧ result.dscale = t.scale ∧ result.value =
            num.1.sign.factor * roundTo (unit t.scale) (setVarFromNum num.1).abs)) := by
  have hunit : ∀ x : Rat, x / unit s = x * 10 ^ s ∧ x * unit s = x / 10 ^ s := by
    intro x
    rw [unit, zpow_neg, div_inv_eq_mul]
    exact ⟨rfl, rfl⟩
  refine ⟨⟨_, roundVarInt_of_fits arith hs, ?_, weight_roundVar _ _⟩,
    ⟨_, truncVarInt_of_fits arith hs, ?_, weight_truncVar _ _⟩, fun hw => ?_⟩
  · rw [NumericVar.value, factor_mul_of_sign (sign_roundVar _ _), (roundVar_spec var.2 s).1, roundTo,
      (hunit _).1, (hunit _).2]
  · rw [NumericVar.value, factor_mul_of_sign (sign_truncVar _ _), (truncVar_spec var.2 s).1, floorTo,
      (hunit _).1, (hunit _).2]
  have h := num.2
  rw [numeric_eq h hw, applyTypmod_spec h.valid.digits]
  refine ⟨rfl, ?_⟩
  split
  next hle => exact .inl ⟨hle, rfl⟩
  next hlt =>
    refine .inr ⟨not_le.mp hlt, _, makeResult_roundVar h.valid.digits h.notNan (not_le.mp hlt),
      (dscale_stripVar _).trans (dscale_roundVar _ _), ?_⟩
    exact (stripVar_roundVar h.valid.digits h.notNan _).2

/-- `0.5` as a `numeric(5, 1)` is copied. -/
theorem typmod_half : numeric ⟨[5000], -1, .pos, 1⟩ 327685 =
    applyTypmod ⟨[5000], -1, .pos, 1⟩ 327685 >>= makeResult := by
  refine ((rounding_and_typmod checked ⟨⟨[5000], -1, .pos, 1⟩, by decide⟩ 0
    (by unfold PlaceFits; decide) ⟨⟨[5000], -1, .pos, 1⟩, by decide⟩ ⟨5, 1, by decide⟩).2.2 fun _ => ⟨5, ?_⟩).1
  norm_num [NumericVar.abs, setVarFromNum, scaled, value, unit, nbase]

end Typmod

end PrlPg.Numeric
