/-
Multiplication of `numeric` variables, and where its accumulators overflow.

`mul_var` adds up the rows of the product in accumulators of 32 bits and propagates carries
only when the bound `maxdig` on the accumulators would pass the limit, and at the end.  The
bound leaves room for the products that are added, but not for the carry that a propagation
adds to an accumulator which is already near the limit.

`mulTrace` lists the accumulators that carries are propagated over, as exact integers, and
`CarriesFit` says that no accumulator together with its carry exceeds the limit.  This is the case
if `maxdig` is at most `INT_MAX / NBASE` at each propagation (`runsFit`, a condition on the digits
of the first factor), or if the second factor has at most twenty-one digits.  The limit in
`mul_var` is `INT_MAX / (NBASE - 1)`, and in between there are products that overflow.
-/
import PrlPg.Proofs.NumericStored

namespace PrlPg.Numeric

open List Radix Rounding Sign
open Except (ok)

/-! ### Propagating carries -/

/-- Carry propagation with exact integers. -/
def carryExact (dig carry : Int) : Int × Int := ((dig + carry) % nbase, (dig + carry) / nbase)

/-- The sums of accumulator and carry that a propagation computes. -/
def carrySums : List Int → List Int
  | [] => []
  | dig :: digs => (dig + (run carryExact digs 0).2) :: carrySums digs

/-- Accumulators that are not negative. -/
def Nonneg (digs : List Int) : Prop := ∀ dig ∈ digs, 0 ≤ dig

section Carry

variable {arith : Arith} {digs : List Int}

theorem run_carryExact (h : Nonneg digs) :
    (run carryExact digs 0).1.length = digs.length ∧ Digits nbase (run carryExact digs 0).1 ∧
      0 ≤ (run carryExact digs 0).2 ∧
      value nbase (run carryExact digs 0).1 +
          nbase ^ digs.length * (run carryExact digs 0).2 = value nbase digs := by
  have hstep : ∀ x c : Int, 0 ≤ x → 0 ≤ c →
      (0 ≤ (carryExact x c).1 ∧ (carryExact x c).1 < nbase) ∧ 0 ≤ (carryExact x c).2 ∧
        (carryExact x c).1 + nbase * (carryExact x c).2 = x + c := by
    intro x c hx hc
    unfold carryExact nbase
    omega
  have hspec := run_spec (b := nbase) (P := fun x => 0 ≤ x) (I := fun c => 0 ≤ c)
    (Q := fun d => 0 ≤ d ∧ d < nbase) (f := id) (g := id) hstep h (le_refl 0)
  rwa [map_id, id, id, add_zero] at hspec

section

variable {dig carry : Int} (h0 : 0 ≤ dig + carry) (hfit : dig + carry ≤ intMax)
include h0 hfit

theorem carryStep_of_fits : carryStep arith dig carry = .ok (carryExact dig carry) := by
  unfold intMax at hfit
  rw [carryStep, arith.int32_of (by omega) (by omega)]
  change (if dig + carry ≥ nbase then _ else _) = _
  unfold carryExact nbase
  split
  · simp only [ok.injEq, Prod.mk.injEq, and_true]
    omega
  · simp only [ok.injEq, Prod.mk.injEq]
    omega

theorem storeStep_of_fits : storeStep arith dig carry = .ok (carryExact dig carry) := by
  have hdigit : 0 ≤ (carryExact dig carry).1 ∧ (carryExact dig carry).1 < 10000 := by
    unfold carryExact nbase
    omega
  rw [storeStep, carryStep_of_fits h0 hfit]
  change (arith.int16 (carryExact dig carry).1 >>= fun _ => _) = _
  rw [arith.int16_of (by omega) (by omega)]
  rfl

end

variable {step : Int → Int → Except Failure (Int × Int)} {r : Int × Int}

/-- A propagation whose sums fit. -/
theorem pass_of_fits (hstep : ∀ {dig carry : Int}, 0 ≤ dig + carry → dig + carry ≤ intMax →
      step dig carry = .ok (carryExact dig carry))
    (h : Nonneg digs) (hfit : ∀ s ∈ carrySums digs, s ≤ intMax) :
    pass step digs 0 = .ok (run carryExact digs 0) := by
  induction digs with
  | nil => rfl
  | cons dig digs ih =>
    obtain ⟨hdig, hrest⟩ := forall_mem_cons.mp h
    obtain ⟨hsum, hfit'⟩ := forall_mem_cons.mp hfit
    have hcarry := (run_carryExact hrest).2.2.1
    rw [Radix.pass, ih hrest hfit']
    change (step dig (run carryExact digs 0).2 >>= fun _ => _) = _
    rw [hstep (by omega) hsum]
    rfl

/-- A bound on the accumulators that leaves room for a carry. -/
theorem carrySums_le {bound carry : Int} (hcarry : 0 ≤ carry)
    (hstep : bound + carry < (carry + 1) * nbase) (hmax : bound + carry ≤ intMax)
    (hle : ∀ dig ∈ digs, dig ≤ bound) :
    (run carryExact digs 0).2 ≤ carry ∧ ∀ s ∈ carrySums digs, s ≤ intMax := by
  induction digs with
  | nil => exact ⟨hcarry, forall_mem_nil _⟩
  | cons dig digs ih =>
    obtain ⟨hdig, hle'⟩ := forall_mem_cons.mp hle
    obtain ⟨hc, hsums⟩ := ih hle'
    refine ⟨?_, forall_mem_cons.mpr ⟨by omega, hsums⟩⟩
    refine Int.le_of_lt_add_one (Int.ediv_lt_of_lt_mul nbase_pos ?_)
    omega

end Carry

/-! ### Adding a row -/

/-- The largest value that `maxdig` is allowed to have. -/
def maxdigLimit : Int := 214769

theorem maxdigLimit_eq : intMax / (nbase - 1) = maxdigLimit := by decide

/-- Accumulators with the bound that `maxdig` stands for. -/
def Bounded (maxdig : Int) (digs : List Int) : Prop :=
  ∀ dig ∈ digs, 0 ≤ dig ∧ dig ≤ maxdig * (nbase - 1)

/-- Adding a multiple, with exact integers. -/
def addRow (var1digit : Int) : List Int → List Int → List Int
  | dig :: digs, d :: ds => (dig + var1digit * d) :: addRow var1digit digs ds
  | digs, _ => digs

/-- A row of the product added at its place, `i1` being the index of the digit. -/
def rowAt (var1digit : Int) (i1 : Nat) (var2digits dig : List Int) : List Int :=
  dig.take (i1 + 2) ++ addRow var1digit (dig.drop (i1 + 2)) var2digits

section Row

variable {arith : Arith} {digs ds : List Int} {d m : Int}

theorem Bounded.nonneg (h : Bounded m digs) : Nonneg digs := fun dig hdig => (h dig hdig).1

theorem Bounded.mono {m' : Int} (h : Bounded m digs) (hle : m ≤ m') : Bounded m' digs := by
  intro dig hdig
  obtain ⟨h0, h1⟩ := h dig hdig
  unfold nbase at *
  exact ⟨h0, by omega⟩

theorem Bounded.of_digits (h : Digits nbase digs) : Bounded 1 digs := by
  intro dig hdig
  obtain ⟨h0, h1⟩ := h dig hdig
  exact ⟨h0, by omega⟩

theorem mul_digit_le {e : Int} (hd : 0 ≤ d) (he : 0 ≤ e ∧ e < nbase) :
    0 ≤ d * e ∧ d * e ≤ d * (nbase - 1) :=
  ⟨mul_nonneg hd he.1, mul_le_mul_of_nonneg_left (by omega) hd⟩

theorem addMultiple_eq (h : Bounded m digs) (hm : 0 ≤ m) (hds : Digits nbase ds) (hd : 0 ≤ d)
    (hlimit : m + d ≤ maxdigLimit) : addMultiple arith d digs ds = .ok (addRow d digs ds) := by
  induction digs generalizing ds with
  | nil => rfl
  | cons dig digs ih =>
    cases ds with
    | nil => rfl
    | cons e ds =>
      obtain ⟨⟨hdig0, hdig⟩, hrest⟩ := forall_mem_cons.mp h
      obtain ⟨he, hds'⟩ := Digits.cons_iff.mp hds
      obtain ⟨hp0, hp⟩ := mul_digit_le hd he
      unfold maxdigLimit nbase at *
      rw [addMultiple, arith.int32_of (by omega) (by omega)]
      change (arith.int32 (dig + d * e) >>= fun _ => _) = _
      rw [arith.int32_of (by omega) (by omega)]
      rw [ih hrest hds']
      rfl

theorem length_addRow : (addRow d digs ds).length = digs.length := by
  induction digs generalizing ds with
  | nil => rfl
  | cons dig digs ih =>
    cases ds with
    | nil => rfl
    | cons e ds => rw [addRow, length_cons, ih, length_cons]

theorem Bounded.addRow (h : Bounded m digs) (hds : Digits nbase ds) (hd : 0 ≤ d) :
    Bounded (m + d) (addRow d digs ds) := by
  induction digs generalizing ds with
  | nil => exact forall_mem_nil _
  | cons dig digs ih =>
    cases ds with
    | nil => exact h.mono (by omega)
    | cons e ds =>
      obtain ⟨⟨hdig0, hdig⟩, hrest⟩ := forall_mem_cons.mp h
      obtain ⟨he, hds'⟩ := Digits.cons_iff.mp hds
      obtain ⟨hp0, hp⟩ := mul_digit_le hd he
      refine forall_mem_cons.mpr ⟨⟨by omega, ?_⟩, ih hrest hds'⟩
      rw [add_mul]
      omega

theorem value_addRow (hlen : ds.length ≤ digs.length) : value nbase (addRow d digs ds) =
    value nbase digs + d * value nbase ds * nbase ^ (digs.length - ds.length) := by
  induction digs generalizing ds with
  | nil =>
    obtain rfl := length_eq_zero_iff.mp (Nat.le_zero.mp hlen)
    simp [addRow]
  | cons dig digs ih =>
    cases ds with
    | nil => simp [addRow]
    | cons e ds =>
      have hlen' : ds.length ≤ digs.length := Nat.le_of_succ_le_succ hlen
      rw [addRow, value_cons, value_cons, value_cons, ih hlen', length_addRow, length_cons,
        length_cons, Nat.add_sub_add_right]
      have hpow : nbase ^ digs.length = nbase ^ ds.length * nbase ^ (digs.length - ds.length) := by
        rw [← pow_add, Nat.add_sub_cancel' hlen']
      rw [hpow]
      ring

theorem length_rowAt (i1 : Nat) : (rowAt d i1 ds digs).length = digs.length := by
  rw [rowAt, length_append, length_addRow, ← length_append, take_append_drop]

theorem Bounded.rowAt (h : Bounded m digs) (hds : Digits nbase ds) (hd : 0 ≤ d) (i1 : Nat) :
    Bounded (m + d) (rowAt d i1 ds digs) := by
  refine forall_mem_append.mpr ⟨?_, ?_⟩
  · exact Bounded.mono (fun dig hdig => h dig (mem_of_mem_take hdig)) (by omega)
  · exact Bounded.addRow (fun dig hdig => h dig (mem_of_mem_drop hdig)) hds hd

theorem value_rowAt {i1 : Nat} (hlen : i1 + 2 + ds.length ≤ digs.length) :
    value nbase (rowAt d i1 ds digs) = value nbase digs +
      d * value nbase ds * nbase ^ (digs.length - (i1 + 2) - ds.length) := by
  rw [value_take_drop digs (i1 + 2), rowAt, value_append, length_addRow, value_addRow
    (by rw [length_drop]; omega), length_drop]
  ring

end Row

/-! ### The loop over the rows -/

/-- The accumulators that carries are propagated over, with exact integers. -/
def mulTrace (var2digits : List Int) : List Int → List Int → Int → List (List Int)
  | [], dig, _ => [dig]
  | d :: rest, dig, maxdig =>
    if d = 0 then mulTrace var2digits rest dig maxdig
    else if maxdig + d > intMax / (nbase - 1) then
      dig :: mulTrace var2digits rest
        (rowAt d rest.length var2digits (run carryExact dig 0).1) (1 + d)
    else mulTrace var2digits rest (rowAt d rest.length var2digits dig) (maxdig + d)

/-- No sum of an accumulator and its carry exceeds the largest integer. -/
def CarriesFit (digits1 digits2 : List Int) : Prop :=
  ∀ dig ∈ mulTrace digits2 digits1.reverse
      (List.replicate (digits1.length + digits2.length + 1) 0) 0,
    ∀ s ∈ carrySums dig, s ≤ intMax

/-- At each propagation `maxdig` is at most `INT_MAX / NBASE`; the digits of the first factor are
given from the last one on. -/
def runsFit : List Int → Int → Bool
  | [], maxdig => decide (maxdig ≤ intMax / nbase)
  | d :: rest, maxdig =>
    if maxdig + d > intMax / (nbase - 1) then
      decide (maxdig ≤ intMax / nbase) && runsFit rest (1 + d)
    else runsFit rest (maxdig + d)

/-- The state of the loop after the digits `done`, with those of `rest` to come. -/
structure Rows (digits2 rest done dig : List Int) (maxdig : Int) : Prop where
  toCome : Digits nbase rest
  taken : Digits nbase done
  second : Digits nbase digits2
  length : dig.length = rest.length + done.length + digits2.length + 1
  bounded : Bounded maxdig dig
  nonneg : 0 ≤ maxdig
  limit : maxdig ≤ maxdigLimit
  value : Radix.value nbase dig = Radix.value nbase done * Radix.value nbase digits2

section Rows

variable {arith : Arith} {digits2 rest done dig : List Int} {maxdig d : Int}

section

variable (h : Rows digits2 (d :: rest) done dig maxdig)
include h

/-- The row of one more digit. -/
theorem Rows.row (hlimit : maxdig + d ≤ maxdigLimit) :
    Rows digits2 rest (d :: done) (rowAt d rest.length digits2 dig) (maxdig + d) := by
  obtain ⟨hd, hrest⟩ := Digits.cons_iff.mp h.toCome
  have hlen := h.length
  rw [length_cons] at hlen
  refine ⟨hrest, Digits.cons_iff.mpr ⟨hd, h.taken⟩, h.second, ?_, h.bounded.rowAt h.second hd.1 _,
    add_nonneg h.nonneg hd.1, hlimit, ?_⟩
  · rw [length_rowAt, hlen, length_cons]
    omega
  rw [value_rowAt (by omega), h.value, value_cons, hlen,
    show rest.length + 1 + done.length + digits2.length + 1 - (rest.length + 2) - digits2.length =
      done.length by omega]
  ring

theorem Rows.limit_one : 1 + d ≤ maxdigLimit := by
  obtain ⟨hd, -⟩ := Digits.cons_iff.mp h.toCome
  unfold maxdigLimit nbase at *
  omega

end

/-- Propagating carries keeps the value, and leaves digits. -/
theorem Rows.propagated (h : Rows digits2 rest done dig maxdig) :
    Rows digits2 rest done (run carryExact dig 0).1 1 := by
  obtain ⟨hlen, hdig, hcarry, hval⟩ := run_carryExact h.bounded.nonneg
  -- the product so far has fewer digits than there are accumulators
  have hno : (run carryExact dig 0).2 = 0 := by
    by_contra hne
    have hdone := h.taken.value_lt nbase_pos.le
    have hdone0 := h.taken.value_nonneg nbase_pos.le
    have h2 := h.second.value_lt nbase_pos.le
    have h20 := h.second.value_nonneg nbase_pos.le
    have hdig0 := hdig.value_nonneg nbase_pos.le
    have hprod : Radix.value nbase done * Radix.value nbase digits2 <
        nbase ^ done.length * nbase ^ digits2.length := mul_lt_mul'' hdone h2 hdone0 h20
    have hpow : nbase ^ done.length * nbase ^ digits2.length ≤ nbase ^ dig.length := by
      rw [← pow_add]
      exact pow_le_pow_right₀ (by decide) (by rw [h.length]; omega)
    have hmul : nbase ^ dig.length * 1 ≤ nbase ^ dig.length * (run carryExact dig 0).2 :=
      mul_le_mul_of_nonneg_left (by omega) (pow_nonneg nbase_pos.le _)
    have := h.value
    omega
  rw [hno, mul_zero, add_zero] at hval
  exact ⟨h.toCome, h.taken, h.second, by rw [hlen, h.length], Bounded.of_digits hdig, by decide,
    by decide, by rw [hval, h.value]⟩

theorem Rows.digits_propagated (h : Rows digits2 rest done dig maxdig) :
    Digits nbase (run carryExact dig 0).1 := (run_carryExact h.bounded.nonneg).2.1

theorem Rows.skip (h : Rows digits2 (0 :: rest) done dig maxdig) :
    Rows digits2 rest (0 :: done) dig maxdig := by
  obtain ⟨hd, hrest⟩ := Digits.cons_iff.mp h.toCome
  have hlen := h.length
  rw [length_cons] at hlen
  refine ⟨hrest, Digits.cons_iff.mpr ⟨hd, h.taken⟩, h.second, ?_, h.bounded, h.nonneg, h.limit, ?_⟩
  · rw [hlen, length_cons]
    omega
  · rw [value_cons, zero_mul, zero_add, h.value]

variable (arith) in
/-- One row of the loop does not overflow. -/
theorem Rows.addMultiple (h : Rows digits2 (d :: rest) done dig maxdig)
    (hlimit : maxdig + d ≤ maxdigLimit) :
    (do
      let sums ← addMultiple arith d (dig.drop (rest.length + 2)) digits2
      .ok (dig.take (rest.length + 2) ++ sums)) =
      (.ok (rowAt d rest.length digits2 dig) : Except Failure (List Int)) := by
  obtain ⟨hd, -⟩ := Digits.cons_iff.mp h.toCome
  rw [addMultiple_eq (fun x hx => h.bounded x (mem_of_mem_drop hx)) h.nonneg h.second hd.1 hlimit]
  rfl

theorem Rows.mulLoop_row (h : Rows digits2 (d :: rest) done dig maxdig) (hd : d ≠ 0)
    (hlimit : ¬ maxdig + d > maxdigLimit) : mulLoop arith digits2 (d :: rest) dig maxdig =
      mulLoop arith digits2 rest (rowAt d rest.length digits2 dig) (maxdig + d) := by
  rw [mulLoop, if_neg hd]
  simp only [maxdigLimit_eq, if_neg hlimit]
  rw [h.addMultiple arith (not_lt.mp hlimit)]
  rfl

theorem Rows.mulLoop_propagate (h : Rows digits2 (d :: rest) done dig maxdig) (hd : d ≠ 0)
    (hover : maxdig + d > maxdigLimit)
    (hpass : pass (carryStep arith) dig 0 = .ok (run carryExact dig 0)) :
    mulLoop arith digits2 (d :: rest) dig maxdig =
      mulLoop arith digits2 rest (rowAt d rest.length digits2 (run carryExact dig 0).1) (1 + d) := by
  rw [mulLoop, if_neg hd]
  simp only [maxdigLimit_eq, if_pos hover]
  rw [hpass]
  refine Eq.trans ?_ (congrArg (· >>= fun dig => mulLoop arith digits2 rest dig (1 + d))
    (h.propagated.addMultiple arith h.limit_one))
  rfl

variable (arith) in
/-- If every propagation fits, the loop ends with the product in the accumulators. -/
theorem Rows.loop (h : Rows digits2 rest done dig maxdig)
    (hfit : ∀ dig' ∈ mulTrace digits2 rest dig maxdig, ∀ s ∈ carrySums dig', s ≤ intMax) :
    ∃ dig' maxdig', mulLoop arith digits2 rest dig maxdig = .ok dig' ∧
      (∀ s ∈ carrySums dig', s ≤ intMax) ∧ Rows digits2 [] (rest.reverse ++ done) dig' maxdig' := by
  induction rest generalizing done dig maxdig with
  | nil => exact ⟨dig, maxdig, rfl, hfit dig mem_cons_self, h⟩
  | cons d rest ih =>
    rw [mulTrace] at hfit
    rw [reverse_cons, append_assoc, singleton_append]
    by_cases hd : d = 0
    · subst hd
      exact ih h.skip hfit
    split_ifs at hfit with hover
    · obtain ⟨hnow, hlater⟩ := forall_mem_cons.mp hfit
      rw [h.mulLoop_propagate hd hover (pass_of_fits carryStep_of_fits h.bounded.nonneg hnow)]
      exact ih (h.propagated.row h.limit_one) hlater
    · rw [h.mulLoop_row hd hover]
      exact ih (h.row (not_lt.mp hover)) hfit

/-- With this bound the carries fit. -/
theorem Rows.carrySums_le (h : Rows digits2 rest done dig maxdig) (hm : maxdig ≤ intMax / nbase) :
    ∀ s ∈ carrySums dig, s ≤ intMax := by
  have hmax : intMax / nbase = 214748 := by decide
  have h0 := h.nonneg
  refine (Numeric.carrySums_le h0 ?_ ?_ fun x hx => (h.bounded x hx).2).2
  · unfold nbase
    omega
  · unfold nbase intMax
    omega

theorem Rows.fits_of_runs (h : Rows digits2 rest done dig maxdig)
    (hruns : runsFit rest maxdig = true) :
    ∀ dig' ∈ mulTrace digits2 rest dig maxdig, ∀ s ∈ carrySums dig', s ≤ intMax := by
  induction rest generalizing done dig maxdig with
  | nil => exact forall_mem_singleton.mpr (h.carrySums_le (of_decide_eq_true hruns))
  | cons d rest ih =>
    rw [mulTrace]
    rw [runsFit] at hruns
    by_cases hd : d = 0
    · subst hd
      rw [add_zero, maxdigLimit_eq, if_neg (not_lt.mpr h.limit)] at hruns
      exact ih h.skip hruns
    rw [if_neg hd]
    split_ifs at hruns ⊢ with hover
    · obtain ⟨hnow, hlater⟩ := (Bool.and_eq_true _ _).mp hruns
      exact forall_mem_cons.mpr ⟨h.carrySums_le (of_decide_eq_true hnow),
        ih (h.propagated.row h.limit_one) hlater⟩
    · exact ih (h.row (not_lt.mp hover)) hruns

end Rows

/-! ### Products -/

section Product

variable {arith : Arith} {digits1 digits2 : List Int}

section

variable (h1 : Digits nbase digits1) (h2 : Digits nbase digits2)
include h1 h2

theorem rows_start :
    Rows digits2 digits1.reverse [] (replicate (digits1.length + digits2.length + 1) 0) 0 := by
  refine ⟨fun d hd => h1 d (mem_reverse.mp hd), Digits.nil, h2, ?_, ?_, le_refl 0, by decide, ?_⟩
  · rw [length_replicate, length_reverse, length_nil, add_zero]
  · intro dig hdig
    rw [eq_of_mem_replicate hdig]
    exact ⟨le_refl 0, le_of_eq (zero_mul _).symm⟩
  · rw [value_replicate_zero, value_nil, zero_mul]

/-- If the carries fit, the digits are those of the product. -/
theorem mulDigits_of_fits (hfit : CarriesFit digits1 digits2) :
    ∃ ds, mulDigits arith digits1 digits2 = .ok ds ∧ Digits nbase ds ∧
      ds.length = digits1.length + digits2.length + 1 ∧
      value nbase ds = value nbase digits1 * value nbase digits2 := by
  obtain ⟨dig, maxdig, hrun, hlast, hrows⟩ := (rows_start h1 h2).loop arith hfit
  rw [reverse_reverse, append_nil] at hrows
  refine ⟨(run carryExact dig 0).1, ?_, hrows.digits_propagated, ?_, hrows.propagated.value⟩
  · rw [mulDigits, hrun]
    change (pass (storeStep arith) dig 0 >>= fun _ => _) = _
    rw [pass_of_fits storeStep_of_fits hrows.bounded.nonneg hlast]
    rfl
  · rw [hrows.propagated.length, length_nil, zero_add]

theorem carriesFit_of_runs (hruns : runsFit digits1.reverse 0 = true) :
    CarriesFit digits1 digits2 := (rows_start h1 h2).fits_of_runs hruns

end

end Product

/-! ### A short second factor

Each accumulator gets a product from at most as many rows as the second factor has digits.  With
few digits this is too little for an overflow. -/

/-- The bounds on the accumulators when `rows` rows are to come and the second factor has `width`
digits. -/
def Stair (width rows : Nat) (dig : List Int) : Prop :=
  ∀ p, dig.getD p 0 ≤ 9999 + 99980001 * (min (p - (rows + 1)) width : Nat)

section Few

variable {digits2 rest done dig ds : List Int} {maxdig d : Int} {rows : Nat}

theorem stair_of_digits (h : Digits nbase dig) (width rows : Nat) : Stair width rows dig := by
  intro p
  have hdigit : dig.getD p 0 < nbase := by
    have := (h.digitAt nbase_pos p).2
    rwa [digitAt, if_pos (Int.natCast_nonneg p), Int.toNat_natCast] at this
  unfold nbase at hdigit
  omega

theorem getD_addRow (hd : 0 ≤ d ∧ d < nbase) (hds : Digits nbase ds) (p : Nat) :
    (addRow d dig ds).getD p 0 ≤ dig.getD p 0 + if p < ds.length then 99980001 else 0 := by
  induction dig generalizing ds p with
  | nil =>
    rw [show addRow d [] ds = [] from rfl]
    split <;> omega
  | cons x dig ih =>
    cases ds with
    | nil => exact le_of_eq (add_zero _).symm
    | cons e ds =>
      obtain ⟨he, hds'⟩ := Digits.cons_iff.mp hds
      rw [addRow]
      cases p with
      | zero =>
        have hprod : d * e ≤ 9999 * 9999 := by
          unfold nbase at hd he
          exact mul_le_mul (by omega) (by omega) he.1 (by omega)
        rw [getD_cons_zero, getD_cons_zero, if_pos (length_pos_of_mem mem_cons_self)]
        omega
      | succ p =>
        simp only [length_cons, Nat.add_lt_add_iff_right]
        exact ih hds' p

theorem Stair.rowAt (h : Stair ds.length (rows + 1) dig) (hd : 0 ≤ d ∧ d < nbase)
    (hds : Digits nbase ds) (hlen : rows + 2 ≤ dig.length) :
    Stair ds.length rows (rowAt d rows ds dig) := by
  intro p
  have htake : (dig.take (rows + 2)).length = rows + 2 := length_take_of_le hlen
  have hbound := h p
  rw [Numeric.rowAt]
  by_cases hp : p < rows + 2
  · rw [getD_append _ _ _ _ (by omega), getD_eq_getElem?_getD,
      getElem?_take_of_lt hp, ← getD_eq_getElem?_getD]
    omega
  have hrow := @getD_addRow (dig.drop (rows + 2)) ds d hd hds (p - (rows + 2))
  have hdrop : (dig.drop (rows + 2)).getD (p - (rows + 2)) 0 = dig.getD p 0 := by
    rw [getD_eq_getElem?_getD, getElem?_drop, Nat.add_sub_cancel' (not_lt.mp hp),
      ← getD_eq_getElem?_getD]
  rw [getD_append_right _ _ _ _ (by omega), htake]
  split at hrow <;> omega

theorem Stair.le (h : Stair digits2.length rows dig) (hfew : digits2.length ≤ 21) :
    ∀ x ∈ dig, x ≤ 2100000000 := by
  intro x hx
  obtain ⟨p, hp, rfl⟩ := getElem_of_mem hx
  have hbound := h p
  rw [getD_eq_getElem _ _ hp] at hbound
  omega

theorem Stair.carrySums_le (h : Stair digits2.length rows dig) (hfew : digits2.length ≤ 21) :
    ∀ s ∈ carrySums dig, s ≤ intMax :=
  (@Numeric.carrySums_le dig 2100000000 300000 (by decide) (by decide) (by decide) (h.le hfew)).2

theorem Rows.fits_of_few (h : Rows digits2 rest done dig maxdig)
    (hstair : Stair digits2.length rest.length dig) (hfew : digits2.length ≤ 21) :
    ∀ dig' ∈ mulTrace digits2 rest dig maxdig, ∀ s ∈ carrySums dig', s ≤ intMax := by
  induction rest generalizing done dig maxdig with
  | nil => exact forall_mem_singleton.mpr (hstair.carrySums_le hfew)
  | cons d rest ih =>
    have hd := (Digits.cons_iff.mp h.toCome).1
    have hlen : rest.length + 2 ≤ dig.length := by
      rw [h.length, length_cons]
      omega
    rw [mulTrace]
    by_cases hzero : d = 0
    · subst hzero
      refine ih h.skip fun p => (hstair p).trans ?_
      simp only [length_cons]
      omega
    split_ifs with hover
    · refine forall_mem_cons.mpr
        ⟨hstair.carrySums_le hfew, ih (h.propagated.row h.limit_one) ?_⟩
      refine (stair_of_digits h.digits_propagated _ _).rowAt hd h.second ?_
      rwa [(run_carryExact h.bounded.nonneg).1]
    · exact ih (h.row (not_lt.mp hover)) (hstair.rowAt hd h.second hlen)

theorem carriesFit_of_few {digits1 : List Int} (h1 : Digits nbase digits1)
    (h2 : Digits nbase digits2) (hfew : digits2.length ≤ 21) : CarriesFit digits1 digits2 := by
  refine (rows_start h1 h2).fits_of_few (stair_of_digits ?_ _ _) hfew
  intro x hx
  rw [eq_of_mem_replicate hx]
  exact ⟨le_refl 0, nbase_pos⟩

end Few

/-! ### Variables -/

section Variables

variable {arith : Arith} {var1 var2 : NumericVar} {rscale : Int} {result : NumericVar}

theorem factor_productSign (h1 : var1.Valid) (h2 : var2.Valid) :
    (productSign var1.sign var2.sign).factor = var1.sign.factor * var2.sign.factor := by
  rcases h1.sign_cases with hs1 | ⟨hs1, -⟩ <;> rcases h2.sign_cases with hs2 | ⟨hs2, -⟩ <;>
    simp [hs1, hs2, productSign, factor]

theorem productSign_ne_nan (sign1 sign2 : Sign) : productSign sign1 sign2 ≠ .nan := by
  unfold productSign
  split
  · exact noConfusion
  · exact noConfusion

/-- Nothing is clipped from the operands. -/
def Unclipped (var1 var2 : NumericVar) (rscale : Int) : Prop :=
  var1.digits ≠ [] → var2.digits ≠ [] → (var1.digits.length + var2.digits.length + 1 : Int) ≤
    var1.weight + var2.weight + 2 + 1 + rscale * decDigits + mulGuardDigits

/-- The accumulators of the product do not overflow. -/
def ProductFits (var1 var2 : NumericVar) : Prop :=
  var1.digits ≠ [] → var2.digits ≠ [] → CarriesFit var1.digits var2.digits

theorem mulVar_unclipped (hne : ¬ (var1.digits = [] ∨ var2.digits = []))
    (hclip : Unclipped var1 var2 rscale) :
    mulVar arith var1 var2 rscale = (mulDigits arith var1.digits var2.digits).map fun digits =>
      stripVar (roundVar
        { digits := digits, weight := var1.weight + var2.weight + 2,
          sign := productSign var1.sign var2.sign, dscale := rscale } rscale) := by
  obtain ⟨hne1, hne2⟩ := not_or.mp hne
  unfold mulVar
  rw [if_neg hne]
  simp only [clipDigits]
  rw [if_neg (not_lt.mpr (hclip hne1 hne2))]
  simp only [take_length]
  cases mulDigits arith var1.digits var2.digits with
  | error e => rfl
  | ok digits => rfl

/-- The digits of the product, with the sum of the weights, are the product. -/
theorem abs_product {ds : List Int} {sign : Sign}
    (hlen : ds.length = var1.digits.length + var2.digits.length + 1)
    (hvalue : value nbase ds = value nbase var1.digits * value nbase var2.digits) :
    (NumericVar.mk ds (var1.weight + var2.weight + 2) sign rscale).abs = var1.abs * var2.abs := by
  have hbase : (nbase : Rat) ≠ 0 := by norm_num [nbase]
  simp only [NumericVar.abs, scaled, hvalue, hlen]
  push_cast
  rw [show var1.weight + var2.weight + 2 + 1 - ((var1.digits.length : Int) + var2.digits.length + 1)
      = (var1.weight + 1 - var1.digits.length) + (var2.weight + 1 - var2.digits.length) by ring,
    zpow_add₀ hbase]
  ring

section

variable (h1 : var1.Valid) (h2 : var2.Valid) (hclip : Unclipped var1 var2 rscale)
include h1 h2 hclip

/-- A product that does not overflow is rounded to the scale. -/
theorem mulVar_of_fits (hfit : ProductFits var1 var2) :
    ∃ result, mulVar arith var1 var2 rscale = .ok result ∧ result.Valid ∧
      Stripped result.digits ∧ result.dscale = rscale ∧
      result.value = (productSign var1.sign var2.sign).factor *
        roundTo (unit rscale) (var1.abs * var2.abs) := by
  by_cases hne : var1.digits = [] ∨ var2.digits = []
  · have hzero : var1.abs * var2.abs = 0 := by
      rcases hne with hnil | hnil
      · rw [NumericVar.abs, hnil, scaled_nil, zero_mul]
      · rw [NumericVar.abs, NumericVar.abs, hnil, scaled_nil, mul_zero]
    refine ⟨{ constZero with dscale := rscale }, by rw [mulVar, if_pos hne], ?_, ?_, rfl, ?_⟩
    · exact ⟨Digits.nil, noConfusion, fun _ => rfl⟩
    · exact stripped_nil
    · rw [hzero, roundTo_zero, mul_zero]
      exact (congrArg _ scaled_nil).trans (mul_zero _)
  obtain ⟨hne1, hne2⟩ := not_or.mp hne
  obtain ⟨ds, hrun, hdig, hlen, hvalue⟩ :=
    @mulDigits_of_fits arith _ _ h1.digits h2.digits (hfit hne1 hne2)
  obtain ⟨hvalid, hround⟩ := @stripVar_roundVar
    { digits := ds, weight := var1.weight + var2.weight + 2,
      sign := productSign var1.sign var2.sign, dscale := rscale }
    hdig (productSign_ne_nan _ _) rscale
  refine ⟨_, ?_, hvalid, ?_, ?_, ?_⟩
  · rw [mulVar_unclipped hne hclip, hrun]
    rfl
  · rw [digits_stripVar]
    exact stripDigits_stripped _
  · rw [dscale_stripVar, dscale_roundVar]
  · rw [hround, abs_product hlen hvalue]

end

/-- A first factor in whose runs the carries fit, or a short second one. -/
def FactorsFit (digits1 digits2 : List Int) : Prop :=
  runsFit digits1.reverse 0 = true ∨ digits2.length ≤ 21

theorem productFits_of_factors (h1 : var1.Valid) (h2 : var2.Valid)
    (hfit : FactorsFit var1.digits var2.digits) : ProductFits var1 var2 := fun _ _ =>
  hfit.elim (carriesFit_of_runs h1.digits h2.digits) (carriesFit_of_few h1.digits h2.digits)

end Variables

/-! ### Stored values -/

section Stored

variable {num1 num2 : NumericData}

theorem unclipped_of_stored (h1 : num1.Stored) (h2 : num2.Stored)
    (hw1 : (setVarFromNum num1).WithinScale) (hw2 : (setVarFromNum num2).WithinScale) :
    Unclipped (setVarFromNum num1) (setVarFromNum num2) (num1.dscale + num2.dscale) := by
  have hlen1 := h1.length_le hw1
  have hlen2 := h2.length_le hw2
  have hscale1 := h1.dscale
  have hscale2 := h2.dscale
  intro _ _
  change (num1.digits.length + num2.digits.length + 1 : Int) ≤
    num1.weight + num2.weight + 2 + 1 + (num1.dscale + num2.dscale) * 4 + 2
  omega

/-- The sum of the scales covers the product. -/
theorem roundTo_product {var1 var2 : NumericVar} (hw1 : var1.WithinScale) (hw2 : var2.WithinScale) :
    roundTo (unit (var1.dscale + var2.dscale)) (var1.abs * var2.abs) = var1.abs * var2.abs := by
  obtain ⟨m1, hm1⟩ := hw1
  obtain ⟨m2, hm2⟩ := hw2
  have hprod : var1.abs * var2.abs = (m1 * m2 : Int) * unit (var1.dscale + var2.dscale) := by
    have hunit : unit (var1.dscale + var2.dscale) = unit var1.dscale * unit var2.dscale := by
      rw [unit, unit, unit, neg_add, zpow_add₀ (by norm_num)]
    rw [hm1, hm2, hunit]
    push_cast
    ring
  rw [hprod, roundTo_int_mul (unit_pos _).ne']

section

variable (arith : Arith) (h1 : num1.Stored) (h2 : num2.Stored)
include arith h1 h2

/-- The product in a variable, with any arithmetic. -/
theorem mulVar_of_stored (hw1 : (setVarFromNum num1).WithinScale)
    (hw2 : (setVarFromNum num2).WithinScale)
    (hfit : ProductFits (setVarFromNum num1) (setVarFromNum num2)) :
    ∃ result, mulVar arith (setVarFromNum num1) (setVarFromNum num2)
        (num1.dscale + num2.dscale) = .ok result ∧ result.Valid ∧
      result.dscale = num1.dscale + num2.dscale ∧ result.value = num1.value * num2.value := by
  obtain ⟨result, hrun, hvalid, -, hscale, hvalue⟩ :=
    @mulVar_of_fits arith _ _ _ h1.valid h2.valid (unclipped_of_stored h1 h2 hw1 hw2) hfit
  refine ⟨result, hrun, hvalid, hscale, ?_⟩
  have hround := roundTo_product hw1 hw2
  change roundTo (unit (num1.dscale + num2.dscale)) _ = _ at hround
  rw [hvalue, hround, factor_productSign h1.valid h2.valid, NumericData.value, NumericData.value,
    NumericVar.value, NumericVar.value]
  ring

theorem numericMul_eq :
    numericMul arith num1 num2 = (mulVar arith (setVarFromNum num1) (setVarFromNum num2)
      (num1.dscale + num2.dscale)).bind makeResult := by
  rw [numericMul, if_neg (not_or.mpr ⟨h1.notNan, h2.notNan⟩)]
  rfl

end

/-- If the factors leave room for the carries, multiplication is exact, without an overflow on the
way, just if the product can be stored. -/
theorem numericMul_exact_iff (h1 : num1.Stored) (h2 : num2.Stored)
    (hw1 : (setVarFromNum num1).WithinScale) (hw2 : (setVarFromNum num2).WithinScale)
    (hfactors : runsFit num1.digits.reverse 0 = true ∨ num2.digits.length ≤ 21) :
    (∃ result, numericMul checked num1 num2 = .ok result ∧
      result.value = num1.value * num2.value ∧ result.dscale = num1.dscale + num2.dscale) ↔
    Storable (num1.value * num2.value) ∧ num1.dscale + num2.dscale ≤ 16383 := by
  have hscale1 := h1.dscale
  have hscale2 := h2.dscale
  obtain ⟨result, hmul, hvalid, hscale, hvalue⟩ := mulVar_of_stored checked h1 h2 hw1 hw2
    (productFits_of_factors h1.valid h2.valid hfactors)
  rw [numericMul_eq checked h1 h2, hmul, Except.bind]
  constructor
  · rintro ⟨num, hrun, -, -⟩
    obtain ⟨hstorable, hle, -⟩ := storable_of_makeResult hvalid hrun
    exact ⟨hvalue ▸ hstorable, hscale ▸ hle.2⟩
  rintro ⟨hstorable, hle⟩
  refine ⟨(stripVar result).stored, ?_, ?_, ?_⟩
  · exact makeResult_of_storable hvalid (hvalue ▸ hstorable) (by omega)
  · rw [value_stored_stripVar hvalid, hvalue]
  · change (stripVar result).dscale = _
    rw [dscale_stripVar, hscale]

/-- A factor of eighty-eight decimal digits. -/
def largeFactor : NumericData where
  digits := 4790 :: List.replicate 21 9999
  weight := 21
  sign := .pos
  dscale := 0

/-- The largest integer of twenty-two digits in the base. -/
def allNines : NumericData where
  digits := List.replicate 22 9999
  weight := 21
  sign := .pos
  dscale := 0

theorem value_largeFactor : largeFactor.value = value nbase largeFactor.digits :=
  value_of_integer rfl (by decide)

theorem value_allNines : allNines.value = value nbase allNines.digits :=
  value_of_integer rfl (by decide)

/-- What comes out when the accumulator wraps around. -/
def wrappedProduct : NumericData where
  digits := [4790] ++ List.replicate 19 9999 ++ [9978, 5230, 4953] ++ List.replicate 20 0 ++ [1]
  weight := 43
  sign := .pos
  dscale := 0

/-- Two integers of eighty-eight digits for which an accumulator passes the largest `int32`
when a carry is added, so that the digits of the product are wrong. -/
theorem numericMul_overflows : (largeFactor.Stored ∧ (setVarFromNum largeFactor).WithinScale) ∧
    (allNines.Stored ∧ (setVarFromNum allNines).WithinScale) ∧
    numericMul checked largeFactor allNines = .error .intOverflow ∧
    numericMul IntArith.wrapping largeFactor allNines = .ok wrappedProduct ∧
    wrappedProduct.value ≠ largeFactor.value * allNines.value := by
  refine ⟨⟨by decide, withinScale_of_integer (by decide) rfl⟩,
    ⟨by decide, withinScale_of_integer (by decide) rfl⟩, by decide +kernel, by decide +kernel, ?_⟩
  rw [@value_of_integer wrappedProduct rfl (by decide), value_largeFactor, value_allNines]
  exact_mod_cast (by decide +kernel : value nbase wrappedProduct.digits ≠
    value nbase largeFactor.digits * value nbase allNines.digits)

/-- With the factors in the other order the accumulators do not overflow. -/
theorem numericMul_exact_nines : ∃ result, numericMul checked allNines largeFactor = .ok result ∧
      result.value = allNines.value * largeFactor.value ∧
      result.dscale = allNines.dscale + largeFactor.dscale := by
  refine (numericMul_exact_iff (by decide) (by decide) (withinScale_of_integer (by decide) rfl)
    (withinScale_of_integer (by decide) rfl) (.inl (by decide +kernel))).mpr ⟨?_, by decide⟩
  have hproduct : allNines.value * largeFactor.value =
      ((value nbase allNines.digits * value nbase largeFactor.digits).toNat : Rat) := by
    rw [value_allNines, value_largeFactor, ← Int.cast_natCast, Int.toNat_of_nonneg (by decide +kernel)]
    push_cast
    rfl
  rw [hproduct]
  exact storable_of_natCast (n := 44) (by decide +kernel) (by decide +kernel) (by decide)

end Stored

end PrlPg.Numeric
