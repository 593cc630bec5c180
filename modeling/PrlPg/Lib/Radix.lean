/-
Numbers as lists of digits, the most significant one first.

`value` is the integer that a list stands for and `scaled` the same with the power of the
base that its first digit has.  Nothing here asks a digit to be less than the base; where
that matters it is the hypothesis `Digits`.

Most loops of a multiple precision routine go over the digits once, from the least
significant one up, and hand a carry (or a borrow, or both) from each digit to the next.
`pass` is such a loop and `pass_spec` its rule.  Suppose each step keeps what comes in equal
to what goes out, where what it hands on counts once more for the base.  Then so does the
pass, where what is handed out of the last digit counts for the power of the base.
-/
import Mathlib.Algebra.Order.Field.Basic
import Mathlib.Algebra.BigOperators.Finprod
import Mathlib.Algebra.Order.BigOperators.Group.Finset
import Mathlib.Data.Int.ConditionallyCompleteOrder
import Mathlib.Data.Int.Interval
import Mathlib.Data.List.GetD
import Mathlib.Tactic.Linarith
import Mathlib.Tactic.Ring

namespace PrlPg.Radix

open List

/-- The number that a list of digits stands for. -/
def value (b : Int) : List Int → Int
  | [] => 0
  | d :: l => d * b ^ l.length + value b l

/-- Digits of the base. -/
def Digits (b : Int) (l : List Int) : Prop := ∀ d ∈ l, 0 ≤ d ∧ d < b

instance (b : Int) (l : List Int) : Decidable (Digits b l) :=
  inferInstanceAs (Decidable (∀ d ∈ l, 0 ≤ d ∧ d < b))

section Value

variable {b : Int} {l m : List Int} {d : Int}

@[simp]
theorem value_nil : value b [] = 0 := rfl

theorem value_cons : value b (d :: l) = d * b ^ l.length + value b l := rfl

theorem value_append : value b (l ++ m) = value b l * b ^ m.length + value b m := by
  induction l with
  | nil => simp
  | cons d l ih =>
    rw [cons_append, value_cons, value_cons, ih, length_append]
    ring

theorem value_of_forall_zero (h : ∀ d ∈ l, d = 0) : value b l = 0 := by
  induction l with
  | nil => rfl
  | cons d l ih =>
    rw [forall_mem_cons] at h
    rw [value_cons, h.1, ih h.2, zero_mul, zero_add]

theorem value_replicate_zero (n : Nat) : value b (List.replicate n 0) = 0 :=
  value_of_forall_zero fun _ hd => eq_of_mem_replicate hd

theorem Digits.nil : Digits b [] := forall_mem_nil _

theorem Digits.cons_iff : Digits b (d :: l) ↔ (0 ≤ d ∧ d < b) ∧ Digits b l := forall_mem_cons

theorem Digits.append_iff : Digits b (l ++ m) ↔ Digits b l ∧ Digits b m := forall_mem_append

theorem Digits.take (h : Digits b l) (n : Nat) : Digits b (l.take n) :=
  fun d hd => h d (mem_of_mem_take hd)

theorem Digits.drop (h : Digits b l) (n : Nat) : Digits b (l.drop n) :=
  fun d hd => h d (mem_of_mem_drop hd)

section

variable (hb : 0 ≤ b)
include hb

theorem Digits.value_nonneg (h : Digits b l) : 0 ≤ value b l := by
  induction l with
  | nil => exact le_refl 0
  | cons d l ih =>
    obtain ⟨hd, hl⟩ := Digits.cons_iff.mp h
    exact add_nonneg (mul_nonneg hd.1 (pow_nonneg hb _)) (ih hl)

theorem Digits.value_lt (h : Digits b l) : value b l < b ^ l.length := by
  induction l with
  | nil => simp
  | cons d l ih =>
    obtain ⟨hd, hl⟩ := Digits.cons_iff.mp h
    have hmul : d * b ^ l.length ≤ (b - 1) * b ^ l.length :=
      mul_le_mul_of_nonneg_right (by omega) (pow_nonneg hb _)
    have := ih hl
    rw [value_cons, length_cons, pow_succ]
    linarith

/-- A first digit that is not zero gives a lower bound. -/
theorem Digits.le_value (h : Digits b (d :: l)) (hd : d ≠ 0) :
    b ^ l.length ≤ value b (d :: l) := by
  obtain ⟨hd', hl⟩ := Digits.cons_iff.mp h
  have hmul : 1 * b ^ l.length ≤ d * b ^ l.length :=
    mul_le_mul_of_nonneg_right (by omega) (pow_nonneg hb _)
  have := hl.value_nonneg hb
  rw [value_cons]
  linarith

theorem Digits.head_le_of_value_lt {e : Int} (h : Digits b (d :: l))
    (h' : Digits b (e :: m)) (hlen : l.length = m.length)
    (hlt : value b (d :: l) < value b (e :: m)) : d ≤ e := by
  by_contra hgt
  have htop : (e + 1) * b ^ m.length ≤ d * b ^ m.length :=
    mul_le_mul_of_nonneg_right (by omega) (pow_nonneg hb _)
  have hl := (Digits.cons_iff.mp h).2.value_nonneg hb
  have hm := (Digits.cons_iff.mp h').2.value_lt hb
  rw [value_cons, value_cons, hlen] at hlt
  linarith

end

theorem Digits.le_head (hb : 0 < b) (h : Digits b (d :: l)) {k : Int}
    (hk : k * b ^ l.length ≤ value b (d :: l)) : k ≤ d := by
  have hl := (Digits.cons_iff.mp h).2.value_lt hb.le
  rw [value_cons] at hk
  have hlt : k * b ^ l.length < (d + 1) * b ^ l.length := by linarith
  have := lt_of_mul_lt_mul_right hlt (pow_nonneg hb.le _)
  omega

theorem Digits.value_take (hb : 0 < b) (h : Digits b l) {n : Nat} :
    value b (l.take n) = value b l / b ^ (l.length - n) := by
  have hdrop := h.drop n
  have hlt := hdrop.value_lt hb.le
  rw [length_drop] at hlt
  have hsplit : value b l = value b (l.drop n) + value b (l.take n) * b ^ (l.length - n) := by
    conv_lhs => rw [← take_append_drop n l]
    rw [value_append, length_drop, add_comm]
  rw [hsplit, Int.add_mul_ediv_right _ _ (pow_ne_zero _ hb.ne'),
    Int.ediv_eq_zero_of_lt (hdrop.value_nonneg hb.le) hlt, zero_add]

theorem value_map_mul (k : Int) (l : List Int) : value b (l.map (k * ·)) = k * value b l := by
  induction l with
  | nil => rw [map_nil, value_nil, mul_zero]
  | cons d l ih =>
    rw [map_cons, value_cons, value_cons, length_map, ih]
    ring

theorem Digits.value_eq_zero (hb : 0 < b) (h : Digits b l) : value b l = 0 ↔ ∀ d ∈ l, d = 0 := by
  constructor
  swap
  · exact value_of_forall_zero
  intro hzero
  induction l with
  | nil => exact forall_mem_nil _
  | cons d l ih =>
    obtain ⟨hd, hl⟩ := Digits.cons_iff.mp h
    have hd0 : d = 0 := by
      by_contra hne
      have := h.le_value hb.le hne
      have : 0 < b ^ l.length := pow_pos hb _
      omega
    rw [value_cons, hd0, zero_mul, zero_add] at hzero
    exact forall_mem_cons.mpr ⟨hd0, ih hl hzero⟩

end Value

/-! ### Digits with a weight -/

/-- The number whose first digit counts for the given power of the base. -/
def scaled (b : Int) (l : List Int) (w : Int) : Rat := value b l * (b : Rat) ^ (w + 1 - l.length)

/-- The digit at an index, zero outside of the list. -/
def digitAt (l : List Int) (i : Int) : Int := if 0 ≤ i then l.getD i.toNat 0 else 0

/-- The digits at `n` indexes from `start` on. -/
def window (l : List Int) (start : Int) (n : Nat) : List Int :=
  (List.range n).map fun k : Nat => digitAt l (start + k)

section Scaled

variable {b : Int} {l : List Int} {w : Int} {i : Int}

theorem digitAt_of_le (h : l.length ≤ i) : digitAt l i = 0 := by
  rw [digitAt, if_pos (by omega), getD_eq_default _ _ (by omega)]

theorem digitAt_of_neg (h : i < 0) : digitAt l i = 0 := by rw [digitAt, if_neg (by omega)]

theorem digitAt_mem_or (i : Int) : digitAt l i ∈ l ∨ digitAt l i = 0 := by
  by_cases h0 : 0 ≤ i
  · by_cases h1 : i < l.length
    · left
      rw [digitAt, if_pos h0, getD_eq_getElem _ _ (by omega)]
      exact getElem_mem _
    · exact .inr (digitAt_of_le (by omega))
  · exact .inr (digitAt_of_neg (by omega))

theorem digitAt_cons_zero (d : Int) : digitAt (d :: l) 0 = d := rfl

theorem digitAt_cons_succ (d : Int) (hi : 0 ≤ i) : digitAt (d :: l) (i + 1) = digitAt l i := by
  rw [digitAt, digitAt, if_pos hi, if_pos (by omega), Int.toNat_add hi (by decide)]
  rfl

theorem Digits.digitAt (h : Digits b l) (hb : 0 < b) (i : Int) :
    0 ≤ digitAt l i ∧ Radix.digitAt l i < b := by
  rcases digitAt_mem_or (l := l) i with hin | hzero
  · exact h _ hin
  · rw [hzero]
    exact ⟨le_refl 0, hb⟩

theorem Digits.window (h : Digits b l) (hb : 0 < b) (start : Int) (n : Nat) :
    Digits b (window l start n) := by
  intro d hd
  obtain ⟨k, -, rfl⟩ := mem_map.mp hd
  exact h.digitAt hb _

@[simp]
theorem length_window (start : Int) (n : Nat) : (window l start n).length = n := by
  rw [window, length_map, length_range]

theorem scaled_cons (hb : b ≠ 0) (d : Int) :
    scaled b (d :: l) w = d * (b : Rat) ^ w + scaled b l (w - 1) := by
  have hb' : (b : Rat) ≠ 0 := Int.cast_ne_zero.mpr hb
  have hpow : (b : Rat) ^ l.length * (b : Rat) ^ (w - l.length) = (b : Rat) ^ w := by
    rw [← zpow_natCast, ← zpow_add₀ hb']
    congr 1
    ring
  rw [scaled, scaled, value_cons, length_cons]
  push_cast
  rw [add_mul, mul_assoc, show w + 1 - ((l.length : Int) + 1) = w - l.length by ring, hpow,
    show w - 1 + 1 - (l.length : Int) = w - l.length by ring]

/-- A number is the sum over its digits. -/
theorem scaled_eq_sum (hb : b ≠ 0) : scaled b l w =
    ∑ i ∈ Finset.Ico 0 (l.length : Int), (digitAt l i : Rat) * (b : Rat) ^ (w - i) := by
  simp only [Int.Ico_eq_finset_map, Finset.sum_map, Function.Embedding.trans_apply,
    Nat.castEmbedding_apply, addLeftEmbedding_apply, zero_add, sub_zero, Int.toNat_natCast]
  induction l generalizing w with
  | nil => simp [scaled]
  | cons d l ih =>
    rw [scaled_cons hb, ih, length_cons, Finset.sum_range_succ', add_comm]
    congr 1
    · refine Finset.sum_congr rfl fun i _ => ?_
      rw [Nat.cast_succ, digitAt_cons_succ d (Int.natCast_nonneg i),
        show w - (i + 1) = w - 1 - i by ring]
    · rw [Nat.cast_zero, digitAt_cons_zero, sub_zero]

/-- Any range that has all the digits that are not zero will do. -/
theorem scaled_eq_sum_range (hb : b ≠ 0) {lo hi : Int}
    (hout : ∀ i, (i < lo ∨ hi ≤ i) → digitAt l i = 0) : scaled b l w =
      ∑ i ∈ Finset.Ico lo hi, (digitAt l i : Rat) * (b : Rat) ^ (w - i) := by
  have hall : ∀ {lo' hi' : Int}, (∀ i, (i < lo' ∨ hi' ≤ i) → digitAt l i = 0) →
      ∑ i ∈ Finset.Ico lo' hi', (digitAt l i : Rat) * (b : Rat) ^ (w - i) =
        ∑ᶠ i, (digitAt l i : Rat) * (b : Rat) ^ (w - i) := by
    intro lo' hi' hzero
    refine (finsum_eq_sum_of_support_subset _ fun i hi => ?_).symm
    rw [Finset.mem_coe, Finset.mem_Ico]
    by_contra hnot
    exact hi (by simp [hzero i (by omega)])
  rw [scaled_eq_sum hb, hall hout, hall fun i hi => hi.elim digitAt_of_neg digitAt_of_le]

theorem digitAt_window {start : Int} {n : Nat} (h0 : 0 ≤ i) (hn : i < n) :
    digitAt (window l start n) i = digitAt l (start + i) := by
  rw [digitAt, if_pos h0, getD_eq_getElem _ _ (by rw [length_window]; omega)]
  simp only [window, getElem_map, getElem_range, Int.toNat_of_nonneg h0]

/-- Digits written out with another weight. -/
theorem scaled_window (hb : b ≠ 0) {start : Int} {n : Nat}
    (hout : ∀ i, (i < start ∨ start + n ≤ i) → digitAt l i = 0) :
    scaled b (window l start n) (w - start) = scaled b l w := by
  rw [scaled_eq_sum hb, scaled_eq_sum_range hb hout, length_window]
  refine Finset.sum_bij (fun i _ => start + i) ?_ ?_ ?_ ?_
  · intro i hi
    rw [Finset.mem_Ico] at hi ⊢
    omega
  · intro i _ j _ hij
    omega
  · intro i hi
    rw [Finset.mem_Ico] at hi
    exact ⟨i - start, Finset.mem_Ico.mpr (by omega), by omega⟩
  intro i hi
  rw [Finset.mem_Ico] at hi
  rw [digitAt_window hi.1 hi.2, show w - start - i = w - (start + i) by ring]

@[simp]
theorem scaled_nil : scaled b [] w = 0 := by simp [scaled]

theorem scaled_append (hb : b ≠ 0) {m : List Int} :
    scaled b (l ++ m) w = scaled b l w + scaled b m (w - l.length) := by
  induction l generalizing w with
  | nil => simp
  | cons d l ih =>
    rw [cons_append, scaled_cons hb, scaled_cons hb, ih, length_cons]
    push_cast
    rw [show w - 1 - (l.length : Int) = w - (l.length + 1) by ring, add_assoc]

theorem scaled_of_forall_zero (h : ∀ d ∈ l, d = 0) : scaled b l w = 0 := by
  rw [scaled, value_of_forall_zero h, Int.cast_zero, zero_mul]

theorem Digits.scaled_nonneg (h : Digits b l) (hb : 0 ≤ b) : 0 ≤ scaled b l w := by
  have hv := h.value_nonneg hb
  have hb' : (0 : Rat) ≤ b := by exact_mod_cast hb
  exact mul_nonneg (by exact_mod_cast hv) (zpow_nonneg hb' _)

theorem Digits.scaled_lt (h : Digits b l) (hb : 0 < b) : scaled b l w < (b : Rat) ^ (w + 1) := by
  have hb' : (0 : Rat) < b := by exact_mod_cast hb
  have hlt : (value b l : Rat) < (b : Rat) ^ (l.length : Int) := by exact_mod_cast h.value_lt hb.le
  calc scaled b l w < (b : Rat) ^ (l.length : Int) * (b : Rat) ^ (w + 1 - l.length) :=
        mul_lt_mul_of_pos_right hlt (zpow_pos hb' _)
    _ = (b : Rat) ^ (w + 1) := by
        rw [← zpow_add₀ hb'.ne']
        congr 1
        ring

theorem Digits.scaled_eq_zero (h : Digits b l) (hb : 0 < b) :
    scaled b l w = 0 ↔ ∀ d ∈ l, d = 0 := by
  have hb' : (b : Rat) ≠ 0 := by exact_mod_cast hb.ne'
  rw [scaled, mul_eq_zero, or_iff_left (zpow_ne_zero _ hb'), Int.cast_eq_zero, h.value_eq_zero hb]

/-- A first digit that is not zero gives a lower bound. -/
theorem Digits.le_scaled {d : Int} (h : Digits b (d :: l)) (hb : 0 < b) (hd : d ≠ 0) :
    (b : Rat) ^ w ≤ scaled b (d :: l) w := by
  have hb' : (0 : Rat) < b := by exact_mod_cast hb
  obtain ⟨hd', hl⟩ := Digits.cons_iff.mp h
  have hone : (1 : Rat) ≤ d := by exact_mod_cast (by omega : 1 ≤ d)
  have hmul : 1 * (b : Rat) ^ w ≤ d * (b : Rat) ^ w :=
    mul_le_mul_of_nonneg_right hone (zpow_nonneg hb'.le _)
  have hrest : 0 ≤ scaled b l (w - 1) := hl.scaled_nonneg hb.le
  rw [scaled_cons hb.ne']
  linarith

/-- Each digit that is not zero gives a lower bound. -/
theorem Digits.zpow_le_scaled (h : Digits b l) (hb : 0 < b) (hi : Radix.digitAt l i ≠ 0) :
    (b : Rat) ^ (w - i) ≤ scaled b l w := by
  have hb' : (0 : Rat) < b := by exact_mod_cast hb
  have hrange : i ∈ Finset.Ico 0 (l.length : Int) := by
    rw [Finset.mem_Ico]
    by_contra hout
    rw [not_and_or, not_le, not_lt] at hout
    rcases hout with hout | hout
    · exact hi (digitAt_of_neg hout)
    · exact hi (digitAt_of_le hout)
  have hterm : ∀ j ∈ Finset.Ico 0 (l.length : Int),
      (0 : Rat) ≤ (Radix.digitAt l j : Rat) * (b : Rat) ^ (w - j) := by
    intro j _
    exact mul_nonneg (by exact_mod_cast (h.digitAt hb j).1) (zpow_nonneg hb'.le _)
  have hone : (1 : Rat) ≤ Radix.digitAt l i := by
    have := (h.digitAt hb i).1
    exact_mod_cast (by omega : 1 ≤ Radix.digitAt l i)
  calc (b : Rat) ^ (w - i) = 1 * (b : Rat) ^ (w - i) := (one_mul _).symm
    _ ≤ Radix.digitAt l i * (b : Rat) ^ (w - i) :=
        mul_le_mul_of_nonneg_right hone (zpow_nonneg hb'.le _)
    _ ≤ scaled b l w := by
        rw [scaled_eq_sum hb.ne']
        exact Finset.single_le_sum hterm hrange

end Scaled

/-- Digits one below the other, combined. -/
theorem value_zip_map {b : Int} {f : Int × Int → Int} {a c : Int}
    (hf : ∀ x y, f (x, y) = a * x + c * y) {l m : List Int} (hlen : l.length = m.length) :
    value b ((l.zip m).map f) = a * value b l + c * value b m := by
  induction l generalizing m with
  | nil =>
    obtain rfl := length_eq_zero_iff.mp hlen.symm
    simp
  | cons d l ih =>
    cases m with
    | nil => cases hlen
    | cons e m =>
      have hlen' : l.length = m.length := Nat.succ.inj hlen
      rw [zip_cons_cons, map_cons, value_cons, value_cons, value_cons, ih hlen', hf,
        length_map, length_zip, hlen', Nat.min_self]
      ring

/-! ### Passes -/

variable {α σ ε : Type*}

/-- Go over the digits from the least significant one, handing a state on. -/
def pass (step : α → σ → Except ε (Int × σ)) : List α → σ → Except ε (List Int × σ)
  | [], s => .ok ([], s)
  | x :: xs, s => do
    let r ← pass step xs s
    let d ← step x r.2
    .ok (d.1 :: r.1, d.2)

/-- A pass whose steps cannot fail. -/
def run (step : α → σ → Int × σ) : List α → σ → List Int × σ
  | [], s => ([], s)
  | x :: xs, s =>
    let r := run step xs s
    let d := step x r.2
    (d.1 :: r.1, d.2)

section Pass

variable {b : Int} {P : α → Prop} {I : σ → Prop} {Q : Int → Prop} {f : α → Int} {g : σ → Int}
  {xs : List α} {s : σ}

/-- What each step preserves, the pass preserves. -/
theorem run_spec {step : α → σ → Int × σ} (hstep : ∀ x s, P x → I s →
      Q (step x s).1 ∧ I (step x s).2 ∧ (step x s).1 + b * g (step x s).2 = f x + g s)
    (hxs : ∀ x ∈ xs, P x) (hs : I s) :
    (run step xs s).1.length = xs.length ∧ (∀ d ∈ (run step xs s).1, Q d) ∧ I (run step xs s).2 ∧
      value b (run step xs s).1 + b ^ xs.length * g (run step xs s).2 =
        value b (xs.map f) + g s := by
  induction xs with
  | nil => exact ⟨rfl, forall_mem_nil _, hs, by simp [run]⟩
  | cons x xs ih =>
    rw [forall_mem_cons] at hxs
    obtain ⟨hlen, hds, hs₁, hval⟩ := ih hxs.2
    obtain ⟨hQ, hs₂, heq⟩ := hstep x (run step xs s).2 hxs.1 hs₁
    simp only [run]
    refine ⟨by rw [length_cons, hlen, length_cons], forall_mem_cons.mpr ⟨hQ, hds⟩, hs₂, ?_⟩
    rw [map_cons, value_cons, value_cons, length_map, hlen, length_cons, pow_succ]
    generalize step x (run step xs s).2 = d at heq
    calc d.1 * b ^ xs.length + value b (run step xs s).1 + b ^ xs.length * b * g d.2
        = b ^ xs.length * (d.1 + b * g d.2) + value b (run step xs s).1 := by ring
      _ = b ^ xs.length * f x +
          (value b (run step xs s).1 + b ^ xs.length * g (run step xs s).2) := by rw [heq]; ring
      _ = f x * b ^ xs.length + value b (xs.map f) + g s := by rw [hval]; ring

variable {step : α → σ → Except ε (Int × σ)}

/-- A pass whose steps succeed from the states that they lead to. -/
theorem pass_eq_run {total : α → σ → Int × σ}
    (hstep : ∀ x s, P x → I s → step x s = .ok (total x s) ∧ I (total x s).2)
    (hxs : ∀ x ∈ xs, P x) (hs : I s) :
    pass step xs s = .ok (run total xs s) ∧ I (run total xs s).2 := by
  induction xs with
  | nil => exact ⟨rfl, hs⟩
  | cons x xs ih =>
    rw [forall_mem_cons] at hxs
    obtain ⟨hrun, hs₁⟩ := ih hxs.2
    obtain ⟨hx, hs₂⟩ := hstep x _ hxs.1 hs₁
    refine ⟨?_, hs₂⟩
    rw [pass, hrun]
    change (step x (run total xs s).2 >>= fun d => _) = _
    rw [hx]
    rfl

/-- A pass each of whose steps succeeds and preserves the invariant. -/
theorem pass_spec (hstep : ∀ x s, P x → I s →
      ∃ r, step x s = .ok r ∧ Q r.1 ∧ I r.2 ∧ r.1 + b * g r.2 = f x + g s)
    (hxs : ∀ x ∈ xs, P x) (hs : I s) :
    ∃ r, pass step xs s = .ok r ∧ r.1.length = xs.length ∧ (∀ d ∈ r.1, Q d) ∧ I r.2 ∧
      value b r.1 + b ^ xs.length * g r.2 = value b (xs.map f) + g s := by
  choose! total htotal using hstep
  obtain ⟨hrun, -⟩ := pass_eq_run
    (fun x s hx hs => ⟨(htotal x s hx hs).1, (htotal x s hx hs).2.2.1⟩) hxs hs
  exact ⟨_, hrun, run_spec (fun x s hx hs => (htotal x s hx hs).2) hxs hs⟩

end Pass

end PrlPg.Radix
