/-
Sums over a finite family, one member of which changes.

A family `f` of states and a weight for each state give a total; moving one member
changes the total by the difference of its two weights.  Stated without subtraction, so
that `omega` can use it for numbers and so that it holds for multisets, where the total
is what the members hold together.
-/
import Mathlib.Algebra.Order.BigOperators.Group.Finset
import Mathlib.Data.Nat.Cast.Order.Basic
import Mathlib.Algebra.BigOperators.Fin

namespace PrlPg

open Function Finset Multiset

variable {ι γ : Type*} {s : Finset ι}

/-- Moving one member changes the total by the difference of its weights. -/
theorem sum_update [DecidableEq ι] {M : Type*} [AddCommMonoid M] (w : γ → M) (f : ι → γ) (v : γ)
    {i : ι} (hi : i ∈ s) :
    ∑ j ∈ s, w (update f i v j) + w (f i) = ∑ j ∈ s, w (f j) + w v := by
  rw [← add_sum_erase s (fun j => w (update f i v j)) hi, ← add_sum_erase s (fun j => w (f j)) hi]
  have hoff : ∑ j ∈ s.erase i, w (update f i v j) = ∑ j ∈ s.erase i, w (f j) := by
    refine sum_congr rfl fun j hj => ?_
    rw [update_of_ne (ne_of_mem_erase hj)]
  simp only [update_self, hoff]
  ac_rfl

theorem cons_sum_update {n i : ℕ} {f : ℕ → List γ} {x : γ} {l : List γ} (hi : i < n)
    (hf : f i = x :: l) :
    x ::ₘ ∑ j ∈ range n, (update f i l j : Multiset γ) = ∑ j ∈ range n, (f j : Multiset γ) := by
  have hsum := sum_update (fun l : List γ => (l : Multiset γ)) f l (mem_range.mpr hi)
  refine add_right_cancel (b := (l : Multiset γ)) ?_
  rw [← hsum, hf, ← cons_coe, cons_add, add_cons]

theorem sum_range_coe (n : ℕ) (f : ℕ → List γ) :
    ∑ i ∈ range n, (f i : Multiset γ) = ((List.range n).flatMap f : Multiset γ) := by
  induction n with
  | zero => rfl
  | succ n ih =>
    rw [sum_range_succ, ih, List.range_succ, List.flatMap_append, coe_add]
    simp

theorem weight_le_sum (w : γ → ℕ) (f : ι → γ) {i : ι} (hi : i ∈ s) :
    w (f i) ≤ ∑ j ∈ s, w (f j) :=
  single_le_sum (f := fun j => w (f j)) (fun _ _ => Nat.zero_le _) hi

end PrlPg
