/-
Three-way comparators that are total preorders.

Sorting code compares through a function returning a negative, zero or positive
number.  `TotalPreorder` says that such a function is a total preorder in the
sense the C convention intends: swapping the arguments flips the sign, and "not
greater" is transitive.  Everything else is read off those two facts.

The one result with content is `forall₂_of_perm`: a sorted permutation of a list is
unique up to the order of elements that compare equal.  It is proved by passing to
the quotient by that equality, where sorted permutations are equal outright.
-/
import Mathlib.Order.Antisymmetrization
import Mathlib.Data.List.Sort

namespace PrlPg

open List

/-- A three-way comparator that orders by a total preorder. -/
structure TotalPreorder {α : Type*} (cmp : α → α → Int) : Prop where
  /-- Swapping the arguments flips the sign. -/
  flip : ∀ a b, 0 ≤ cmp a b ↔ cmp b a ≤ 0
  /-- "Not greater" is transitive. -/
  trans : ∀ a b c, cmp a b ≤ 0 → cmp b c ≤ 0 → cmp a c ≤ 0

/-- The list never steps down. -/
def Nondecreasing {α : Type*} (cmp : α → α → Int) (l : List α) : Prop :=
  l.Pairwise fun a b => cmp a b ≤ 0

namespace TotalPreorder

variable {α : Type*} {cmp : α → α → Int} (h : TotalPreorder cmp)
include h

theorem total (a b : α) : cmp a b ≤ 0 ∨ cmp b a ≤ 0 := by
  rcases Int.le_total (cmp a b) 0 with hle | hge
  · exact .inl hle
  · exact .inr ((h.flip a b).mp hge)

theorem refl (a : α) : cmp a a ≤ 0 := by rcases h.total a a with hle | hle <;> exact hle

theorem le_of_pos {a b : α} (hp : 0 < cmp a b) : cmp b a ≤ 0 := (h.flip a b).mp (by omega)

theorem eq_zero_iff (a b : α) : cmp a b = 0 ↔ cmp a b ≤ 0 ∧ cmp b a ≤ 0 := by
  rw [← h.flip a b]
  omega

/-- The preorder the comparator stands for. -/
abbrev preorder : Preorder α where
  le a b := cmp a b ≤ 0
  le_refl a := h.refl a
  le_trans a b c := h.trans a b c

/-- Sorted permutations of one list agree position by position, up to equal keys. -/
theorem forall₂_of_perm {l₁ l₂ : List α} (hp : l₁.Perm l₂)
    (h₁ : Nondecreasing cmp l₁) (h₂ : Nondecreasing cmp l₂) :
    Forall₂ (fun a b => cmp a b = 0) l₁ l₂ := by
  let _ := h.preorder
  let π : α → Antisymmetrization α (· ≤ ·) := toAntisymmetrization (· ≤ ·)
  have hsorted : ∀ l : List α, Nondecreasing cmp l → (l.map π).Pairwise (· ≤ ·) := by
    intro l hl
    refine pairwise_map.mpr (hl.imp ?_)
    intro a b hab
    exact toAntisymmetrization_le_toAntisymmetrization_iff.mpr hab
  -- In the quotient the order is antisymmetric, so the two images are one list.
  have heq : l₁.map π = l₂.map π := Perm.eq_of_pairwise' (hsorted l₁ h₁) (hsorted l₂ h₂) (hp.map π)
  have hall : Forall₂ (fun a b => π a = π b) l₁ l₂ := by
    rw [← forall₂_map_left_iff (R := fun x b => x = π b),
      ← forall₂_map_right_iff (R := fun x y => x = y), heq]
    exact forall₂_refl _
  refine hall.imp ?_
  intro a b hab
  have hle : a ≤ b := toAntisymmetrization_le_toAntisymmetrization_iff.mp (le_of_eq hab)
  have hge : b ≤ a := toAntisymmetrization_le_toAntisymmetrization_iff.mp (le_of_eq hab.symm)
  exact (h.eq_zero_iff a b).mpr ⟨hle, hge⟩

end TotalPreorder

end PrlPg
