/-
A ring of fixed size that keeps a window of a growing sequence.

The sequence is a list to which elements are only ever appended; element `g` lives in
cell `g % size`.  `Holds` says that the ring still has every element from `lo` on.
Appending is safe as long as the window stays shorter than the ring, because two indices
less than `size` apart have different cells.
-/
import Mathlib.Data.List.Basic
import Mathlib.Data.Nat.ModEq

namespace PrlPg.RingBuffer

open List Function

variable {α : Type*} {size lo : Nat} {ring : Nat → Option α} {xs : List α}

/-- Every element of the sequence from `lo` on is in its cell. -/
def Holds (size : Nat) (ring : Nat → Option α) (xs : List α) (lo : Nat) : Prop :=
  ∀ g, lo ≤ g → g < xs.length → ring (g % size) = xs[g]?

theorem cell_ne {g h : Nat} (hlt : g < h) (hwin : h < g + size) : g % size ≠ h % size := by
  intro heq
  have hdvd : size ∣ h - g := (Nat.modEq_iff_dvd' (le_of_lt hlt)).mp heq
  have hle := Nat.le_of_dvd (Nat.sub_pos_of_lt hlt) hdvd
  omega

theorem Holds.mono {lo' : Nat} (h : Holds size ring xs lo) (hle : lo ≤ lo') :
    Holds size ring xs lo' :=
  fun g hg hlt => h g (le_trans hle hg) hlt

theorem Holds.of_append {ys : List α} (h : Holds size ring (xs ++ ys) lo) :
    Holds size ring xs lo := by
  intro g hg hlt
  rw [h g hg (by rw [length_append]; omega), getElem?_append_left hlt]

/-- Writing the next element into its cell keeps a window that has room for it. -/
theorem Holds.push (h : Holds size ring xs lo) (x : α) (hroom : xs.length < lo + size) :
    Holds size (update ring (xs.length % size) (some x)) (xs ++ [x]) lo := by
  intro g hg hlt
  rw [length_append, length_singleton] at hlt
  by_cases hnew : g = xs.length
  · subst hnew
    simp
  have hold : g < xs.length := by omega
  rw [update_of_ne (cell_ne hold (by omega)), h g hg hold, getElem?_append_left hold]

end PrlPg.RingBuffer
