/-
Streams of literals and back references.

An item is a byte that stands for itself, or a reference to bytes `off` places back, `len`
of them; the two may overlap, and then the copied bytes are themselves copied again.
`Covers` says that a list of items describes a stretch of a sequence.  Expanding a
reference byte by byte, as a decoder does, continues the sequence: that is
`copyBack_agrees`, and it holds for overlapping references because each byte is copied
after the one it may depend on.
-/
import Mathlib.Algebra.Order.Ring.Int

namespace PrlPg.Lz

open Function

variable {β : Type*} {dp off len : Nat}

inductive Item (β : Type*)
  | lit (b : β)
  | copy (len off : Nat)
  deriving DecidableEq, Repr

namespace Item

def isCopy : Item β → Bool
  | lit _ => false
  | copy _ _ => true

end Item

/-- The items describe the sequence from `p` up to `q`. -/
inductive Covers (src : Nat → β) : Nat → List (Item β) → Nat → Prop
  | done (p : Nat) : Covers src p [] p
  | lit {p q : Nat} {its : List (Item β)} (h : Covers src (p + 1) its q) :
      Covers src p (.lit (src p) :: its) q
  | copy {p q len off : Nat} {its : List (Item β)} (hoff : 0 < off) (hback : off ≤ p)
      (hlen : 0 < len) (heq : ∀ k < len, src (p + k) = src (p + k - off))
      (h : Covers src (p + len) its q) : Covers src p (.copy len off :: its) q

namespace Covers

variable {src : Nat → β} {p q r : Nat} {its its' : List (Item β)}

section

variable (h : Covers src p its q)
include h

theorem append (h' : Covers src q its' r) :
    Covers src p (its ++ its') r := by
  induction h with
  | done p => exact h'
  | lit _ ih => exact .lit (ih h')
  | copy hoff hback hlen heq _ ih => exact .copy hoff hback hlen heq (ih h')

theorem le : p ≤ q := by
  induction h with
  | done p => exact le_rfl
  | lit _ ih => omega
  | copy _ _ _ _ _ ih => omega

theorem lt (hne : its ≠ []) : p < q := by
  cases h with
  | done => cases hne rfl
  | lit h => exact h.le
  | copy _ _ hlen _ h =>
    have := h.le
    omega

end

theorem split (h : Covers src p (its ++ its') r) :
    ∃ q, Covers src p its q ∧ Covers src q its' r := by
  induction its generalizing p with
  | nil => exact ⟨p, .done p, h⟩
  | cons it its ih =>
    cases h with
    | lit h =>
      obtain ⟨q, h₁, h₂⟩ := ih h
      exact ⟨q, .lit h₁, h₂⟩
    | copy hoff hback hlen heq h =>
      obtain ⟨q, h₁, h₂⟩ := ih h
      exact ⟨q, .copy hoff hback hlen heq h₁, h₂⟩

end Covers

/-- Copy `len` bytes from `off` places back, one after the other. -/
def copyBack (dest : Int → β) (dp off : Nat) : Nat → Int → β
  | 0 => dest
  | len + 1 => copyBack (Function.update dest dp (dest (dp - off))) (dp + 1) off len

theorem copyBack_of_outside {dest : Int → β} {i : Int}
    (hi : i < dp ∨ dp + len ≤ i) : copyBack dest dp off len i = dest i := by
  induction len generalizing dest dp with
  | zero => rfl
  | succ len ih =>
    rw [copyBack, ih (by push_cast at hi ⊢; omega)]
    exact update_of_ne (by omega) _ _

theorem copyBack_zero {dest : Int → β} {dp len : Nat} : copyBack dest dp 0 len = dest := by
  induction len generalizing dest dp with
  | zero => rfl
  | succ len ih =>
    rw [copyBack, ih]
    exact update_eq_self _ _

/-- Copying from what two memories agree on makes them agree on the bytes that are filled. -/
theorem copyBack_congr {dest dest' : Int → β} (hoff : 0 < off)
    (hback : off ≤ dp) (h : ∀ i : Int, 0 ≤ i → i < dp → dest i = dest' i) :
    ∀ i : Int, 0 ≤ i → i < dp + len → copyBack dest dp off len i = copyBack dest' dp off len i := by
  induction len generalizing dest dest' dp with
  | zero =>
    intro i h0 hi
    exact h i h0 (by omega)
  | succ len ih =>
    intro i h0 hi
    refine ih (by omega) (fun j hj0 hj => ?_) i h0 (by push_cast at hi ⊢; omega)
    by_cases heq : j = dp
    · rw [heq, update_self, update_self]
      exact h _ (by omega) (by omega)
    · rw [update_of_ne heq, update_of_ne heq]
      exact h j hj0 (by omega)

/-- The memory has the first `n` elements of the sequence. -/
def Agrees (src : Nat → β) (dest : Int → β) (n : Nat) : Prop := ∀ i < n, dest i = src i

namespace Agrees

variable {src : Nat → β} {dest : Int → β} {n : Nat}

/-- Storing the next element. -/
theorem store (h : Agrees src dest n) {b : β} (hb : b = src n) :
    Agrees src (update dest n b) (n + 1) := by
  intro i hi
  by_cases hin : i = n
  · subst hin
    simp [hb]
  · rw [update_of_ne (by exact_mod_cast hin)]
    exact h i (by omega)

/-- Expanding a reference. -/
theorem copyBack {off : Nat} (hoff : 0 < off) :
    ∀ (len n : Nat) (dest : Int → β), off ≤ n → Agrees src dest n →
      (∀ k < len, src (n + k) = src (n + k - off)) →
      Agrees src (copyBack dest n off len) (n + len) := by
  intro len
  induction len with
  | zero => intro n dest _ h _; exact h
  | succ len ih =>
    intro n dest hback h heq
    have hcast : ((n : Int) - off) = ((n - off : Nat) : Int) := by omega
    have hnew : dest (n - off) = src n := by
      have hzero := heq 0 (Nat.succ_pos len)
      rw [Nat.add_zero] at hzero
      rw [hcast, h (n - off) (by omega), hzero]
    have hrest := ih (n + 1) (update dest n (dest (n - off))) (by omega) (h.store hnew) (by
        intro k hk
        have hk' := heq (k + 1) (by omega)
        rwa [show n + 1 + k = n + (k + 1) by omega])
    rwa [show n + (len + 1) = n + 1 + len by omega]

end Agrees

end PrlPg.Lz
