/-
Signed machine integers as integers.

A routine that is written over `IntArith` sends each result of its arithmetic through `int16`
or `int32`.  What is in the range comes back unchanged.  What happens outside of it is one of
two: it is an error (`checked`), as in the language standard, or the value wraps around
(`wrapping`), as on the machine.  What is proved for every `IntArith` holds for both, and with
`checked` a result says that no step was out of range.
-/
import Mathlib.Algebra.Order.Ring.Int

namespace PrlPg

/-- Arithmetic on `int16` and `int32` values. -/
structure IntArith (ε : Type*) where
  int16 : Int → Except ε Int
  int32 : Int → Except ε Int
  int16_of : ∀ {x : Int}, -32768 ≤ x → x < 32768 → int16 x = .ok x
  int32_of : ∀ {x : Int}, -2147483648 ≤ x → x < 2147483648 → int32 x = .ok x

namespace IntArith

variable {ε : Type*}

theorem bmod_of_range {x : Int} {n : Nat} (hlo : -(n : Int) ≤ x) (hhi : x < n) :
    x.bmod (2 * n) = x := by
  rw [Int.bmod_eq_of_le]
  · omega
  · omega

/-- A value out of range is an error. -/
def checked (e : ε) : IntArith ε where
  int16 x := if -32768 ≤ x ∧ x < 32768 then .ok x else .error e
  int32 x := if -2147483648 ≤ x ∧ x < 2147483648 then .ok x else .error e
  int16_of hlo hhi := if_pos ⟨hlo, hhi⟩
  int32_of hlo hhi := if_pos ⟨hlo, hhi⟩

/-- A value out of range wraps around. -/
def wrapping : IntArith ε where
  int16 x := .ok (x.bmod (2 * 32768))
  int32 x := .ok (x.bmod (2 * 2147483648))
  int16_of hlo hhi := congrArg Except.ok (bmod_of_range hlo hhi)
  int32_of hlo hhi := congrArg Except.ok (bmod_of_range hlo hhi)

end IntArith

theorem ok_bind {ε α β : Type} (a : α) (f : α → Except ε β) : (Except.ok a >>= f) = f a := rfl

section

variable {ε β : Type} (arith : IntArith ε) {x : Int} {f : Int → Except ε β}

theorem IntArith.int16_bind (h : -32768 ≤ x ∧ x < 32768) : (arith.int16 x >>= f) = f x := by
  rw [arith.int16_of h.1 h.2, ok_bind]

theorem IntArith.int32_bind (h : -2147483648 ≤ x ∧ x < 2147483648) :
    (arith.int32 x >>= f) = f x := by
  rw [arith.int32_of h.1 h.2, ok_bind]

end

theorem exists_of_bind {ε α β : Type} {x : Except ε α} {f : α → Except ε β} {b : β}
    (h : (x >>= f) = .ok b) : ∃ a, x = .ok a ∧ f a = .ok b := by
  cases x with
  | error e => cases h
  | ok a => exact ⟨a, rfl, h⟩

end PrlPg
