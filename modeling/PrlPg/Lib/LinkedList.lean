/-
Singly linked lists in a memory of cells.

`link` is the pointer that each cell has to the next one, and `Chain link h l` says that
following the pointers from `h` meets exactly the cells of `l` and ends.  The list is
determined by the start, so it can be spoken of as the list that is there.  Cells outside the
list may change in any way; two chains without a common cell do not disturb each other.
-/
import Mathlib.Data.List.Nodup

namespace PrlPg.LinkedList

open Function List

variable {α : Type*}

/-- From `h` on the cells are those of `l`, and no others. -/
def Chain (link : α → Option α) : Option α → List α → Prop
  | h, [] => h = none
  | h, a :: l => h = some a ∧ Chain link (link a) l

variable {link link' : α → Option α} {h : Option α} {l l₁ l₂ : List α} {a : α}

theorem Chain.eq_nil (hc : Chain link none l) : l = [] := by
  cases l with
  | nil => rfl
  | cons a l => cases hc.1

theorem Chain.eq_cons (hc : Chain link (some a) l) : ∃ l', l = a :: l' ∧ Chain link (link a) l' := by
  cases l with
  | nil => cases hc
  | cons b l' =>
    obtain ⟨hb, hl'⟩ := hc
    cases hb
    exact ⟨l', rfl, hl'⟩

theorem Chain.head_eq (hc : Chain link h l) : h = l.head? := by
  cases l with
  | nil => exact hc
  | cons b l' => exact hc.1

/-- There is one list only. -/
theorem Chain.unique : ∀ {l₁ l₂ : List α} {h : Option α},
    Chain link h l₁ → Chain link h l₂ → l₁ = l₂ := by
  intro l₁
  induction l₁ with
  | nil =>
    intro l₂ h h₁ h₂
    subst h₁
    exact h₂.eq_nil.symm
  | cons a l₁ ih =>
    intro l₂ h h₁ h₂
    obtain ⟨rfl, h₁⟩ := h₁
    obtain ⟨l₂', rfl, hrest⟩ := h₂.eq_cons
    rw [ih h₁ hrest]

/-- Only the pointers of the cells on the list matter. -/
theorem Chain.congr (hlink : ∀ a ∈ l, link' a = link a) : ∀ {h : Option α},
    Chain link h l → Chain link' h l := by
  induction l with
  | nil => intro h hc; exact hc
  | cons a l ih =>
    intro h hc
    refine ⟨hc.1, ?_⟩
    rw [hlink a mem_cons_self]
    exact ih (fun b hb => hlink b (mem_cons_of_mem a hb)) hc.2

/-- A cell is put at the end: the pointer of the last one is set to it. -/
theorem Chain.push [DecidableEq α] {p last : α} : ∀ {l : List α} {h : Option α},
    Chain link h (l ++ [last]) → (l ++ [last]).Nodup → p ∉ l ++ [last] →
    Chain (update (update link p none) last (some p)) h (l ++ [last] ++ [p]) := by
  intro l
  induction l with
  | nil =>
    intro h hc _ hp
    have hne : p ≠ last := fun heq => hp (by rw [heq]; exact mem_singleton_self _)
    refine ⟨hc.1, ?_⟩
    rw [update_self]
    refine ⟨rfl, ?_⟩
    rw [update_of_ne hne, update_self]
    rfl
  | cons a l ih =>
    intro h hc hnd hp
    rw [cons_append, nodup_cons] at hnd
    rw [cons_append, mem_cons, not_or] at hp
    have hlast : a ≠ last := fun heq => hnd.1 (by rw [heq]; simp)
    refine ⟨hc.1, ?_⟩
    rw [update_of_ne hlast, update_of_ne (Ne.symm hp.1)]
    exact ih hc.2 hnd.2 hp.2

/-- A chain is cut behind one of its cells. -/
theorem Chain.cut [DecidableEq α] : ∀ {l₁ : List α} {h : Option α},
    Chain link h (l₁ ++ a :: l₂) → (l₁ ++ a :: l₂).Nodup →
    Chain (update link a none) h (l₁ ++ [a]) ∧ Chain (update link a none) (link a) l₂ := by
  intro l₁
  induction l₁ with
  | nil =>
    intro h hc hnd
    rw [nil_append, nodup_cons] at hnd
    refine ⟨⟨hc.1, ?_⟩, hc.2.congr fun b hb => ?_⟩
    · rw [update_self]
      rfl
    · have hne : b ≠ a := fun heq => hnd.1 (heq ▸ hb)
      exact update_of_ne hne _ _
  | cons b l₁ ih =>
    intro h hc hnd
    rw [cons_append, nodup_cons] at hnd
    have hne : b ≠ a := fun heq => hnd.1 (by rw [heq]; simp)
    obtain ⟨hleft, hright⟩ := ih hc.2 hnd.2
    refine ⟨⟨hc.1, ?_⟩, hright⟩
    rwa [update_of_ne hne]

end PrlPg.LinkedList
