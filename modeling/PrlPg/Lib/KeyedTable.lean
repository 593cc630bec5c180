/-
Tables with unique keys, as a hash table is to its users.

An entry carries its key in it.  The order of the entries is not part of the meaning: what is
said of a table is which entry a key finds, and how many entries satisfy a test.  A scan of
the table is any permutation of its entries.
-/
import Mathlib.Data.List.Nodup
import Mathlib.Data.List.Perm.Basic

namespace PrlPg

open List

/-- Entries of which no two have the same key. -/
@[ext]
structure KeyedTable {α κ : Type*} (key : α → κ) where
  entries : List α
  nodup : (entries.map key).Nodup

namespace KeyedTable

variable {α κ : Type*} {key : α → κ}

def empty : KeyedTable key where
  entries := []
  nodup := List.nodup_nil

/-- How many entries satisfy a test. -/
def count (p : α → Bool) (t : KeyedTable key) : Nat := t.entries.countP p

variable [DecidableEq κ]

/-- The entry with a key. -/
def find (t : KeyedTable key) (k : κ) : Option α := t.entries.find? fun a => key a = k

/-- The table without the entry with a key. -/
def remove (t : KeyedTable key) (k : κ) : KeyedTable key where
  entries := t.entries.filter fun a => key a ≠ k
  nodup := t.nodup.sublist (List.filter_sublist.map key)

theorem key_notMem_remove (t : KeyedTable key) (k : κ) : k ∉ (t.remove k).entries.map key := by
  intro h
  obtain ⟨a, ha, hk⟩ := mem_map.mp h
  have hne := (mem_filter.mp ha).2
  exact of_decide_eq_true hne hk

/-- The table with an entry added, in the place of the one with its key if there is one. -/
def enter (t : KeyedTable key) (a : α) : KeyedTable key where
  entries := a :: (t.remove (key a)).entries
  nodup := List.nodup_cons.mpr ⟨t.key_notMem_remove (key a), (t.remove (key a)).nodup⟩

variable {t : KeyedTable key} {k k' : κ} {a b : α}

theorem entries_remove (t : KeyedTable key) (k : κ) :
    (t.remove k).entries = t.entries.filter fun a => key a ≠ k := rfl

theorem entries_enter (t : KeyedTable key) (a : α) :
    (t.enter a).entries = a :: (t.remove (key a)).entries := rfl

/-! ### Finding -/

theorem find_empty : (empty : KeyedTable key).find k = none := rfl

theorem key_of_find (h : t.find k = some a) : key a = k := by
  have := find?_some h
  exact of_decide_eq_true this

theorem mem_of_find (h : t.find k = some a) : a ∈ t.entries := mem_of_find?_eq_some h

theorem find_of_mem (h : a ∈ t.entries) : t.find (key a) = some a := by
  cases hf : t.find (key a) with
  | none =>
    have := find?_eq_none.mp hf a h
    exact absurd (decide_eq_true rfl) this
  | some b =>
    have heq := inj_on_of_nodup_map t.nodup (mem_of_find hf) h (key_of_find hf)
    rw [heq]

theorem find_eq_none : t.find k = none ↔ ∀ a ∈ t.entries, key a ≠ k := by
  rw [find, find?_eq_none]
  simp only [decide_eq_true_eq, ne_eq]

theorem mem_remove : a ∈ (t.remove k).entries ↔ a ∈ t.entries ∧ key a ≠ k := by
  rw [entries_remove, mem_filter, decide_eq_true_eq]

theorem find_remove_self : (t.remove k).find k = none :=
  find_eq_none.mpr fun _ ha => (mem_remove.mp ha).2

theorem find_remove_of_ne (h : k' ≠ k) : (t.remove k).find k' = t.find k' := by
  cases hf : t.find k' with
  | none =>
    rw [find_eq_none] at hf ⊢
    exact fun a ha => hf a (mem_remove.mp ha).1
  | some a =>
    have hkey := key_of_find hf
    rw [← hkey]
    exact find_of_mem (mem_remove.mpr ⟨mem_of_find hf, fun heq => h (hkey ▸ heq)⟩)

theorem find_enter_self : (t.enter a).find (key a) = some a := find_of_mem mem_cons_self

theorem find_enter_of_ne (h : k ≠ key a) : (t.enter a).find k = t.find k := by
  rw [← find_remove_of_ne (t := t) h, find, find, entries_enter, find?_cons_of_neg]
  rw [decide_eq_true_eq]
  exact fun heq => h heq.symm

theorem remove_of_none (h : t.find k = none) : t.remove k = t := by
  refine KeyedTable.ext (filter_eq_self.mpr fun a ha => decide_eq_true ?_)
  exact find_eq_none.mp h a ha

theorem enter_enter (h : key a = key b) : (t.enter a).enter b = t.enter b := by
  refine KeyedTable.ext ?_
  rw [entries_enter, entries_enter, entries_remove, entries_enter,
    filter_cons_of_neg (by simpa using h), entries_remove, entries_remove,
    filter_filter, h]
  simp only [Bool.and_self]

/-! ### Counting -/

variable {p : α → Bool}

theorem count_remove_of_some (h : t.find k = some a) :
    t.count p = (t.remove k).count p + (p a).toNat := by
  obtain ⟨as, bs, hsplit⟩ := append_of_mem (mem_of_find h)
  have hkey := key_of_find h
  have hnd := t.nodup
  rw [hsplit, map_append, map_cons, nodup_middle, nodup_cons, mem_append, not_or, hkey] at hnd
  have hkeep : ∀ l : List α, k ∉ l.map key → l.filter (fun a => key a ≠ k) = l := by
    intro l hl
    refine filter_eq_self.mpr fun x hx => decide_eq_true ?_
    intro heq
    exact hl (mem_map.mpr ⟨x, hx, heq⟩)
  rw [count, count, entries_remove, hsplit, filter_append, hkeep as hnd.1.1,
    filter_cons_of_neg (by simpa using hkey), hkeep bs hnd.1.2, countP_append,
    countP_append, countP_cons]
  cases p a with
  | false => simp
  | true => simp [Nat.add_assoc]

theorem count_enter_of_none (h : t.find (key a) = none) :
    (t.enter a).count p = t.count p + (p a).toNat := by
  rw [count, entries_enter, remove_of_none h, countP_cons]
  cases p a <;> rfl

theorem count_enter_of_some (h : t.find (key a) = some b) :
    (t.enter a).count p + (p b).toNat = t.count p + (p a).toNat := by
  rw [count_remove_of_some h, count, entries_enter, countP_cons, ← count]
  cases p a <;> cases p b <;> simp

theorem count_eq_zero (h : t.count p = 0) (hf : t.find k = some a) : p a = false := by
  have := countP_eq_zero.mp h a (mem_of_find hf)
  simpa using this

end KeyedTable

end PrlPg
