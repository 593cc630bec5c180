/-
The three-valued logic of SQL.

A truth value is an `Option Bool`, `none` being unknown.  A conjunction or a disjunction is
over a list, as in an n-ary AND or OR.  What each of them is said to be is enough to reason
about it: a conjunction is true when all its members are and false when one of them is, a
disjunction the other way round, and a truth value is determined by whether it is true and
whether it is false (`eq_of_iff`).
-/
import Mathlib.Data.List.Basic

namespace PrlPg.ThreeValued

open List

/-- An n-ary AND: false if a member is false, else unknown if one is. -/
def conj (l : List (Option Bool)) : Option Bool :=
  if some false ∈ l then some false else if none ∈ l then none else some true

/-- An n-ary OR. -/
def disj (l : List (Option Bool)) : Option Bool :=
  if some true ∈ l then some true else if none ∈ l then none else some false

/-- NOT. -/
def neg (a : Option Bool) : Option Bool := a.map not

theorem eq_of_iff {a b : Option Bool} (ht : a = some true ↔ b = some true)
    (hf : a = some false ↔ b = some false) : a = b := by
  rcases a with - | - | - <;> rcases b with - | - | - <;> simp_all

variable {l : List (Option Bool)} {a : Option Bool}

theorem conj_eq_false : conj l = some false ↔ some false ∈ l := by
  unfold conj
  by_cases hf : some false ∈ l
  · simp [hf]
  by_cases hn : none ∈ l
  · simp [hf, hn]
  · simp [hf, hn]

theorem conj_eq_true : conj l = some true ↔ ∀ x ∈ l, x = some true := by
  unfold conj
  constructor
  · intro h x hx
    split at h
    · cases h
    next hf =>
      by_cases hn : none ∈ l
      · rw [if_pos hn] at h
        cases h
      rcases x with - | - | -
      · exact absurd hx hn
      · exact absurd hx hf
      · rfl
  intro h
  rw [if_neg, if_neg]
  · intro hn
    cases h none hn
  · intro hf
    cases h (some false) hf

theorem disj_eq_true : disj l = some true ↔ some true ∈ l := by
  unfold disj
  by_cases ht : some true ∈ l
  · simp [ht]
  by_cases hn : none ∈ l
  · simp [ht, hn]
  · simp [ht, hn]

theorem disj_eq_false : disj l = some false ↔ ∀ x ∈ l, x = some false := by
  unfold disj
  constructor
  · intro h x hx
    split at h
    · cases h
    next ht =>
      by_cases hn : none ∈ l
      · rw [if_pos hn] at h
        cases h
      rcases x with - | - | -
      · exact absurd hx hn
      · rfl
      · exact absurd hx ht
  intro h
  rw [if_neg, if_neg]
  · intro hn
    cases h none hn
  · intro ht
    cases h (some true) ht

theorem conj_singleton (a : Option Bool) : conj [a] = a := by rcases a with - | - | - <;> rfl

theorem disj_singleton (a : Option Bool) : disj [a] = a := by rcases a with - | - | - <;> rfl

theorem conj_true_right (a : Option Bool) : conj [a, some true] = a := by
  rcases a with - | - | - <;> rfl

theorem conj_append (l l' : List (Option Bool)) : conj (l ++ l') = conj [conj l, conj l'] := by
  refine eq_of_iff ?_ ?_
  · simp only [conj_eq_true, forall_mem_append, forall_mem_cons, not_mem_nil,
      false_imp_iff, implies_true, and_true]
  · simp only [conj_eq_false, mem_append, mem_cons, not_mem_nil, or_false,
      eq_comm (a := some false)]

theorem disj_append (l l' : List (Option Bool)) : disj (l ++ l') = disj [disj l, disj l'] := by
  refine eq_of_iff ?_ ?_
  · simp only [disj_eq_true, mem_append, mem_cons, not_mem_nil, or_false, eq_comm (a := some true)]
  · simp only [disj_eq_false, forall_mem_append, forall_mem_cons, not_mem_nil,
      false_imp_iff, implies_true, and_true]

theorem neg_eq_true : neg a = some true ↔ a = some false := by
  rcases a with - | - | - <;> simp [neg]

theorem neg_eq_false : neg a = some false ↔ a = some true := by
  rcases a with - | - | - <;> simp [neg]

theorem neg_neg (a : Option Bool) : neg (neg a) = a := by rcases a with - | - | - <;> rfl

/-! ### Over the members of a list -/

section Map

variable {ι : Type*} {f : ι → Option Bool} {l l' : List ι}

theorem conj_map_eq_true : conj (l.map f) = some true ↔ ∀ x ∈ l, f x = some true := by
  rw [conj_eq_true, forall_mem_map]

theorem conj_map_eq_false : conj (l.map f) = some false ↔ ∃ x ∈ l, f x = some false := by
  rw [conj_eq_false, mem_map]

theorem disj_map_eq_true : disj (l.map f) = some true ↔ ∃ x ∈ l, f x = some true := by
  rw [disj_eq_true, mem_map]

theorem disj_map_eq_false : disj (l.map f) = some false ↔ ∀ x ∈ l, f x = some false := by
  rw [disj_eq_false, forall_mem_map]

/-- The laws of De Morgan. -/
theorem neg_conj : neg (conj (l.map f)) = disj (l.map fun x => neg (f x)) := by
  refine eq_of_iff ?_ ?_
  · rw [neg_eq_true, conj_map_eq_false, disj_map_eq_true]
    simp only [neg_eq_true]
  · rw [neg_eq_false, conj_map_eq_true, disj_map_eq_false]
    simp only [neg_eq_false]

theorem neg_disj : neg (disj (l.map f)) = conj (l.map fun x => neg (f x)) := by
  refine eq_of_iff ?_ ?_
  · rw [neg_eq_true, disj_map_eq_false, conj_map_eq_true]
    simp only [neg_eq_true]
  · rw [neg_eq_false, disj_map_eq_true, conj_map_eq_false]
    simp only [neg_eq_false]

/-- Members that all belong to every arm can be taken out of a disjunction of conjunctions. -/
theorem disj_factor {κ : Type*} {arms : List κ} {args rest : κ → List ι} {common : List ι}
    (hsplit : ∀ c ∈ arms, ∀ x, x ∈ args c ↔ x ∈ common ∨ x ∈ rest c) :
    disj (arms.map fun c => conj ((args c).map f))
      = conj [conj (common.map f), disj (arms.map fun c => conj ((rest c).map f))] := by
  have hall : ∀ c ∈ arms, conj ((args c).map f)
      = conj [conj (common.map f), conj ((rest c).map f)] := by
    intro c hc
    rw [← conj_append, ← map_append]
    refine eq_of_iff ?_ ?_
    · simp only [conj_map_eq_true, mem_append, hsplit c hc]
    · simp only [conj_map_eq_false, mem_append, hsplit c hc]
  rw [map_congr_left hall]
  refine eq_of_iff ?_ ?_
  · simp only [disj_map_eq_true, conj_eq_true, mem_cons, not_mem_nil, or_false,
      forall_eq_or_imp, forall_eq]
    constructor
    · rintro ⟨c, hc, hcommon, hrest⟩
      exact ⟨hcommon, c, hc, hrest⟩
    · rintro ⟨hcommon, c, hc, hrest⟩
      exact ⟨c, hc, hcommon, hrest⟩
  simp only [disj_map_eq_false, conj_eq_false, mem_cons, not_mem_nil, or_false]
  constructor
  swap
  · rintro (h | h) c hc
    · exact .inl h
    · exact .inr (disj_map_eq_false.mp h.symm c hc).symm
  intro h
  by_cases hcommon : conj (common.map f) = some false
  · exact .inl hcommon.symm
  refine .inr (Eq.symm (disj_map_eq_false.mpr ?_))
  intro c hc
  rcases h c hc with h' | h'
  · exact absurd h'.symm hcommon
  · exact h'.symm

end Map

end PrlPg.ThreeValued
