/-
Merging sorted runs through their first elements.

Every run that is not used up has one candidate, its smallest element, in a common
pool.  Taking the least candidate of the pool, handing it out and putting the next
element of its run in its place yields the elements of all runs in order.

`KWay` is the state of such a merge: the pool, a candidate that has been taken out and
not been replaced yet, the rest of every run, and what has been handed out.  The pool is
any list; which element is least in it is the caller's business.  `KWay` says that the
output is sorted and no element left is below it, and the four lemmas after it are the
four moves of a merge.
-/
import PrlPg.Lib.Count
import PrlPg.Lib.Order

namespace PrlPg

open Function List

variable {α ε : Type*} (key : ε → α) (src : ε → ℕ) (cmp : α → α → Int)

/-- A merge under way.  `live i` says that run `i` has a candidate. -/
structure KWay (live : ℕ → Prop) (pool hand : List ε) (rest : ℕ → List α) (out : List α) :
    Prop where
  nodup : ((hand ++ pool).map src).Nodup
  index : ∀ i, i ∈ (hand ++ pool).map src ↔ live i
  front : ∀ e ∈ hand ++ pool, ∀ x ∈ rest (src e), cmp (key e) x ≤ 0
  runs : ∀ i, Nondecreasing cmp (rest i)
  least : ∀ h ∈ hand, ∀ e ∈ pool, cmp (key h) (key e) ≤ 0
  sorted : Nondecreasing cmp (out ++ hand.map key)
  below : ∀ r ∈ out, ∀ e ∈ pool, cmp r (key e) ≤ 0

/-- Everything a merge over `n` runs has to do with. -/
def KWay.total (n : ℕ) (pool hand : List ε) (rest : ℕ → List α) (out : List α) : Multiset α :=
  (out : Multiset α) + ((hand ++ pool).map key : List α) + ∑ i ∈ Finset.range n, (rest i : Multiset α)

namespace KWay

variable {key src cmp} {live : ℕ → Prop} {pool pool' hand : List ε} {rest : ℕ → List α}
  {out : List α} {e x : ε} {i n : ℕ} {l : List α}

theorem congr {live' : ℕ → Prop} (h : KWay key src cmp live pool hand rest out)
    (hlive : ∀ i, live i ↔ live' i) : KWay key src cmp live' pool hand rest out :=
  ⟨h.nodup, fun i => (h.index i).trans (hlive i), h.front, h.runs, h.least, h.sorted, h.below⟩

theorem start (hruns : ∀ i, Nondecreasing cmp (rest i)) :
    KWay key src cmp (fun _ => False) [] [] rest [] :=
  ⟨by simp, by simp, by simp, hruns, by simp, by simp [Nondecreasing], by simp⟩

/-- The first element of a run becomes its candidate, before anything is handed out. -/
theorem enter (h : KWay key src cmp live pool [] rest []) (hi : ¬ live (src e))
    (hrest : rest (src e) = key e :: l) (hpool : pool'.Perm (e :: pool)) :
    KWay key src cmp (fun j => live j ∨ j = src e) pool' [] (update rest (src e) l) [] := by
  have hperm := hpool.map src
  have hindex : ∀ j, j ∈ pool.map src ↔ live j := by simpa using h.index
  have hsorted := h.runs (src e)
  rw [hrest] at hsorted
  obtain ⟨hhead, htail⟩ := pairwise_cons.mp hsorted
  refine ⟨?_, ?_, ?_, ?_, by simp, by simp [Nondecreasing], by simp⟩
  · rw [nil_append, hperm.nodup_iff, map_cons, nodup_cons]
    exact ⟨fun hm => hi ((hindex _).mp hm), by simpa using h.nodup⟩
  · intro j
    rw [nil_append, hperm.mem_iff, map_cons, mem_cons, hindex]
    tauto
  · intro f hf y hy
    rw [nil_append, hpool.mem_iff, mem_cons] at hf
    rcases hf with rfl | hf
    · rw [update_self] at hy
      exact hhead y hy
    have hne : src f ≠ src e := by
      rintro hfe
      exact hi ((hindex _).mp (hfe ▸ mem_map_of_mem hf))
    rw [update_of_ne hne] at hy
    exact h.front f (by simpa using hf) y hy
  intro j
  by_cases hj : j = src e
  · rw [hj, update_self]
    exact htail
  · rw [update_of_ne hj]
    exact h.runs j

/-- The least candidate is taken out of the pool. -/
theorem take (h : KWay key src cmp live pool [] rest out) (hpool : pool.Perm (e :: pool'))
    (hleast : ∀ f ∈ pool', cmp (key e) (key f) ≤ 0) : KWay key src cmp live pool' [e] rest out := by
  have hperm := hpool.map src
  have hmem : ∀ f, f ∈ [e] ++ pool' ↔ f ∈ pool := fun f => by rw [hpool.mem_iff]; rfl
  refine ⟨?_, ?_, ?_, h.runs, by simpa using hleast, ?_, ?_⟩
  · exact hperm.nodup_iff.mp (by simpa using h.nodup)
  · intro j
    rw [← h.index j]
    exact hperm.symm.mem_iff
  · intro f hf
    exact h.front f ((hmem f).mp hf)
  · have hout : Nondecreasing cmp out := by simpa using h.sorted
    refine pairwise_append.mpr ⟨hout, by simp, ?_⟩
    intro r hr y hy
    rw [map_singleton, mem_singleton] at hy
    subst hy
    exact h.below r hr e (hpool.mem_iff.mpr (by simp))
  · intro r hr f hf
    exact h.below r hr f (hpool.mem_iff.mpr (by simp [hf]))

/-- It is handed out, and its run is used up. -/
theorem close (h : KWay key src cmp live pool [e] rest out) :
    KWay key src cmp (fun j => live j ∧ j ≠ src e) pool [] rest (out ++ [key e]) := by
  have hnd : (src e :: pool.map src).Nodup := h.nodup
  obtain ⟨hne, hnodup⟩ := nodup_cons.mp hnd
  refine ⟨by simpa using hnodup, ?_, ?_, h.runs, by simp, by simpa using h.sorted, ?_⟩
  · intro j
    rw [← h.index j, nil_append, singleton_append, map_cons, mem_cons]
    constructor
    · intro hj
      exact ⟨.inr hj, fun hje => hne (hje ▸ hj)⟩
    rintro ⟨hj | hj, hje⟩
    · exact absurd hj hje
    · exact hj
  · intro f hf
    exact h.front f (by simpa using .inr hf)
  intro r hr f hf
  rcases mem_append.mp hr with hr | hr
  · exact h.below r hr f hf
  · rw [mem_singleton.mp hr]
    exact h.least e (by simp) f hf

/-- It is handed out, and the next element of its run takes its place. -/
theorem replace (hcmp : TotalPreorder cmp) (h : KWay key src cmp live pool [e] rest out)
    (hsrc : src x = src e) (hrest : rest (src e) = key x :: l) (hpool : pool'.Perm (x :: pool)) :
    KWay key src cmp live pool' [] (update rest (src e) l) (out ++ [key e]) := by
  have hperm := hpool.map src
  have hsorted := h.runs (src e)
  rw [hrest] at hsorted
  obtain ⟨hhead, htail⟩ := pairwise_cons.mp hsorted
  have hex : cmp (key e) (key x) ≤ 0 := h.front e (by simp) (key x) (by rw [hrest]; simp)
  have hnd : (src e :: pool.map src).Nodup := h.nodup
  obtain ⟨hne, hnodup⟩ := nodup_cons.mp hnd
  refine ⟨?_, ?_, ?_, ?_, by simp, by simpa using h.sorted, ?_⟩
  · rw [nil_append, hperm.nodup_iff, map_cons, nodup_cons, hsrc]
    exact ⟨hne, by simpa using hnodup⟩
  · intro j
    rw [← h.index j, nil_append, hperm.mem_iff, map_cons, hsrc]
    rfl
  · intro f hf y hy
    rw [nil_append, hpool.mem_iff, mem_cons] at hf
    rcases hf with rfl | hf
    · rw [hsrc, update_self] at hy
      exact hhead y hy
    have hfe : src f ≠ src e := fun hfe => hne (hfe ▸ mem_map_of_mem hf)
    rw [update_of_ne hfe] at hy
    exact h.front f (by simpa using .inr hf) y hy
  · intro j
    by_cases hj : j = src e
    · rw [hj, update_self]
      exact htail
    · rw [update_of_ne hj]
      exact h.runs j
  intro r hr f hf
  rw [hpool.mem_iff, mem_cons] at hf
  have hre : cmp r (key e) ≤ 0 := by
    rcases mem_append.mp hr with hr' | hr'
    · exact (pairwise_append.mp h.sorted).2.2 r hr' (key e) (by simp)
    · rw [mem_singleton.mp hr']
      exact hcmp.refl _
  rcases hf with rfl | hf
  · exact hcmp.trans _ _ _ hre hex
  · exact hcmp.trans _ _ _ hre (h.least e (by simp) f hf)

/-! ### Nothing is lost -/

variable (key src) in
/-- Moving the first element of a run to its candidate moves it within the total. -/
theorem total_enter (hi : src e < n) (hrest : rest (src e) = key e :: l)
    (hpool : pool'.Perm (e :: pool)) :
    total key n pool' hand (update rest (src e) l) out = total key n pool hand rest out := by
  have hkeys : (((hand ++ pool').map key : List α) : Multiset α)
      = key e ::ₘ (((hand ++ pool).map key : List α) : Multiset α) := by
    rw [Multiset.cons_coe, Multiset.coe_eq_coe]
    refine ((hpool.append_left hand).map key).trans ?_
    simp
  have hcons := cons_sum_update hi hrest
  simp only [total, hkeys]
  rw [← hcons, Multiset.add_cons, Multiset.add_cons, Multiset.cons_add]

theorem total_take (hpool : pool.Perm (e :: pool')) :
    total key n pool' [e] rest out = total key n pool [] rest out := by
  have hkeys : ((([e] ++ pool').map key : List α) : Multiset α) = ((([] ++ pool).map key : List α)) :=
    Multiset.coe_eq_coe.mpr (hpool.map key).symm
  simp only [total, hkeys]

theorem total_yield :
    total key n pool [] rest (out ++ [key e]) = total key n pool [e] rest out := by
  have hkeys : ((out ++ [key e] : List α) : Multiset α) + ((([] ++ pool).map key : List α))
      = (out : Multiset α) + ((([e] ++ pool).map key : List α)) := by
    simp
  simp only [total, hkeys]

end KWay

end PrlPg
