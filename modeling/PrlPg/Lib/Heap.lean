/-
Binary heaps kept in an array, with a moving hole.

The two loops are the classical ones.  Inserting opens a hole at the end and moves
it towards the root; removing the root opens a hole there and moves it towards the
leaves.  An element is stored once, when the hole stops, instead of being swapped
at every level.

Both proofs look at the array the loop would leave if it stopped right now, with
the travelling element put into the hole.  That array is a permutation of the same
elements all along, and it is a heap except at the hole; `UpReady` and `DownReady`
say exactly where it may fail to be one.
-/
import PrlPg.Lib.Order

namespace PrlPg.Heap

open List

variable {ε : Type*} (cmp : ε → ε → Int)

/-- Move the hole at `j` towards the root until `x` may stay in it. -/
def insertLoop (x : ε) : Nat → Nat → List ε → List ε
  | 0, j, m => m.set j x
  | fuel + 1, j, m =>
    if j = 0 then m.set j x
    else if 0 ≤ cmp x (m.getD ((j - 1) / 2) x) then m.set j x
    else insertLoop x fuel ((j - 1) / 2) (m.set j (m.getD ((j - 1) / 2) x))

/-- Add an element to the heap. -/
def insert (m : List ε) (x : ε) : List ε := insertLoop cmp x m.length m.length (m ++ [x])

/-- The child of `i` the hole would move to: the smaller one, the left one on a tie. -/
def smallerChild (x : ε) (i : Nat) (m : List ε) : Nat :=
  if 2 * i + 2 < m.length ∧ 0 < cmp (m.getD (2 * i + 1) x) (m.getD (2 * i + 2) x) then 2 * i + 2
  else 2 * i + 1

/-- Move the hole at `i` towards the leaves until `x` may stay in it. -/
def removeLoop (x : ε) : Nat → Nat → List ε → List ε
  | 0, i, m => m.set i x
  | fuel + 1, i, m =>
    if m.length ≤ 2 * i + 1 then m.set i x
    else if cmp x (m.getD (smallerChild cmp x i m) x) ≤ 0 then m.set i x
    else removeLoop x fuel (smallerChild cmp x i m) (m.set i (m.getD (smallerChild cmp x i m) x))

/-- Drop the root; the last element is put back in from the top. -/
def removeRoot (m : List ε) : List ε :=
  match m.getLast? with
  | none => []
  | some x => removeLoop cmp x m.length 0 m.dropLast

/-- No element is below its parent. -/
def Ordered (m : List ε) : Prop :=
  ∀ i p c, 0 < i → m[(i - 1) / 2]? = some p → m[i]? = some c → cmp p c ≤ 0

/-- A heap but for the edge into `j`; the children of `j` may take its parent's place. -/
structure UpReady (a : List ε) (j : Nat) : Prop where
  off : ∀ i p c, 0 < i → i ≠ j → a[(i - 1) / 2]? = some p → a[i]? = some c → cmp p c ≤ 0
  bypass : ∀ i p c, 0 < i → (i - 1) / 2 = j → 0 < j → a[(j - 1) / 2]? = some p →
    a[i]? = some c → cmp p c ≤ 0

/-- A heap but for the edges out of `i`; its children may take its place. -/
structure DownReady (a : List ε) (i : Nat) : Prop where
  off : ∀ k p c, 0 < k → (k - 1) / 2 ≠ i → a[(k - 1) / 2]? = some p → a[k]? = some c → cmp p c ≤ 0
  bypass : ∀ k p c, 0 < k → (k - 1) / 2 = i → 0 < i → a[(i - 1) / 2]? = some p →
    a[k]? = some c → cmp p c ≤ 0

/-! ### Moving the hole permutes -/

variable {m : List ε} {i : Nat} {j : Nat}

theorem set_getD_perm (m : List ε) (x : ε) (hi : i < m.length) (hj : j < m.length)
    (hij : i ≠ j) : ((m.set j (m.getD i x)).set i x).Perm (m.set j x) := by
  have hget : m.getD i x = (m.set j x).get ⟨i, by simpa using hi⟩ := by
    simp [getD_eq_getElem?_getD, getElem?_eq_getElem hi, getElem_set_ne (Ne.symm hij)]
  have hx : (m.set j x).get ⟨j, by simpa using hj⟩ = x := by simp
  have hj' : j < (m.set j x).length := by simpa using hj
  have hi' : i < (m.set j x).length := by simpa using hi
  have hperm := set_set_perm hj' hi'
  simp only [get_eq_getElem] at hget hx
  rw [← hget, hx, set_set] at hperm
  exact hperm

theorem insertLoop_perm (x : ε) : ∀ (fuel j : Nat) (m : List ε), j < m.length →
      (insertLoop cmp x fuel j m).Perm (m.set j x) := by
  intro fuel
  induction fuel with
  | zero => intro j m _; exact Perm.refl _
  | succ fuel ih =>
    intro j m hj
    rw [insertLoop]
    split
    · exact Perm.refl _
    split
    · exact Perm.refl _
    refine (ih _ _ (by simp; omega)).trans ?_
    exact set_getD_perm m x (by omega) hj (by omega)

theorem insert_perm (m : List ε) (x : ε) : (insert cmp m x).Perm (x :: m) := by
  refine (insertLoop_perm cmp x _ _ _ (by simp)).trans ?_
  simp

theorem smallerChild_lt (x : ε) (h : ¬ m.length ≤ 2 * i + 1) :
    smallerChild cmp x i m < m.length := by
  unfold smallerChild
  split <;> omega

theorem smallerChild_parent (x : ε) (i : Nat) (m : List ε) :
    (smallerChild cmp x i m - 1) / 2 = i ∧ i < smallerChild cmp x i m := by
  unfold smallerChild
  split <;> omega

theorem removeLoop_perm (x : ε) : ∀ (fuel i : Nat) (m : List ε), i < m.length →
      (removeLoop cmp x fuel i m).Perm (m.set i x) := by
  intro fuel
  induction fuel with
  | zero => intro i m _; exact Perm.refl _
  | succ fuel ih =>
    intro i m hi
    rw [removeLoop]
    split
    · exact Perm.refl _
    rename_i hlen
    have hc := smallerChild_lt cmp x hlen
    have hp := smallerChild_parent cmp x i m
    split
    · exact Perm.refl _
    · refine (ih _ _ (by simpa using hc)).trans ?_
      exact set_getD_perm m x hc hi (by omega)

theorem removeRoot_perm (x : ε) (m : List ε) : (x :: removeRoot cmp (x :: m)).Perm (x :: m) := by
  refine Perm.cons x ?_
  unfold removeRoot
  rcases eq_nil_or_concat m with rfl | ⟨l, y, rfl⟩
  · simp [removeLoop]
  have hlast : (x :: (l ++ [y])).getLast? = some y := by rw [← cons_append, getLast?_concat]
  have hdrop : (x :: (l ++ [y])).dropLast = x :: l := by rw [← cons_append, dropLast_concat]
  simp only [concat_eq_append, hlast, hdrop]
  refine (removeLoop_perm cmp y _ 0 (x :: l) (by simp)).trans ?_
  exact (perm_append_singleton y l).symm

/-! ### Moving the hole keeps the order

One level up, the edge that may fail moves from `j` to its parent; one level down,
the edges that may fail move from `i` to the child the hole goes to.
-/

theorem UpReady.stop {cmp : ε → ε → Int} {a : List ε} (r : UpReady cmp a j)
    (htop : 0 < j → ∀ p c, a[(j - 1) / 2]? = some p → a[j]? = some c → cmp p c ≤ 0) :
    Ordered cmp a := by
  intro i p c h0 hp hc
  by_cases hij : i = j
  · subst hij; exact htop h0 p c hp hc
  · exact r.off i p c h0 hij hp hc

theorem DownReady.stop {cmp : ε → ε → Int} {a : List ε} (r : DownReady cmp a i)
    (hkids : ∀ k p c, 0 < k → (k - 1) / 2 = i → a[i]? = some p → a[k]? = some c → cmp p c ≤ 0) :
    Ordered cmp a := by
  intro k p c h0 hp hc
  by_cases hpi : (k - 1) / 2 = i
  · exact hkids k p c h0 hpi (by rw [← hpi]; exact hp) hc
  · exact r.off k p c h0 hpi hp hc

section Order

variable {cmp} (h : TotalPreorder cmp)
include h

theorem UpReady.move {x p : ε} (hj : j < m.length) (hpos : 0 < j)
    (hp : m[(j - 1) / 2]? = some p) (hlt : cmp x p < 0) (r : UpReady cmp (m.set j x) j) :
    UpReady cmp ((m.set j p).set ((j - 1) / 2) x) ((j - 1) / 2) := by
  have hil : (j - 1) / 2 < m.length := by omega
  -- What `r` says once the hole's own value is read off.
  have hoff : ∀ i q c, 0 < i → i ≠ j → (i - 1) / 2 ≠ j → m[(i - 1) / 2]? = some q →
      m[i]? = some c → cmp q c ≤ 0 := by
    intro i q c h0 hij hpj hq hc
    exact r.off i q c h0 hij (by rwa [getElem?_set_ne (Ne.symm hpj)])
      (by rwa [getElem?_set_ne (Ne.symm hij)])
  have hkids : ∀ i c, 0 < i → (i - 1) / 2 = j → m[i]? = some c → cmp p c ≤ 0 := by
    intro i c h0 hpar hc
    exact r.bypass i p c h0 hpar hpos (by rwa [getElem?_set_ne (by omega)])
      (by rwa [getElem?_set_ne (by omega)])
  constructor
  · intro i q c h0 hne hq hc
    rw [getElem?_set_ne (Ne.symm hne)] at hc
    by_cases hij : i = j
    · -- the edge the hole has just left: `x` above the element that moved down
      subst hij
      rw [getElem?_set_self (by simpa using hil)] at hq
      rw [getElem?_set_self hj] at hc
      cases hq; cases hc
      omega
    rw [getElem?_set_ne (Ne.symm hij)] at hc
    by_cases hpi : (i - 1) / 2 = (j - 1) / 2
    · rw [hpi, getElem?_set_self (by simpa using hil)] at hq
      cases hq
      exact h.trans _ p _ (by omega) (hoff i p c h0 hij (by omega) (by rw [hpi]; exact hp) hc)
    rw [getElem?_set_ne (Ne.symm hpi)] at hq
    by_cases hpj : (i - 1) / 2 = j
    · rw [hpj, getElem?_set_self hj] at hq
      cases hq
      exact hkids i c h0 hpj hc
    · rw [getElem?_set_ne (Ne.symm hpj)] at hq
      exact hoff i q c h0 hij hpj hq hc
  intro i q c h0 hpar hpos' hq hc
  have hgj : ((j - 1) / 2 - 1) / 2 ≠ j := by omega
  rw [getElem?_set_ne (by omega), getElem?_set_ne (by omega)] at hq
  have hqp : cmp q p ≤ 0 := hoff _ q p hpos' (by omega) hgj hq hp
  rw [getElem?_set_ne (by omega)] at hc
  by_cases hij : i = j
  · subst hij
    rw [getElem?_set_self hj] at hc
    cases hc
    exact hqp
  · rw [getElem?_set_ne (Ne.symm hij)] at hc
    exact h.trans _ p _ hqp (hoff i p c h0 hij (by omega) (by rw [hpar]; exact hp) hc)

theorem insertLoop_ordered (x : ε) :
    ∀ (fuel j : Nat) (m : List ε), j ≤ fuel → j < m.length → UpReady cmp (m.set j x) j →
      Ordered cmp (insertLoop cmp x fuel j m) := by
  intro fuel
  induction fuel with
  | zero =>
    intro j m hfuel _ r
    exact UpReady.stop r (fun hpos => absurd hpos (by omega))
  | succ fuel ih =>
    intro j m hfuel hj r
    rw [insertLoop]
    split
    · exact UpReady.stop r (fun hpos => absurd hpos (by omega))
    rename_i hpos
    have hil : (j - 1) / 2 < m.length := by omega
    obtain ⟨p, hp⟩ : ∃ p, m[(j - 1) / 2]? = some p := ⟨_, getElem?_eq_getElem hil⟩
    have hgetD : m.getD ((j - 1) / 2) x = p := by rw [getD_eq_getElem?_getD, hp]; rfl
    rw [hgetD]
    split
    swap
    · rename_i hgo
      refine ih _ _ (by omega) (by simp; omega) ?_
      exact UpReady.move h hj (by omega) hp (by omega) r
    rename_i hstop
    refine UpReady.stop r ?_
    intro _ q c hq hc
    rw [getElem?_set_ne (by omega), hp] at hq
    rw [getElem?_set_self hj] at hc
    cases hq; cases hc
    exact (h.flip _ _).mp hstop

/-- Inserting keeps the heap. -/
theorem insert_ordered (x : ε) (ho : Ordered cmp m) : Ordered cmp (insert cmp m x) := by
  refine insertLoop_ordered h x _ _ _ (le_rfl) (by simp) ?_
  have hlast : (m ++ [x]).set m.length x = m ++ [x] := by rw [set_append_right _ _ (le_rfl)]; simp
  rw [hlast]
  constructor
  swap
  · intro i p c h0 hpar _ _ hc
    have := (List.getElem?_eq_some_iff.mp hc).1
    simp at this; omega
  intro i p c h0 hne hp hc
  have hi : i < m.length := by
    have := (List.getElem?_eq_some_iff.mp hc).1
    simp at this; omega
  rw [getElem?_append_left hi] at hc
  rw [getElem?_append_left (by omega)] at hp
  exact ho i p c h0 hp hc

theorem smallerChild_le {x y c : ε} {k : Nat} (hk : 0 < k) (hpar : (k - 1) / 2 = i)
    (hy : m[smallerChild cmp x i m]? = some y) (hc : m[k]? = some c) : cmp y c ≤ 0 := by
  have hkl : k < m.length := (List.getElem?_eq_some_iff.mp hc).1
  have hD : ∀ n z, m[n]? = some z → m.getD n x = z := by
    intro n z hz; rw [getD_eq_getElem?_getD, hz]; rfl
  have hcase : k = 2 * i + 1 ∨ k = 2 * i + 2 := by omega
  unfold smallerChild at hy
  rcases hcase with rfl | rfl
  · split at hy
    · rename_i hcond
      rw [hD _ _ hc, hD _ _ hy] at hcond
      exact h.le_of_pos hcond.2
    · rw [hc] at hy; cases hy; exact h.refl _
  split at hy
  · rw [hc] at hy; cases hy; exact h.refl _
  rename_i hcond
  have : ¬ 0 < cmp (m.getD (2 * i + 1) x) (m.getD (2 * i + 2) x) := fun hp => hcond ⟨hkl, hp⟩
  rw [hD _ _ hc, hD _ _ hy] at this
  omega

theorem DownReady.move {x y : ε} {k : Nat} (hi : i < m.length) (hik : i < k)
    (hpar : (k - 1) / 2 = i) (hy : m[k]? = some y) (hgt : 0 < cmp x y)
    (hmin : ∀ l c, 0 < l → (l - 1) / 2 = i → m[l]? = some c → cmp y c ≤ 0)
    (r : DownReady cmp (m.set i x) i) : DownReady cmp ((m.set i y).set k x) k := by
  have hkl : k < m.length := (List.getElem?_eq_some_iff.mp hy).1
  have hoff : ∀ l q c, 0 < l → l ≠ i → (l - 1) / 2 ≠ i → m[(l - 1) / 2]? = some q →
      m[l]? = some c → cmp q c ≤ 0 := by
    intro l q c h0 hli hpi hq hc
    exact r.off l q c h0 hpi (by rwa [getElem?_set_ne (Ne.symm hpi)])
      (by rwa [getElem?_set_ne (Ne.symm hli)])
  constructor
  · intro l q c h0 hpk hq hc
    rw [getElem?_set_ne (Ne.symm hpk)] at hq
    by_cases hli : l = i
    · -- the edge into the old hole: the child that moved up may stand under its grandparent
      subst hli
      rw [getElem?_set_ne (by omega)] at hq
      rw [getElem?_set_ne (by omega), getElem?_set_self hi] at hc
      cases hc
      exact r.bypass k q _ (by omega) hpar h0 (by rwa [getElem?_set_ne (by omega)])
        (by rwa [getElem?_set_ne (by omega)])
    by_cases hpi : (l - 1) / 2 = i
    · rw [hpi, getElem?_set_self hi] at hq
      cases hq
      by_cases hlk : l = k
      · subst hlk
        rw [getElem?_set_self (by simpa using hkl)] at hc
        cases hc
        exact h.le_of_pos hgt
      · rw [getElem?_set_ne (Ne.symm hlk), getElem?_set_ne (Ne.symm hli)] at hc
        exact hmin l c h0 hpi hc
    rw [getElem?_set_ne (Ne.symm hpi)] at hq
    have hlk : l ≠ k := by rintro rfl; exact hpi hpar
    rw [getElem?_set_ne (Ne.symm hlk), getElem?_set_ne (Ne.symm hli)] at hc
    exact hoff l q c h0 hli hpi hq hc
  intro l q c h0 hlk _ hq hc
  rw [hpar, getElem?_set_ne (by omega), getElem?_set_self hi] at hq
  rw [getElem?_set_ne (by omega), getElem?_set_ne (by omega)] at hc
  cases hq
  exact hoff l _ c h0 (by omega) (by omega) (by rw [hlk]; exact hy) hc

theorem removeLoop_ordered (x : ε) :
    ∀ (fuel i : Nat) (m : List ε), m.length ≤ fuel + i → i < m.length →
      DownReady cmp (m.set i x) i → Ordered cmp (removeLoop cmp x fuel i m) := by
  intro fuel
  induction fuel with
  | zero => intro i m hfuel hi _; omega
  | succ fuel ih =>
    intro i m hfuel hi r
    rw [removeLoop]
    split
    · refine DownReady.stop r ?_
      intro k p c h0 hpar _ hc
      have := (List.getElem?_eq_some_iff.mp hc).1
      simp at this; omega
    rename_i hlen
    have hc := smallerChild_lt cmp x hlen
    have hp := smallerChild_parent cmp x i m
    obtain ⟨y, hy⟩ : ∃ y, m[smallerChild cmp x i m]? = some y := ⟨_, getElem?_eq_getElem hc⟩
    have hgetD : m.getD (smallerChild cmp x i m) x = y := by rw [getD_eq_getElem?_getD, hy]; rfl
    have hmin : ∀ l c, 0 < l → (l - 1) / 2 = i → m[l]? = some c → cmp y c ≤ 0 :=
      fun l c h0 hpar hl => smallerChild_le h h0 hpar hy hl
    rw [hgetD]
    split
    swap
    · rename_i hgo
      refine ih _ _ (by simp; omega) (by simpa using hc) ?_
      exact DownReady.move h hi hp.2 hp.1 hy (by omega) hmin r
    rename_i hstop
    refine DownReady.stop r ?_
    intro k p c h0 hpar hpi hk
    rw [getElem?_set_self hi] at hpi
    rw [getElem?_set_ne (by omega)] at hk
    cases hpi
    exact h.trans _ y _ hstop (hmin k c h0 hpar hk)

/-- Removing the root keeps the heap. -/
theorem removeRoot_ordered (ho : Ordered cmp m) : Ordered cmp (removeRoot cmp m) := by
  unfold removeRoot
  rcases eq_nil_or_concat m with rfl | ⟨l, y, rfl⟩
  · intro i p c _ hp _; simp at hp
  simp only [concat_eq_append, getLast?_concat, dropLast_concat] at ho ⊢
  rcases l with _ | ⟨a, l⟩
  · intro i p c _ hp _; simp [removeLoop] at hp
  refine removeLoop_ordered h y _ 0 _ (by simp) (by simp) ?_
  constructor
  · intro k p c h0 hpar hp hc
    rw [getElem?_set_ne (by omega)] at hp hc
    have hk := (List.getElem?_eq_some_iff.mp hc).1
    exact ho k p c h0 (by rw [getElem?_append_left (by omega)]; exact hp)
      (by rw [getElem?_append_left hk]; exact hc)
  · intro k p c _ _ hpos; omega

/-- The root is not above anything in the heap. -/
theorem root_le {x : ε} (ho : Ordered cmp (x :: m)) : ∀ y ∈ x :: m, cmp x y ≤ 0 := by
  have key : ∀ (i : Nat) (y : ε), (x :: m)[i]? = some y → cmp x y ≤ 0 := by
    intro i
    induction i using Nat.strong_induction_on with
    | _ i ih =>
      intro y hy
      by_cases h0 : i = 0
      · subst h0; simp at hy; subst hy; exact h.refl x
      have hlt := (List.getElem?_eq_some_iff.mp hy).1
      obtain ⟨p, hp⟩ : ∃ p, (x :: m)[(i - 1) / 2]? = some p :=
        ⟨_, getElem?_eq_getElem (show (i - 1) / 2 < (x :: m).length by omega)⟩
      exact h.trans _ p _ (ih _ (by omega) p hp) (ho i p y (by omega) hp hy)
  intro y hy
  obtain ⟨i, hi⟩ := getElem?_of_mem hy
  exact key i y hi

end Order

end PrlPg.Heap
