/-
One object of the lock table.

`Good` says what the counters and masks of an object mean: who holds it, who waits for it, and
how many requests are counted that belong to nobody (`extra`).  A process that has counted its
request and has not yet got the lock or joined the queue has such a request, and so has, for
ever, one that was thrown out at that point.  Every operation on an object is proved once to
keep `Good`, whatever the number of such requests is.
-/
import Mathlib.Algebra.BigOperators.Pi
import PrlPg.Lib.Count
import PrlPg.Storage.LockTable

namespace PrlPg.Locks

open Function List Option Finset Entry

variable {P : Type*} {n : Nat}

/-! ### Holders -/

/-- How many processes hold a mode. -/
def holders [Fintype P] (hold : P → Finset (Fin n)) (mode : Fin n) : Nat :=
  (Finset.univ.filter fun p => mode ∈ hold p).card

section Holders

variable [Fintype P] {hold : P → Finset (Fin n)} {p : P} {mode : Fin n}

theorem holders_pos : 0 < holders hold mode ↔ ∃ p, mode ∈ hold p := by
  rw [holders, card_pos]
  constructor
  · rintro ⟨p, hp⟩
    exact ⟨p, (mem_filter.1 hp).2⟩
  · rintro ⟨p, hp⟩
    exact ⟨p, mem_filter.2 ⟨mem_univ p, hp⟩⟩

variable [DecidableEq P]

theorem holders_update (hold : P → Finset (Fin n)) (p : P) (set : Finset (Fin n)) (m : Fin n) :
    holders (update hold p set) m + (if m ∈ hold p then 1 else 0)
      = holders hold m + if m ∈ set then 1 else 0 := by
  have hsum := sum_update (fun held : Finset (Fin n) => if m ∈ held then 1 else 0) hold set
    (mem_univ p)
  simpa only [holders, card_filter] using hsum

/-- A mode that `p` takes has one holder more. -/
theorem holders_insert (h : mode ∉ hold p) (m : Fin n) :
    holders (update hold p (insert mode (hold p))) m
      = holders hold m + if m = mode then 1 else 0 := by
  have hsum := holders_update hold p (insert mode (hold p)) m
  by_cases hm : m = mode
  · subst hm
    rw [if_neg h, if_pos (mem_insert_self _ _)] at hsum
    rw [if_pos rfl]
    omega
  rw [if_neg hm]
  by_cases hold' : m ∈ hold p
  · rw [if_pos hold', if_pos (mem_insert_of_mem hold')] at hsum
    omega
  have hnot : m ∉ insert mode (hold p) := by
    rw [mem_insert]
    exact not_or.2 ⟨hm, hold'⟩
  rw [if_neg hold', if_neg hnot] at hsum
  omega

/-- A mode that `p` gives up has one holder less. -/
theorem holders_erase (h : mode ∈ hold p) (m : Fin n) :
    holders (update hold p ((hold p).erase mode)) m + (if m = mode then 1 else 0)
      = holders hold m := by
  have hins : update (update hold p ((hold p).erase mode)) p
      (insert mode (update hold p ((hold p).erase mode) p)) = hold := by
    rw [update_self, insert_erase h, update_idem, update_eq_self]
  have hnot : mode ∉ update hold p ((hold p).erase mode) p := by
    rw [update_self]
    exact notMem_erase _ _
  rw [← holders_insert hnot m, hins]

/-- Whether somebody else holds a mode can be seen from the number of its holders. -/
theorem exists_other_holder :
    (if mode ∈ hold p then 1 else 0) < holders hold mode ↔ ∃ q, q ≠ p ∧ mode ∈ hold q := by
  have hsum := holders_update hold p ∅ mode
  rw [if_neg (notMem_empty mode)] at hsum
  have hother : 0 < holders (update hold p ∅) mode ↔ ∃ q, q ≠ p ∧ mode ∈ hold q := by
    rw [holders_pos]
    constructor
    swap
    · rintro ⟨q, hqp, hq⟩
      exact ⟨q, by rwa [update_of_ne hqp]⟩
    rintro ⟨q, hq⟩
    by_cases hqp : q = p
    · subst hqp
      rw [update_self] at hq
      exact absurd hq (notMem_empty _)
    · rw [update_of_ne hqp] at hq
      exact ⟨q, hqp, hq⟩
  rw [← hother]
  omega

end Holders

/-! ### What an object looks like after an operation -/

variable {f : PROCLOCK n → PROCLOCK n} {e' : Entry P n}

namespace Entry

section Fields

variable {e : Entry P n} {p q : P} {mode : Fin n}

theorem holdMask_of_none (h : e.proclock p = none) : e.holdMask p = ∅ := by rw [holdMask, h]

theorem holdMask_of_some {proclock : PROCLOCK n} (h : e.proclock p = some proclock) :
    e.holdMask p = proclock.holdMask := by
  rw [holdMask, h]

theorem holdMask_congr (h : e'.proclock p = e.proclock p) :
    e'.holdMask p = e.holdMask p := by
  rw [holdMask, holdMask, h]

@[simp] theorem request_holdMask : (e.request mode).holdMask = e.holdMask := rfl

variable [DecidableEq P]

@[simp] theorem dequeue_holdMask : (e.dequeue p).holdMask = e.holdMask := rfl

theorem modifyProcLock_of_ne (h : q ≠ p) :
    (e.modifyProcLock p f).proclock q = e.proclock q := update_of_ne h _ _

theorem modifyProcLock_self :
    (e.modifyProcLock p f).proclock p = (e.proclock p).map f := update_self _ _ _

theorem enter_proclock_of_ne (h : q ≠ p) : (e.enter p).proclock q = e.proclock q := by
  unfold enter
  split
  · rfl
  · exact update_of_ne h _ _

theorem enter_isSome : ((e.enter p).proclock p).isSome = true := by
  unfold enter
  split
  · rename_i proclock h
    rw [h]
    rfl
  · simp only [update_self, isSome_some]

theorem enter_holdMask : (e.enter p).holdMask = e.holdMask := by
  funext q
  unfold enter
  split
  · rfl
  rename_i h
  by_cases hq : q = p
  · subst hq
    rw [holdMask_of_none h, holdMask_of_some (update_self _ _ _)]
  · exact holdMask_congr (update_of_ne hq _ _)

theorem forget_holdMask (h : e.holdMask p = ∅) : (e.forget p).holdMask = e.holdMask := by
  funext q
  by_cases hq : q = p
  · subst hq
    rw [h, holdMask_of_none (update_self _ _ _)]
  · exact holdMask_congr (update_of_ne hq _ _)

theorem grantLock_holdMask (h : (e.proclock p).isSome = true) : (e.grantLock p mode).holdMask
      = update e.holdMask p (insert mode (e.holdMask p)) := by
  funext q
  by_cases hq : q = p
  · subst hq
    obtain ⟨proclock, hsome⟩ := isSome_iff_exists.1 h
    rw [update_self, holdMask_of_some hsome, holdMask, grantLock, modifyProcLock_self, hsome]
    rfl
  · rw [update_of_ne hq]
    exact holdMask_congr (modifyProcLock_of_ne hq)

theorem unGrantLock_holdMask : (e.unGrantLock p mode).holdMask
      = update e.holdMask p ((e.holdMask p).erase mode) := by
  funext q
  by_cases hq : q = p
  · subst hq
    rw [update_self, holdMask, holdMask, unGrantLock, modifyProcLock_self]
    cases e.proclock q with
    | none => rfl
    | some proclock => rfl
  · rw [update_of_ne hq]
    exact holdMask_congr (modifyProcLock_of_ne hq)

theorem unGrantLock_releaseMask : (e.unGrantLock p mode).releaseMask p = e.releaseMask p := by
  rw [releaseMask, releaseMask, unGrantLock, modifyProcLock_self]
  cases e.proclock p with
  | none => rfl
  | some proclock => rfl

theorem unGrantLock_isSome :
    ((e.unGrantLock p mode).proclock p).isSome = (e.proclock p).isSome := by
  rw [unGrantLock, modifyProcLock_self, isSome_map]

theorem unGrantLock_proclock_of_ne (h : q ≠ p) :
    (e.unGrantLock p mode).proclock q = e.proclock q := modifyProcLock_of_ne h

/-- A change to a `PROCLOCK` that leaves the modes that are held alone. -/
theorem modifyProcLock_holdMask (hf : ∀ proclock, (f proclock).holdMask = proclock.holdMask) :
    (e.modifyProcLock p f).holdMask = e.holdMask := by
  funext q
  by_cases hq : q = p
  · subst hq
    rw [holdMask, holdMask, modifyProcLock_self]
    cases e.proclock q with
    | none => rfl
    | some proclock => exact hf proclock
  · exact holdMask_congr (modifyProcLock_of_ne hq)

end Fields

end Entry

/-! ### The counters -/

/-- One request for a mode, and none for the others. -/
def one (mode : Fin n) : Fin n → Nat := Pi.single mode 1

theorem one_self (mode : Fin n) : one mode mode = 1 := Pi.single_eq_same mode 1

theorem one_apply (mode m : Fin n) : one mode m = if m = mode then 1 else 0 :=
  Pi.single_apply mode 1 m

theorem update_add_one (f : Fin n → Nat) (mode m : Fin n) :
    update f mode (f mode + 1) m = f m + if m = mode then 1 else 0 := by
  rw [update_apply]
  split_ifs with hm
  · rw [hm]
  · rfl

theorem update_sub_one {f : Fin n → Nat} {mode : Fin n} (h : 0 < f mode) (m : Fin n) :
    update f mode (f mode - 1) m + (if m = mode then 1 else 0) = f m := by
  rw [update_apply]
  split_ifs with hm
  · rw [hm]
    omega
  · rfl

theorem sum_add_one (f : Fin n → Nat) (mode : Fin n) :
    ∑ m, update f mode (f mode + 1) m = ∑ m, f m + 1 := by
  have hsum := sum_update id f (f mode + 1) (mem_univ mode)
  simp only [id] at hsum
  omega

theorem sum_sub_one {f : Fin n → Nat} {mode : Fin n} (h : 0 < f mode) :
    ∑ m, update f mode (f mode - 1) m + 1 = ∑ m, f m := by
  have hsum := sum_update id f (f mode - 1) (mem_univ mode)
  simp only [id] at hsum
  omega

/-- A bit that is switched off under a condition. -/
theorem mem_ite_erase {mask : Finset (Fin n)} {mode m : Fin n} {c : Prop} [Decidable c] :
    m ∈ (if c then mask.erase mode else mask) ↔ m ∈ mask ∧ ¬ (m = mode ∧ c) := by
  split
  · rename_i hc
    rw [mem_erase]
    exact ⟨fun hm => ⟨hm.2, fun hand => hm.1 hand.1⟩, fun hm => ⟨fun heq => hm.2 ⟨heq, hc⟩, hm.1⟩⟩
  · rename_i hc
    exact ⟨fun hm => ⟨hm, fun hand => hc hand.2⟩, fun hm => hm.1⟩

/-- The counters and masks of an object are those of its holders and waiters and of `extra`
further requests, and no two processes hold modes that conflict. -/
structure Good [Fintype P] (conflicts : Fin n → Finset (Fin n)) (want : P → Fin n)
    (extra : Fin n → Nat) (e : Entry P n) : Prop where
  granted : ∀ m, e.lock.granted m = holders e.holdMask m
  requested : ∀ m, e.lock.requested m
    = e.lock.granted m + e.lock.waitProcs.countP (fun q => want q = m) + extra m
  nGranted : e.lock.nGranted = ∑ m, e.lock.granted m
  nRequested : e.lock.nRequested = ∑ m, e.lock.requested m
  grantMask : ∀ m, m ∈ e.lock.grantMask ↔ 0 < e.lock.granted m
  /-- What a waiter wants is in `waitMask` ... -/
  waited : ∀ q ∈ e.lock.waitProcs, want q ∈ e.lock.waitMask
  /-- ... and what is in `waitMask` has requests that are not granted. -/
  pending : ∀ m ∈ e.lock.waitMask, e.lock.granted m < e.lock.requested m
  nodup : e.lock.waitProcs.Nodup
  fresh : ∀ q ∈ e.lock.waitProcs, want q ∉ e.holdMask q
  known : ∀ q ∈ e.lock.waitProcs, (e.proclock q).isSome = true
  exclusive : ∀ p q, p ≠ q → ∀ m ∈ e.holdMask p, ∀ m' ∈ e.holdMask q, m' ∉ conflicts m

namespace Good

section

variable [Fintype P] {conflicts : Fin n → Finset (Fin n)} {want : P → Fin n}
  {extra : Fin n → Nat} {e : Entry P n} {p : P} {mode : Fin n}

/-- `Good` reads what the waiters want and nothing else of `want`. -/
theorem congr (h : Good conflicts want extra e) {want' : P → Fin n}
    (hwant : ∀ q ∈ e.lock.waitProcs, want' q = want q) : Good conflicts want' extra e where
  __ := h
  requested := fun m => by
    rw [h.requested m]
    have hcount : e.lock.waitProcs.countP (fun q => decide (want q = m))
        = e.lock.waitProcs.countP (fun q => decide (want' q = m)) :=
      countP_congr fun q hq => by rw [hwant q hq]
    rw [hcount]
  waited := fun q hq => by rw [hwant q hq]; exact h.waited q hq
  fresh := fun q hq => by rw [hwant q hq]; exact h.fresh q hq

theorem granted_le (h : Good conflicts want extra e) (m : Fin n) :
    e.lock.granted m ≤ e.lock.requested m := by
  rw [h.requested m]
  omega

omit [Fintype P] in
theorem countP_pos (want : P → Fin n) (q : P) (l : List P) (hq : q ∈ l) :
    0 < l.countP (fun q' => want q' = want q) :=
  countP_pos_iff.2 ⟨q, hq, decide_eq_true rfl⟩

section

variable (h : Good conflicts want extra e)
include h

/-- Nobody counts on an object with no requests. -/
theorem nothing_of_nRequested (hzero : e.lock.nRequested = 0) :
    e.lock.waitProcs = [] ∧ extra = 0 ∧ ∀ p, e.holdMask p = ∅ := by
  have hreq : ∀ m, e.lock.requested m = 0 := by
    intro m
    have hsum : ∑ m, e.lock.requested m = 0 := by rw [← h.nRequested, hzero]
    exact (Finset.sum_eq_zero_iff.1 hsum) m (Finset.mem_univ m)
  refine ⟨?_, ?_, ?_⟩
  · refine eq_nil_iff_forall_not_mem.2 fun q hq => ?_
    have hpos := countP_pos want q _ hq
    have := h.requested (want q)
    have := hreq (want q)
    omega
  · funext m
    have := h.requested m
    have := hreq m
    show extra m = 0
    omega
  intro p
  refine Finset.eq_empty_iff_forall_notMem.2 fun m hm => ?_
  have hpos : 0 < holders e.holdMask m := holders_pos.2 ⟨p, hm⟩
  rw [← h.granted m] at hpos
  have := h.granted_le m
  have := hreq m
  omega

/-- Other `PROCLOCK`s do not matter, as long as the same processes hold the same modes and the
waiters are known. -/
theorem of_same {procLocks : List P}
    (hlock : e'.lock = { e.lock with procLocks := procLocks }) (hhold : e'.holdMask = e.holdMask)
    (hknown : ∀ q ∈ e.lock.waitProcs, (e'.proclock q).isSome = true) :
    Good conflicts want extra e' := by
  obtain ⟨lock', proclock'⟩ := e'
  subst hlock
  exact
    { granted := fun m => by rw [hhold]; exact h.granted m
      __ := h
      fresh := by rw [hhold]; exact h.fresh
      known := hknown
      exclusive := by rw [hhold]; exact h.exclusive }

/-- `LockCheckConflicts` finds out whether somebody else holds a mode that conflicts. -/
theorem checkConflicts_iff [DecidableEq P] : e.checkConflicts conflicts p mode = true
      ↔ ∀ q, q ≠ p → ∀ m ∈ e.holdMask q, m ∉ conflicts mode := by
  have hother : ∀ m, (m ∈ Finset.univ.filter fun i =>
      e.lock.granted i > if i ∈ e.holdMask p then 1 else 0) ↔ ∃ q, q ≠ p ∧ m ∈ e.holdMask q := by
    intro m
    rw [Finset.mem_filter, h.granted m, ← exists_other_holder]
    exact and_iff_right (Finset.mem_univ m)
  unfold checkConflicts
  split
  · rename_i hdisj
    refine iff_of_true rfl fun q _ m hm hmem => ?_
    have hpos : 0 < holders e.holdMask m := holders_pos.2 ⟨q, hm⟩
    rw [← h.granted m, ← h.grantMask m] at hpos
    exact Finset.disjoint_left.1 hdisj hmem hpos
  rw [decide_eq_true_iff, Finset.disjoint_left]
  constructor
  · intro hdisj q hq m hm hmem
    exact hdisj hmem ((hother m).2 ⟨q, hq, hm⟩)
  intro hall m hmem hm
  obtain ⟨q, hq, hhold⟩ := (hother m).1 hm
  exact hall q hq m hhold hmem

/-- Another order of the queue. -/
theorem reorder {order : List P} (hperm : order.Perm e.lock.waitProcs) :
    Good conflicts want extra { e with lock := { e.lock with waitProcs := order } } where
  __ := h
  requested := fun m => by rw [h.requested m, hperm.countP_eq]
  waited := fun q hq => h.waited q (hperm.mem_iff.1 hq)
  nodup := hperm.nodup_iff.2 h.nodup
  fresh := fun q hq => h.fresh q (hperm.mem_iff.1 hq)
  known := fun q hq => h.known q (hperm.mem_iff.1 hq)

theorem request (mode : Fin n) : Good conflicts want (extra + one mode) (e.request mode) where
  __ := h
  requested := by
    intro m
    have hreq := h.requested m
    show update e.lock.requested mode (e.lock.requested mode + 1) m
      = e.lock.granted m + e.lock.waitProcs.countP (fun q => want q = m) + (extra m + one mode m)
    rw [update_add_one, one_apply]
    omega
  nRequested := by
    show e.lock.nRequested + 1 = _
    rw [h.nRequested]
    exact (sum_add_one _ _).symm
  pending := by
    intro m hm
    have hlt := h.pending m hm
    show e.lock.granted m < update e.lock.requested mode (e.lock.requested mode + 1) m
    rw [update_add_one]
    exact Nat.lt_add_right _ hlt

end

section

variable (h : Good conflicts want (extra + one mode) e)
include h

/-- A process joins the queue with a request that is counted already. -/
theorem enqueue (hwant : want p = mode) {i : Nat}
    (hi : i ≤ e.lock.waitProcs.length) (hp : p ∉ e.lock.waitProcs) (hfresh : mode ∉ e.holdMask p)
    (hknown : (e.proclock p).isSome = true) :
    Good conflicts want extra (e.enqueue p mode i) := by
  have hperm : (e.lock.waitProcs.insertIdx i p).Perm (p :: e.lock.waitProcs) :=
    perm_insertIdx p _ hi
  have hmem : ∀ q, q ∈ e.lock.waitProcs.insertIdx i p → q = p ∨ q ∈ e.lock.waitProcs :=
    fun q hq => mem_cons.1 (hperm.mem_iff.1 hq)
  have hreq : ∀ m, e.lock.requested m = e.lock.granted m
      + (e.lock.waitProcs.insertIdx i p).countP (fun q => want q = m) + extra m := by
    intro m
    have hreq := h.requested m
    rw [Pi.add_apply, one_apply] at hreq
    rw [hperm.countP_eq, countP_cons, hwant]
    simp only [decide_eq_true_iff, eq_comm (a := mode)]
    omega
  exact
    { __ := h
      requested := hreq
      waited := by
        intro q hq
        rcases hmem q hq with rfl | hq
        · rw [hwant]
          exact mem_insert_self _ _
        · exact mem_insert_of_mem (h.waited q hq)
      pending := by
        intro m hm
        rcases mem_insert.1 hm with rfl | hm
        · have := h.requested m
          rw [Pi.add_apply, one_self] at this
          show e.lock.granted m < e.lock.requested m
          omega
        · exact h.pending m hm
      nodup := hperm.nodup_iff.2 (nodup_cons.2 ⟨hp, h.nodup⟩)
      fresh := by
        intro q hq
        rcases hmem q hq with rfl | hq
        · rw [hwant]
          exact hfresh
        · exact h.fresh q hq
      known := by
        intro q hq
        rcases hmem q hq with rfl | hq
        · exact hknown
        · exact h.known q hq }

/-- A counted request is given up. -/
theorem giveUp : Good conflicts want extra
      { e with lock :=
        { e.lock with
          nRequested := e.lock.nRequested - 1
          requested := update e.lock.requested mode (e.lock.requested mode - 1)
          waitMask :=
            if e.lock.granted mode = e.lock.requested mode - 1 then e.lock.waitMask.erase mode
            else e.lock.waitMask } } := by
  have hpos : 0 < e.lock.requested mode := by
    have := h.requested mode
    rw [Pi.add_apply, one_self] at this
    omega
  have hreq : ∀ m, update e.lock.requested mode (e.lock.requested mode - 1) m
      = e.lock.granted m + e.lock.waitProcs.countP (fun q => want q = m) + extra m := by
    intro m
    have hreq := h.requested m
    have hupd := update_sub_one hpos m
    rw [Pi.add_apply, one_apply] at hreq
    omega
  exact
    { __ := h
      requested := hreq
      nRequested := by
        have := sum_sub_one hpos
        have := h.nRequested
        show e.lock.nRequested - 1 = ∑ m, update e.lock.requested mode (e.lock.requested mode - 1) m
        omega
      waited := by
        intro q hq
        refine mem_ite_erase.2 ⟨h.waited q hq, fun hand => ?_⟩
        have hcount : 0 < e.lock.waitProcs.countP (fun q' => want q' = want q) :=
          countP_pos want q _ hq
        have hreq := hreq (want q)
        rw [hand.1, update_self] at hreq
        rw [hand.1] at hcount
        omega
      pending := by
        intro m hm
        obtain ⟨hm, hnot⟩ := mem_ite_erase.1 hm
        have hlt := h.pending m hm
        have hreq := hreq m
        show e.lock.granted m < update e.lock.requested mode (e.lock.requested mode - 1) m
        by_cases hmm : m = mode
        · subst hmm
          rw [update_self] at hreq ⊢
          omega
        · rw [update_of_ne hmm]
          exact hlt }

end

end

section Operations

variable [Fintype P] [DecidableEq P] {conflicts : Fin n → Finset (Fin n)} {want : P → Fin n}
  {extra : Fin n → Nat} {e : Entry P n} {p : P} {mode : Fin n}

section

variable (h : Good conflicts want extra e)
include h

theorem enter (p : P) : Good conflicts want extra (e.enter p) := by
  cases hp : e.proclock p with
  | some proclock =>
    have hsame : e.enter p = e := by rw [Entry.enter, hp]
    rw [hsame]
    exact h
  | none =>
    have hlock : (e.enter p).lock = { e.lock with procLocks := e.lock.procLocks ++ [p] } := by
      rw [Entry.enter, hp]
    refine h.of_same hlock Entry.enter_holdMask ?_
    · intro q hq
      by_cases hqp : q = p
      · subst hqp
        exact Entry.enter_isSome
      · rw [Entry.enter_proclock_of_ne hqp]
        exact h.known q hq

theorem forget (hempty : e.holdMask p = ∅) (hp : p ∉ e.lock.waitProcs) :
    Good conflicts want extra (e.forget p) := by
  refine h.of_same rfl (forget_holdMask hempty) fun q hq => ?_
  have hqp : q ≠ p := fun heq => hp (heq ▸ hq)
  have hsame : (e.forget p).proclock q = e.proclock q := update_of_ne hqp _ _
  rw [hsame]
  exact h.known q hq

theorem modifyProcLock (hf : ∀ proclock, (f proclock).holdMask = proclock.holdMask) :
    Good conflicts want extra (e.modifyProcLock p f) := by
  refine h.of_same rfl (modifyProcLock_holdMask hf) fun q hq => ?_
  by_cases hqp : q = p
  · subst hqp
    rw [modifyProcLock_self, isSome_map]
    exact h.known q hq
  · rw [modifyProcLock_of_ne hqp]
    exact h.known q hq

/-- A waiter that leaves the queue leaves its request behind. -/
theorem dequeue (hp : p ∈ e.lock.waitProcs) :
    Good conflicts want (extra + one (want p)) (e.dequeue p) where
  __ := h
  requested := by
    intro m
    have hreq := h.requested m
    have hcount := (perm_cons_erase hp).countP_eq (fun q => decide (want q = m))
    rw [countP_cons] at hcount
    show e.lock.requested m = e.lock.granted m
      + (e.lock.waitProcs.erase p).countP (fun q => want q = m) + (extra m + one (want p) m)
    simp only [decide_eq_true_iff, eq_comm (a := want p)] at hcount
    rw [one_apply]
    omega
  waited := fun q hq => h.waited q (mem_of_mem_erase hq)
  nodup := h.nodup.erase p
  fresh := fun q hq => h.fresh q (mem_of_mem_erase hq)
  known := fun q hq => h.known q (mem_of_mem_erase hq)

end

/-- A counted request is granted. -/
theorem grantLock (h : Good conflicts want (extra + one mode) e)
    (hsymm : ∀ i j, j ∈ conflicts i → i ∈ conflicts j) (hp : p ∉ e.lock.waitProcs)
    (hfresh : mode ∉ e.holdMask p) (hknown : (e.proclock p).isSome = true)
    (hfree : e.checkConflicts conflicts p mode = true) :
    Good conflicts want extra (e.grantLock p mode) := by
  have hhold : (e.grantLock p mode).holdMask = update e.holdMask p (insert mode (e.holdMask p)) :=
    grantLock_holdMask hknown
  have hother : ∀ {q}, q ≠ p → (e.grantLock p mode).holdMask q = e.holdMask q := by
    intro q hq
    rw [hhold, update_of_ne hq]
  have hself : (e.grantLock p mode).holdMask p = insert mode (e.holdMask p) := by
    rw [hhold, update_self]
  have hfree := h.checkConflicts_iff.1 hfree
  have hgranted : ∀ m, (e.grantLock p mode).lock.granted m
      = e.lock.granted m + if m = mode then 1 else 0 := by
    intro m
    exact update_add_one _ _ _
  have hreq : ∀ m, e.lock.requested m = e.lock.granted m + (if m = mode then 1 else 0)
      + e.lock.waitProcs.countP (fun q => want q = m) + extra m := by
    intro m
    have hreq := h.requested m
    rw [Pi.add_apply, one_apply] at hreq
    omega
  exact
    { granted := by
        intro m
        rw [hgranted, hhold, holders_insert hfresh, h.granted]
      requested := by
        intro m
        rw [hgranted]
        exact hreq m
      nGranted := by
        show e.lock.nGranted + 1 = _
        rw [h.nGranted]
        exact (sum_add_one _ _).symm
      __ := h
      grantMask := by
        intro m
        rw [hgranted]
        show m ∈ insert mode e.lock.grantMask ↔ _
        rw [mem_insert, h.grantMask m]
        split <;> omega
      waited := by
        intro q hq
        refine mem_ite_erase.2 ⟨h.waited q hq, fun hand => ?_⟩
        have hpos : 0 < e.lock.waitProcs.countP (fun q' => want q' = want q) :=
          countP_pos want q _ hq
        have hreq := hreq (want q)
        rw [if_pos hand.1] at hreq
        have heq := hand.2
        rw [← hand.1] at heq
        omega
      pending := by
        intro m hm
        obtain ⟨hm, hnot⟩ := mem_ite_erase.1 hm
        have hlt := h.pending m hm
        have hreq := hreq m
        rw [hgranted]
        show _ < e.lock.requested m
        by_cases hmm : m = mode
        · subst hmm
          rw [if_pos rfl] at hreq ⊢
          omega
        · rw [if_neg hmm]
          omega
      fresh := by
        intro q hq
        have hqp : q ≠ p := fun heq => hp (heq ▸ hq)
        rw [hother hqp]
        exact h.fresh q hq
      known := by
        intro q hq
        have hqp : q ≠ p := fun heq => hp (heq ▸ hq)
        have hsame : (e.grantLock p mode).proclock q = e.proclock q := modifyProcLock_of_ne hqp
        rw [hsame]
        exact h.known q hq
      exclusive := by
        intro p₁ p₂ hne m₁ hm₁ m₂ hm₂
        by_cases h₁ : p₁ = p
        · subst h₁
          rw [hother hne.symm] at hm₂
          rw [hself] at hm₁
          rcases mem_insert.1 hm₁ with rfl | hm₁
          · exact hfree p₂ hne.symm m₂ hm₂
          · exact h.exclusive p₁ p₂ hne m₁ hm₁ m₂ hm₂
        rw [hother h₁] at hm₁
        by_cases h₂ : p₂ = p
        · subst h₂
          rw [hself] at hm₂
          rcases mem_insert.1 hm₂ with rfl | hm₂
          · exact fun hmem => hfree p₁ h₁ m₁ hm₁ (hsymm _ _ hmem)
          · exact h.exclusive p₁ p₂ hne m₁ hm₁ m₂ hm₂
        · rw [hother h₂] at hm₂
          exact h.exclusive p₁ p₂ hne m₁ hm₁ m₂ hm₂ }

section

variable (h : Good conflicts want extra e)
include h

theorem leave (hp : p ∈ e.lock.waitProcs) : Good conflicts want extra (e.leave p (want p)) :=
  (h.dequeue hp).giveUp

theorem grantWaiter (hsymm : ∀ i j, j ∈ conflicts i → i ∈ conflicts j) (hp : p ∈ e.lock.waitProcs)
    (hfree : e.checkConflicts conflicts p (want p) = true) :
    Good conflicts want extra ((e.grantLock p (want p)).dequeue p) := by
  have hgone : p ∉ (e.dequeue p).lock.waitProcs := h.nodup.not_mem_erase
  exact (h.dequeue hp).grantLock hsymm hgone (h.fresh p hp) (h.known p hp) hfree

theorem unGrantLock (hheld : mode ∈ e.holdMask p) :
    Good conflicts want extra (e.unGrantLock p mode) := by
  have hhold : (e.unGrantLock p mode).holdMask
      = update e.holdMask p ((e.holdMask p).erase mode) := Entry.unGrantLock_holdMask
  have hsub : ∀ q, (e.unGrantLock p mode).holdMask q ⊆ e.holdMask q := by
    intro q
    rw [hhold]
    by_cases hq : q = p
    · subst hq
      rw [update_self]
      exact erase_subset _ _
    · rw [update_of_ne hq]
  have hpos : 0 < e.lock.granted mode := by
    rw [h.granted]
    exact holders_pos.2 ⟨p, hheld⟩
  have hle := h.granted_le mode
  have hgranted : ∀ m, (e.unGrantLock p mode).lock.granted m + (if m = mode then 1 else 0)
      = e.lock.granted m := update_sub_one hpos
  have hrequested : ∀ m, (e.unGrantLock p mode).lock.requested m + (if m = mode then 1 else 0)
      = e.lock.requested m := update_sub_one (lt_of_lt_of_le hpos hle)
  exact
    { granted := by
        intro m
        have := hgranted m
        have := holders_erase hheld m
        have := h.granted m
        rw [hhold]
        omega
      requested := by
        intro m
        have := hgranted m
        have := hrequested m
        have := h.requested m
        show _ = _ + e.lock.waitProcs.countP (fun q => want q = m) + extra m
        omega
      nGranted := by
        have := sum_sub_one hpos
        have := h.nGranted
        show e.lock.nGranted - 1 = ∑ m, update e.lock.granted mode (e.lock.granted mode - 1) m
        omega
      nRequested := by
        have := sum_sub_one (lt_of_lt_of_le hpos hle)
        have := h.nRequested
        show e.lock.nRequested - 1 = ∑ m, update e.lock.requested mode (e.lock.requested mode - 1) m
        omega
      grantMask := by
        intro m
        have hm := hgranted m
        have hmask := h.grantMask m
        refine mem_ite_erase.trans ?_
        rw [hmask]
        by_cases hmm : m = mode
        · subst hmm
          rw [if_pos rfl] at hm
          omega
        · rw [if_neg hmm] at hm
          omega
      __ := h
      pending := by
        intro m hm
        have := hgranted m
        have := hrequested m
        have := h.pending m hm
        omega
      fresh := fun q hq hmem => h.fresh q hq (hsub q hmem)
      known := by
        intro q hq
        show ((Entry.modifyProcLock _ p _).proclock q).isSome = true
        by_cases hqp : q = p
        · subst hqp
          rw [Entry.modifyProcLock_self, isSome_map]
          exact h.known q hq
        · rw [Entry.modifyProcLock_of_ne hqp]
          exact h.known q hq
      exclusive := fun p₁ p₂ hne m₁ hm₁ m₂ hm₂ =>
        h.exclusive p₁ p₂ hne m₁ (hsub p₁ hm₁) m₂ (hsub p₂ hm₂) }

end

end Operations

end Good

end PrlPg.Locks
