/-
Who is awakened.

A waiter is `Blocked` if what it wants conflicts with what somebody else holds or with what
somebody ahead of it wants, and a queue is `Settled` if every waiter is blocked.  The scan of
`ProcLockWakeup` leaves a settled queue behind, whatever the queue was before: a waiter that
it passes over is blocked, and stays so, since the scan only grants modes and the waiters it
has passed over keep their places.
-/
import PrlPg.Proofs.LockEntry

namespace PrlPg.Locks

open List Function Entry

variable {P Tag : Type*} {n : Nat}
variable {queue ahead : List P} {hold' : P → Finset (Fin n)}

section Blocked

variable (conflicts : Fin n → Finset (Fin n)) (want : P → Fin n) (hold : P → Finset (Fin n))

/-- The request of a waiter conflicts with a mode that another process holds or with the
request of one of those ahead of it. -/
def Blocked (ahead : List P) (p : P) : Prop :=
  (∃ q, q ≠ p ∧ ∃ m ∈ hold q, m ∈ conflicts (want p)) ∨ ∃ q ∈ ahead, want q ∈ conflicts (want p)

/-- Every waiter of a queue is blocked. -/
def Settled (queue : List P) : Prop :=
  ∀ ahead p behind, queue = ahead ++ p :: behind → Blocked conflicts want hold ahead p

/-- Every waiter of the rest of a queue is blocked. -/
def SettledBehind (ahead : List P) : List P → Prop
  | [] => True
  | p :: rest => Blocked conflicts want hold ahead p ∧ SettledBehind (ahead ++ [p]) rest

end Blocked

section Settled

variable {conflicts : Fin n → Finset (Fin n)} {want : P → Fin n} {hold : P → Finset (Fin n)}
  {ahead' : List P}

theorem Blocked.mono {p : P} (h : Blocked conflicts want hold ahead p)
    (hhold : ∀ q, hold q ⊆ hold' q) (hahead : ahead ⊆ ahead') :
    Blocked conflicts want hold' ahead' p := by
  rcases h with ⟨q, hq, m, hm, hmem⟩ | ⟨q, hq, hmem⟩
  · exact .inl ⟨q, hq, m, hhold q hm, hmem⟩
  · exact .inr ⟨q, hahead hq, hmem⟩

theorem settledBehind_iff : SettledBehind conflicts want hold ahead queue
      ↔ ∀ l p behind, queue = l ++ p :: behind → Blocked conflicts want hold (ahead ++ l) p := by
  induction queue generalizing ahead with
  | nil =>
    refine iff_of_true trivial fun l p behind h => ?_
    exact absurd h.symm (append_ne_nil_of_right_ne_nil l (cons_ne_nil p behind))
  | cons first rest ih =>
    rw [SettledBehind, ih]
    constructor
    · rintro ⟨hfirst, hrest⟩ l p behind h
      cases l with
      | nil =>
        obtain ⟨rfl, rfl⟩ := cons.inj h
        rw [append_nil]
        exact hfirst
      | cons x l =>
        obtain ⟨rfl, htail⟩ := cons.inj h
        have := hrest l p behind htail
        rwa [append_assoc] at this
    intro h
    refine ⟨?_, fun l p behind htail => ?_⟩
    · have := h [] first rest rfl
      rwa [append_nil] at this
    · rw [append_assoc]
      exact h (first :: l) p behind (by rw [htail]; rfl)

theorem settled_iff :
    Settled conflicts want hold queue ↔ SettledBehind conflicts want hold [] queue := by
  rw [settledBehind_iff]
  rfl

theorem settledBehind_append {l l' : List P} : SettledBehind conflicts want hold ahead (l ++ l')
      ↔ SettledBehind conflicts want hold ahead l ∧
        SettledBehind conflicts want hold (ahead ++ l) l' := by
  induction l generalizing ahead with
  | nil => simp [SettledBehind]
  | cons p l ih =>
    rw [cons_append, SettledBehind, SettledBehind, ih, and_assoc, append_assoc]
    rfl

theorem SettledBehind.mono (h : SettledBehind conflicts want hold ahead queue)
    (hhold : ∀ q, hold q ⊆ hold' q) (hahead : ahead ⊆ ahead') :
    SettledBehind conflicts want hold' ahead' queue := by
  induction queue generalizing ahead ahead' with
  | nil => exact trivial
  | cons p rest ih =>
    refine ⟨h.1.mono hhold hahead, ih h.2 (append_subset.2 ⟨?_, ?_⟩)⟩
    · exact Subset.trans hahead (subset_append_left _ _)
    · exact subset_append_right _ _

theorem Settled.mono (h : Settled conflicts want hold queue) (hhold : ∀ q, hold q ⊆ hold' q) :
    Settled conflicts want hold' queue :=
  fun ahead p behind heq => (h ahead p behind heq).mono hhold (Subset.refl _)

/-- A process that joins the queue at a place where it is blocked. -/
theorem Settled.insert {behind : List P} {p : P}
    (h : Settled conflicts want hold (ahead ++ behind)) (hp : Blocked conflicts want hold ahead p) :
    Settled conflicts want hold (ahead ++ p :: behind) := by
  rw [settled_iff, settledBehind_append] at h ⊢
  refine ⟨h.1, hp, h.2.mono (fun _ => Finset.Subset.refl _) ?_⟩
  exact subset_append_left _ _

theorem insertIdx_eq_take_append (p : P) {i : Nat} (hi : i ≤ queue.length) :
    queue.insertIdx i p = queue.take i ++ p :: queue.drop i := by
  induction i generalizing queue with
  | zero => simp
  | succ i ih =>
    cases queue with
    | nil => exact absurd hi (Nat.not_succ_le_zero i)
    | cons q queue =>
      rw [insertIdx_succ_cons, ih (Nat.le_of_succ_le_succ hi)]
      rfl

/-- `Settled` reads what the waiters want. -/
theorem Settled.congr {want' : P → Fin n} (h : Settled conflicts want hold queue)
    (hwant : ∀ q ∈ queue, want' q = want q) : Settled conflicts want' hold queue := by
  intro ahead p behind heq
  have hmem : ∀ q, q ∈ ahead ∨ q = p → q ∈ queue := by
    rintro q (hq | rfl)
    · rw [heq]
      exact mem_append_left _ hq
    · rw [heq]
      exact mem_append_right _ (.head _)
  have hp : want' p = want p := hwant p (hmem p (.inr rfl))
  rcases h ahead p behind heq with hheld | ⟨q, hq, hconf⟩
  · refine .inl ?_
    rw [hp]
    exact hheld
  refine .inr ⟨q, hq, ?_⟩
  rw [hp, hwant q (hmem q (.inl hq))]
  exact hconf

/-- Giving up a mode that no waiter's request conflicts with leaves everybody blocked. -/
theorem Settled.of_release [DecidableEq P] {p : P} {mode : Fin n}
    (h : Settled conflicts want hold queue) (hmode : ∀ q ∈ queue, mode ∉ conflicts (want q)) :
    Settled conflicts want (update hold p ((hold p).erase mode)) queue := by
  intro ahead q behind heq
  rcases h ahead q behind heq with ⟨q', hq', m, hm, hconf⟩ | hahead
  swap
  · exact .inr hahead
  refine .inl ⟨q', hq', m, ?_, hconf⟩
  by_cases hp : q' = p
  swap
  · rwa [update_of_ne hp]
  subst hp
  rw [update_self]
  refine Finset.mem_erase.2 ⟨?_, hm⟩
  rintro rfl
  have hq : q ∈ queue := by
    rw [heq]
    exact mem_append_right _ (.head _)
  exact hmode q hq hconf

end Settled

/-! ### The scan -/

/-- What `ProcLockWakeup` does to an object. -/
structure Woke (want : P → Fin n) (e e' : Entry P n) (woken : List P) : Prop where
  sub : ∀ q ∈ woken, q ∈ e.lock.waitProcs
  queue : ∀ q, q ∈ e'.lock.waitProcs ↔ q ∈ e.lock.waitProcs ∧ q ∉ woken
  same : ∀ q, q ∉ woken → e'.proclock q = e.proclock q
  given : ∀ q ∈ woken, e'.proclock q = (e.proclock q).map fun proclock =>
      { proclock with holdMask := insert (want q) proclock.holdMask }
  nRequested : e'.lock.nRequested = e.lock.nRequested
  procLocks : e'.lock.procLocks = e.lock.procLocks

namespace Woke

variable {want : P → Fin n} {e e' : Entry P n} {woken : List P} {p : P}

theorem refl (want : P → Fin n) (e : Entry P n) : Woke want e e [] where
  sub := fun _ h => absurd h not_mem_nil
  queue := fun _ => (and_iff_left not_mem_nil).symm
  same := fun _ _ => rfl
  given := fun _ h => absurd h not_mem_nil
  nRequested := rfl
  procLocks := rfl

/-- One waiter is awakened, and then the others. -/
theorem cons [DecidableEq P] (hp : p ∈ e.lock.waitProcs) (hnodup : e.lock.waitProcs.Nodup)
    (h : Woke want ((e.grantLock p (want p)).dequeue p) e' woken) :
    Woke want e e' (p :: woken) := by
  have hmem : ∀ q, q ∈ ((e.grantLock p (want p)).dequeue p).lock.waitProcs
      ↔ q ≠ p ∧ q ∈ e.lock.waitProcs := fun q => hnodup.mem_erase_iff
  have hother : ∀ q, q ≠ p → ((e.grantLock p (want p)).dequeue p).proclock q = e.proclock q :=
    fun q hq => modifyProcLock_of_ne hq
  have hfirst : ((e.grantLock p (want p)).dequeue p).proclock p = (e.proclock p).map fun proclock =>
        { proclock with holdMask := insert (want p) proclock.holdMask } :=
    modifyProcLock_self
  have hnot : p ∉ woken := fun hmem' => ((hmem p).1 (h.sub p hmem')).1 rfl
  refine ⟨?_, ?_, ?_, ?_, h.nRequested, h.procLocks⟩
  · intro q hq
    rcases mem_cons.1 hq with rfl | hq
    · exact hp
    · exact ((hmem q).1 (h.sub q hq)).2
  · intro q
    rw [h.queue, hmem, mem_cons]
    tauto
  · intro q hq
    rw [mem_cons, not_or] at hq
    rw [h.same q hq.2, hother q hq.1]
  intro q hq
  rcases mem_cons.1 hq with rfl | hq
  · rw [h.same q hnot, hfirst]
  · have hqp : q ≠ p := fun heq => hnot (heq ▸ hq)
    rw [h.given q hq, hother q hqp]

end Woke

variable [DecidableEq P] [Fintype P] {conflicts : Fin n → Finset (Fin n)} {want : P → Fin n}
  {extra : Fin n → Nat}
variable {aheadRequests : Finset (Fin n)}

section

variable {e : Entry P n} (hsymm : ∀ i j, j ∈ conflicts i → i ∈ conflicts j)
  (h : Good conflicts want extra e)
include hsymm h

/-- The scan, when it has passed over the waiters `kept`. -/
theorem Good.wakeup {rest kept : List P} (hqueue : e.lock.waitProcs = kept ++ rest)
    (hahead : ∀ m, m ∈ aheadRequests ↔ ∃ q ∈ kept, want q = m)
    (hkept : SettledBehind conflicts want e.holdMask [] kept) :
    Good conflicts want extra (wakeup conflicts want rest aheadRequests e).1 ∧
      Settled conflicts want (wakeup conflicts want rest aheadRequests e).1.holdMask
        (wakeup conflicts want rest aheadRequests e).1.lock.waitProcs ∧
      Woke want e (wakeup conflicts want rest aheadRequests e).1
        (wakeup conflicts want rest aheadRequests e).2 := by
  induction rest generalizing kept aheadRequests e with
  | nil =>
    rw [append_nil] at hqueue
    refine ⟨h, ?_, Woke.refl want e⟩
    rw [settled_iff]
    show SettledBehind conflicts want e.holdMask [] e.lock.waitProcs
    rw [hqueue]
    exact hkept
  | cons p rest ih =>
    have hp : p ∈ e.lock.waitProcs := by
      rw [hqueue]
      exact mem_append_right _ (.head _)
    unfold wakeup
    split
    · rename_i hgo
      have hgrant := h.grantWaiter hsymm hp hgo.2
      have hpkept : p ∉ kept := by
        have hnodup := h.nodup
        rw [hqueue] at hnodup
        exact fun hmem => disjoint_of_nodup_append hnodup hmem (.head _)
      have hqueue' : ((e.grantLock p (want p)).dequeue p).lock.waitProcs = kept ++ rest := by
        show e.lock.waitProcs.erase p = kept ++ rest
        rw [hqueue, erase_append_right _ hpkept, erase_cons_head]
      have hhold : ∀ q, e.holdMask q ⊆ ((e.grantLock p (want p)).dequeue p).holdMask q := by
        intro q
        rw [dequeue_holdMask, grantLock_holdMask (h.known p hp)]
        by_cases hq : q = p
        · subst hq
          rw [update_self]
          exact Finset.subset_insert _ _
        · rw [update_of_ne hq]
      obtain ⟨hgood, hsettled, hwoke⟩ := ih hgrant hqueue' hahead (hkept.mono hhold (Subset.refl _))
      exact ⟨hgood, hsettled, hwoke.cons hp h.nodup⟩
    rename_i hstay
    have hblocked : Blocked conflicts want e.holdMask kept p := by
      by_cases hdisj : Disjoint (conflicts (want p)) aheadRequests
      · have hcheck : ¬ e.checkConflicts conflicts p (want p) = true :=
          fun hcheck => hstay ⟨hdisj, hcheck⟩
        rw [h.checkConflicts_iff] at hcheck
        push Not at hcheck
        exact .inl hcheck
      obtain ⟨m, hm, hmem⟩ := Finset.not_disjoint_iff.1 hdisj
      obtain ⟨q, hq, rfl⟩ := (hahead m).1 hmem
      exact .inr ⟨q, hq, hm⟩
    have hqueue' : e.lock.waitProcs = (kept ++ [p]) ++ rest := by
      rw [hqueue, append_assoc]
      rfl
    refine ih h hqueue' ?_ ?_
    swap
    · rw [settledBehind_append]
      exact ⟨hkept, hblocked, trivial⟩
    intro m
    rw [Finset.mem_insert, hahead]
    constructor
    · rintro (rfl | ⟨q, hq, hm⟩)
      · exact ⟨p, mem_append_right _ (.head _), rfl⟩
      · exact ⟨q, mem_append_left _ hq, hm⟩
    rintro ⟨q, hq, hm⟩
    rcases mem_append.1 hq with hq | hq
    · exact .inr ⟨q, hq, hm⟩
    · rw [mem_singleton.1 hq] at hm
      exact .inl hm.symm

theorem Good.procLockWakeup : Good conflicts want extra (e.procLockWakeup conflicts want).1 ∧
      Settled conflicts want (e.procLockWakeup conflicts want).1.holdMask
        (e.procLockWakeup conflicts want).1.lock.waitProcs ∧
      Woke want e (e.procLockWakeup conflicts want).1 (e.procLockWakeup conflicts want).2 := by
  have hqueue : e.lock.waitProcs = [] ++ e.lock.waitProcs := rfl
  refine h.wakeup hsymm hqueue (fun m => ?_) trivial
  refine iff_of_false (Finset.notMem_empty m) ?_
  rintro ⟨q, hq, -⟩
  cases hq

end

/-! ### Where a process joins the queue -/

section Place

omit [DecidableEq P] [Fintype P]

variable {proc : P → PGPROC Tag n} {mode : Fin n} {held : Finset (Fin n)} {unopposed : Bool}

theorem findPlace_grant
    (h : findPlace conflicts proc mode held unopposed aheadRequests queue = .grant) :
    unopposed = true := by
  induction queue generalizing aheadRequests with
  | nil => cases h
  | cons q rest ih =>
    unfold findPlace at h
    split at h
    · split at h
      · cases h
      split at h
      · rename_i hgo
        exact hgo.2
      · cases h
    split at h
    · rename_i hrest
      exact ih hrest
    · cases h

/-- A process goes to the end of the queue or in front of a waiter, where something ahead of
it or something that is held keeps it from having the lock. -/
theorem findPlace_behind {i : Nat} {earlyDeadlock : Bool}
    (h : findPlace conflicts proc mode held unopposed aheadRequests queue
      = .behind i earlyDeadlock) :
    i ≤ queue.length ∧ (earlyDeadlock = true ∨ i = queue.length ∨ unopposed = false ∨
      (¬ Disjoint (conflicts mode) aheadRequests ∨
        ∃ q ∈ queue.take i, (proc q).waitLockMode ∈ conflicts mode)) := by
  induction queue generalizing aheadRequests i with
  | nil =>
    injection h with hi _
    subst hi
    exact ⟨le_rfl, .inr (.inl rfl)⟩
  | cons q rest ih =>
    unfold findPlace at h
    split at h
    · refine ⟨?_, ?_⟩
      · split at h
        · injection h with hi _
          omega
        split at h
        · cases h
        · injection h with hi _
          omega
      split at h
      · injection h with _ hearly
        exact .inl hearly.symm
      split at h
      · cases h
      rename_i hstay
      by_cases hdisj : Disjoint (conflicts mode) aheadRequests
      · refine .inr (.inr (.inl ?_))
        exact Bool.eq_false_iff.2 fun htrue => hstay ⟨hdisj, htrue⟩
      · exact .inr (.inr (.inr (.inl hdisj)))
    split at h
    · cases h
    rename_i j early hrest
    injection h with hi hearly
    subst hi hearly
    obtain ⟨hle, hcases⟩ := ih hrest
    refine ⟨Nat.succ_le_succ hle, ?_⟩
    rcases hcases with hearly | hend | hopp | hahead | ⟨q', hq', hconf⟩
    · exact .inl hearly
    · exact .inr (.inl (congrArg (· + 1) hend))
    · exact .inr (.inr (.inl hopp))
    · obtain ⟨m, hm, hmem⟩ := Finset.not_disjoint_iff.1 hahead
      rcases Finset.mem_insert.1 hmem with rfl | hmem
      · exact .inr (.inr (.inr (.inr ⟨q, .head _, hm⟩)))
      · exact .inr (.inr (.inr (.inl (Finset.not_disjoint_iff.2 ⟨m, hm, hmem⟩))))
    · exact .inr (.inr (.inr (.inr ⟨q', .tail _ hq', hconf⟩)))

end Place

end PrlPg.Locks
