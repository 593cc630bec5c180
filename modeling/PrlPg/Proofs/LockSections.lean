/-
What is done under a partition lock keeps the invariant of the lock table.

A section works on one object.  The releasing ones end in `CleanUpLock`, which drops the
`PROCLOCK` and the object if they are no longer needed and otherwise may awaken waiters;
`cleaned` says what it leaves, and `Inv.cleanUp` derives the invariant from that once for all
of them.
-/
import PrlPg.Proofs.LockTable

namespace PrlPg.Locks

open Function List Option State Entry Bool Finset

variable {P Tag M Owner : Type*} {n : Nat} {c : LockMethods Tag M n}
  {s s₀ : State P Tag M Owner n} {p : P} {tag : Tag} {extra : Tag → Fin n → Nat}

/-! ### Storing an object -/

section Put

variable [DecidableEq P] [DecidableEq Tag] {lock' : Option (LOCK P n)}
  {proclock' : P → Option (PROCLOCK n)} {woken : List P}

theorem put_lock : (s.put tag lock' proclock' woken).lock tag = lock' := update_self _ _ _

theorem put_proclock : (s.put tag lock' proclock' woken).proclock tag = proclock' :=
  update_self _ _ _

theorem put_want : (s.put tag lock' proclock' woken).want = s.want := by
  funext q
  simp only [want, put]
  split
  · rfl
  · rfl

theorem put_waitLock (q : P) (t : Tag) :
    ((s.put tag lock' proclock' woken).proc q).waitLock = some t
      ↔ (s.proc q).waitLock = some t ∧ q ∉ woken := by
  unfold put
  dsimp only
  split
  · rename_i hmem
    exact iff_of_false (some_ne_none _).symm fun hand => hand.2 hmem
  · rename_i hnot
    exact (and_iff_left hnot).symm

theorem settledAt_put {lock : LOCK P n} :
    SettledAt c (s.put tag (some lock) proclock' woken) tag ↔ Settled (c.conflicts tag) s.want
      (holdMask { lock := lock, proclock := proclock' }) lock.waitProcs := by
  have hhold : (s.put tag (some lock) proclock' woken).hold tag
      = holdMask { lock := lock, proclock := proclock' } := by
    funext q
    rw [hold, put_proclock]
    rfl
  rw [SettledAt, queue_of_some put_lock, hhold, put_want]

end Put

/-! ### Changes to one process -/

/-- At most what belongs to the process `p` alone was changed. -/
structure Own (s₀ s : State P Tag M Owner n) (p : P) : Prop where
  lock : s.lock = s₀.lock
  proclock : s.proclock = s₀.proclock
  proc : ∀ q, q ≠ p → s.proc q = s₀.proc q
  locallock : ∀ q, q ≠ p → s.locallock q = s₀.locallock q
  stage : ∀ q, q ≠ p → s.stage q = s₀.stage q
  myProcLocks : ∀ q, q ≠ p → s.myProcLocks q = s₀.myProcLocks q

theorem Own.refl (s : State P Tag M Owner n) (p : P) : Own s s p :=
  ⟨rfl, rfl, fun _ _ => rfl, fun _ _ => rfl, fun _ _ => rfl, fun _ _ => rfl⟩

/-- An object that is as it was, with the same waiters. -/
theorem Object.congr [Fintype P] (h : Object c extra s₀ tag) (hlock : s.lock tag = s₀.lock tag)
    (hproclock : s.proclock tag = s₀.proclock tag) (hproc : s.proc = s₀.proc) :
    Object c extra s tag := by
  have hwant : s.want = s₀.want := by
    funext q
    rw [want, want, hproc]
  refine ⟨?_, ?_, ?_, ?_, ?_⟩
  · rw [hlock, hproclock, hwant]
    exact h.good
  · rw [hlock]
    exact h.live
  · rw [hlock, hproclock]
    exact h.absent
  · rw [queue_congr hlock, hproc]
    exact h.queued
  intro q hq
  rw [hproclock] at hq
  rw [hold_congr (congrFun hproclock q), hproc]
  exact h.needed q hq

theorem SettledAt.congr (h : SettledAt c s₀ tag) (hlock : s.lock tag = s₀.lock tag)
    (hproclock : s.proclock tag = s₀.proclock tag) (hproc : s.proc = s₀.proc) :
    SettledAt c s tag := by
  have hwant : s.want = s₀.want := by
    funext q
    rw [want, want, hproc]
  have hhold : s.hold tag = s₀.hold tag := by
    funext q
    exact hold_congr (congrFun hproclock q)
  unfold SettledAt
  rw [queue_congr hlock, hhold, hwant]
  exact h

namespace Own

theorem proc_eq (h : Own s₀ s p) (hproc : s.proc p = s₀.proc p) : s.proc = s₀.proc := by
  funext q
  by_cases hq : q = p
  · subst hq
    exact hproc
  · exact h.proc q hq

/-- A change to the local table or the place of a process. -/
theorem inv [Fintype P] (h : Own s₀ s p) (hs : Inv c extra s₀) (hproc : s.proc p = s₀.proc p)
    (hlist : s.myProcLocks p = s₀.myProcLocks p) (hstatus : Status c s p) : Inv c extra s where
  object := fun t => (hs.object t).congr (congrFun h.lock t) (congrFun h.proclock t)
    (h.proc_eq hproc)
  status := by
    intro q
    by_cases hq : q = p
    · subst hq
      exact hstatus
    · exact (hs.status q).congr (fun t => by rw [h.proclock]) (h.locallock q hq) (h.proc q hq)
        (h.stage q hq)
  listed := by
    intro q
    have hlist' : s.myProcLocks q = s₀.myProcLocks q := by
      by_cases hq : q = p
      · subst hq
        exact hlist
      · exact h.myProcLocks q hq
    refine ⟨?_, ?_⟩
    · rw [hlist', h.proclock]
      exact (hs.listed q).mem
    · rw [hlist']
      exact (hs.listed q).nodup

theorem settledAt (h : Own s₀ s p) (hproc : s.proc p = s₀.proc p) (hs : SettledAt c s₀ tag) :
    SettledAt c s tag :=
  hs.congr (congrFun h.lock tag) (congrFun h.proclock tag) (h.proc_eq hproc)

variable [DecidableEq P]

theorem setStage (h : Own s₀ s p) (stage : Stage Tag M Owner n) : Own s₀ (s.setStage p stage) p :=
  { h with
    stage := fun q hq => by
      rw [← h.stage q hq]
      exact update_of_ne hq _ _ }

theorem setProc (h : Own s₀ s p) (proc : PGPROC Tag n) : Own s₀ (s.setProc p proc) p :=
  { h with
    proc := fun q hq => by
      rw [← h.proc q hq]
      exact update_of_ne hq _ _ }

theorem setMyProcLocks (h : Own s₀ s p) (tags : List Tag) : Own s₀ (s.setMyProcLocks p tags) p :=
  { h with
    myProcLocks := fun q hq => by
      rw [← h.myProcLocks q hq]
      exact update_of_ne hq _ _ }

variable [DecidableEq Tag]

theorem setLocal (h : Own s₀ s p) (t : Tag) (mode : Fin n) (locallock : LOCALLOCK Owner) :
    Own s₀ (s.setLocal p t mode locallock) p :=
  { h with
    locallock := fun q hq => by
      rw [← h.locallock q hq]
      exact update_of_ne hq _ _ }

/-- Storing an object after changes to one process touches just these. -/
theorem put (h : Own s₀ s p) {lock' : Option (LOCK P n)} {proclock' : P → Option (PROCLOCK n)}
    {woken : List P} (hbefore : ∀ t, (s₀.proc p).waitLock = some t → t = tag)
    (hafter : ∀ t, (s.proc p).waitLock = some t → t = tag) (hp : p ∉ woken)
    (hsame : ∀ q, q ≠ p → q ∉ woken → proclock' q = s₀.proclock tag q)
    (hwoken : ∀ q ∈ woken, (s₀.proc q).waitLock = some tag ∧
      ∃ proclock, s₀.proclock tag q = some proclock ∧ proclock' q
        = some { proclock with holdMask := insert (s₀.want q) proclock.holdMask }) :
    Touches s₀ (s.put tag lock' proclock' woken) p tag woken := by
  have hproc : (s.put tag lock' proclock' woken).proc p = s.proc p := if_neg hp
  refine ⟨?_, ?_, ?_, ?_, ?_, ?_⟩
  · intro t ht
    rw [← h.lock]
    exact update_of_ne ht _ _
  · intro t ht
    rw [← h.proclock]
    exact update_of_ne ht _ _
  · intro t ht
    rw [hproc]
    exact iff_of_false (fun heq => ht (hafter t heq)) fun heq => ht (hbefore t heq)
  · intro t ht heq
    exact absurd (hbefore t heq) ht
  · intro q hq hnot
    refine ⟨?_, ?_, h.locallock q hq, h.stage q hq, h.myProcLocks q hq⟩
    · rw [← h.proc q hq]
      exact if_neg hnot
    · rw [put_proclock]
      exact hsame q hq hnot
  intro q hq hqp
  obtain ⟨hwait, proclock, hsome, hsome'⟩ := hwoken q hq
  refine ⟨hwait, ?_, ⟨proclock, hsome, ?_⟩, h.locallock q hqp, h.stage q hqp, h.myProcLocks q hqp⟩
  · rw [← h.proc q hqp]
    exact if_pos hq
  · rw [put_proclock]
    exact hsome'

end Own

/-! ### `CleanUpLock` -/

variable [DecidableEq P] [Fintype P]

/-- What `CleanUpLock` makes of an object `e`. -/
structure Cleaned (conflicts : Fin n → Finset (Fin n)) (want : P → Fin n) (x : Fin n → Nat)
    (p : P) (e : Entry P n) (wakeupNeeded : Bool) (lock' : Option (LOCK P n))
    (proclock' : P → Option (PROCLOCK n)) (woken : List P) : Prop where
  own : proclock' p = if e.holdMask p = ∅ then none else e.proclock p
  asleep : p ∉ woken
  same : ∀ q, q ≠ p → q ∉ woken → proclock' q = e.proclock q
  given : ∀ q ∈ woken, q ∈ e.lock.waitProcs ∧ proclock' q = (e.proclock q).map fun proclock =>
      { proclock with holdMask := insert (want q) proclock.holdMask }
  stays : ∀ lock, lock' = some lock →
    Good conflicts want x { lock := lock, proclock := proclock' } ∧ 0 < lock.nRequested ∧
      ∀ q, q ∈ lock.waitProcs ↔ q ∈ e.lock.waitProcs ∧ q ∉ woken
  settled : ∀ lock, lock' = some lock →
    wakeupNeeded = true ∨ Settled conflicts want e.holdMask e.lock.waitProcs →
      Settled conflicts want (Entry.holdMask { lock := lock, proclock := proclock' }) lock.waitProcs
  goes : lock' = none → woken = [] ∧ e.lock.waitProcs = [] ∧ x = 0 ∧ ∀ q, e.holdMask q = ∅

variable [DecidableEq Tag]

theorem cleaned {x : Fin n → Nat} {e : Entry P n} (hgood : Good (c.conflicts tag) s.want x e)
    (hp : p ∉ e.lock.waitProcs) (wakeupNeeded : Bool) :
    ∃ lock' proclock' woken,
      Cleaned (c.conflicts tag) s.want x p e wakeupNeeded lock' proclock' woken ∧
      s.cleanUpLock c p tag e wakeupNeeded
        = (if e.holdMask p = ∅ then s.setMyProcLocks p ((s.myProcLocks p).erase tag)
          else s).put tag lock' proclock' woken := by
  -- the object without the `PROCLOCK`, if that is to go
  obtain ⟨e₁, he₁, hgood₁, hown, hother, hhold, hqueue⟩ : ∃ e₁,
      (if decide (e.holdMask p = ∅) then e.forget p else e) = e₁ ∧
      Good (c.conflicts tag) s.want x e₁ ∧
      e₁.proclock p = (if e.holdMask p = ∅ then none else e.proclock p) ∧
      (∀ q, q ≠ p → e₁.proclock q = e.proclock q) ∧ e₁.holdMask = e.holdMask ∧
      e₁.lock.waitProcs = e.lock.waitProcs := by
    by_cases hempty : e.holdMask p = ∅
    · refine ⟨e.forget p, if_pos (decide_eq_true hempty), hgood.forget hempty hp, ?_, ?_,
        forget_holdMask hempty, rfl⟩
      · rw [if_pos hempty]
        exact update_self _ _ _
      · intro q hq
        exact update_of_ne hq _ _
    · refine ⟨e, if_neg (by simpa using hempty), hgood, ?_, fun _ _ => rfl, rfl, rfl⟩
      rw [if_neg hempty]
  have hs₂ : (if decide (e.holdMask p = ∅) then
        s.setMyProcLocks p ((s.myProcLocks p).erase tag) else s)
      = if e.holdMask p = ∅ then s.setMyProcLocks p ((s.myProcLocks p).erase tag) else s := by
    simp only [decide_eq_true_eq]
  have hwant : (if e.holdMask p = ∅ then s.setMyProcLocks p ((s.myProcLocks p).erase tag)
      else s).want = s.want := by
    split
    · rfl
    · rfl
  unfold cleanUpLock
  simp only [hs₂, he₁, hwant]
  by_cases hzero : e₁.lock.nRequested = 0
  · obtain ⟨hempty, hx, hnone⟩ := hgood₁.nothing_of_nRequested hzero
    refine ⟨none, e₁.proclock, [], ⟨hown, not_mem_nil, fun q hq _ => hother q hq, ?_, ?_, ?_,
      fun _ => ⟨rfl, hqueue ▸ hempty, hx, hhold ▸ hnone⟩⟩, if_pos hzero⟩
    · exact fun q hq => absurd hq not_mem_nil
    · exact fun lock hlock => absurd hlock.symm (some_ne_none lock)
    · exact fun lock hlock => absurd hlock.symm (some_ne_none lock)
  by_cases hwake : wakeupNeeded = true
  · obtain ⟨hgood₂, hsettled, hwoke⟩ := hgood₁.procLockWakeup (c.conflicts_symm tag)
    have hpw : p ∉ (e₁.procLockWakeup (c.conflicts tag) s.want).2 := by
      intro hmem
      have := hwoke.sub p hmem
      rw [hqueue] at this
      exact hp this
    refine ⟨some (e₁.procLockWakeup (c.conflicts tag) s.want).1.lock,
      (e₁.procLockWakeup (c.conflicts tag) s.want).1.proclock,
      (e₁.procLockWakeup (c.conflicts tag) s.want).2, ⟨?_, hpw, ?_, ?_, ?_, ?_, ?_⟩,
      (if_neg hzero).trans (if_pos hwake)⟩
    · rw [hwoke.same p hpw, hown]
    · intro q hq hnot
      rw [hwoke.same q hnot, hother q hq]
    · intro q hq
      have hqp : q ≠ p := fun heq => hpw (heq ▸ hq)
      refine ⟨hqueue ▸ hwoke.sub q hq, ?_⟩
      rw [hwoke.given q hq, hother q hqp]
    · intro lock hlock
      cases hlock
      refine ⟨hgood₂, ?_, fun q => ?_⟩
      · rw [hwoke.nRequested]
        omega
      · rw [hwoke.queue, hqueue]
    · intro lock hlock _
      cases hlock
      exact hsettled
    · exact fun hlock => absurd hlock (some_ne_none _)
  refine ⟨some e₁.lock, e₁.proclock, [], ⟨hown, not_mem_nil, fun q hq _ => hother q hq,
    ?_, ?_, ?_, ?_⟩, (if_neg hzero).trans (if_neg hwake)⟩
  · exact fun q hq => absurd hq not_mem_nil
  · intro lock hlock
    cases hlock
    refine ⟨hgood₁, Nat.pos_of_ne_zero hzero, fun q => ?_⟩
    rw [hqueue]
    exact (and_iff_left not_mem_nil).symm
  · intro lock hlock hset
    cases hlock
    have hset := hset.resolve_left hwake
    rw [← hhold, ← hqueue] at hset
    exact hset
  · exact fun hlock => absurd hlock (some_ne_none _)

/-- `CleanUpLock` after `p` gave something up on an object. -/
structure CleansUp (s₀ s : State P Tag M Owner n) (c : LockMethods Tag M n)
    (extra : Tag → Fin n → Nat) (p : P) (tag : Tag) (e : Entry P n) : Prop where
  own : Own s₀ s p
  list : s.myProcLocks p = s₀.myProcLocks p
  before : ∀ t, (s₀.proc p).waitLock = some t → t = tag
  after : (s.proc p).waitLock = none
  want : s.want = s₀.want
  good : Good (c.conflicts tag) s.want (extra tag) e
  known : (e.proclock p).isSome = true
  listed : (s₀.proclock tag p).isSome = true
  queue : ∀ q, q ∈ e.lock.waitProcs ↔ (s.proc q).waitLock = some tag
  proclock : ∀ q, q ≠ p → e.proclock q = s₀.proclock tag q

namespace CleansUp

variable {e : Entry P n}

omit [DecidableEq P] [DecidableEq Tag] in
theorem notMem (h : CleansUp s₀ s c extra p tag e) : p ∉ e.lock.waitProcs := by
  rw [h.queue, h.after]
  exact (some_ne_none _).symm

/-- The state after `CleanUpLock`, as far as `p` is concerned. -/
theorem own_after (h : CleansUp s₀ s c extra p tag e) (wakeupNeeded : Bool) :
    (s.cleanUpLock c p tag e wakeupNeeded).hold tag p = e.holdMask p ∧
      (s.cleanUpLock c p tag e wakeupNeeded).marked tag p ⊆ e.releaseMask p ∧
      (e.holdMask p ≠ ∅ → (s.cleanUpLock c p tag e wakeupNeeded).marked tag p = e.releaseMask p) ∧
      (∀ t, t ≠ tag → (s.cleanUpLock c p tag e wakeupNeeded).proclock t p = s₀.proclock t p) ∧
      (s.cleanUpLock c p tag e wakeupNeeded).proc p = s.proc p ∧
      (s.cleanUpLock c p tag e wakeupNeeded).locallock = s.locallock ∧
      (s.cleanUpLock c p tag e wakeupNeeded).stage = s.stage := by
  obtain ⟨lock', proclock', woken, hclean, heq⟩ := cleaned h.good h.notMem wakeupNeeded
  rw [heq]
  set s₂ := if e.holdMask p = ∅ then s.setMyProcLocks p ((s.myProcLocks p).erase tag) else s
    with hs₂
  have hown₂ : s₂.proclock = s₀.proclock ∧ s₂.proc = s.proc ∧ s₂.locallock = s.locallock ∧
      s₂.stage = s.stage := by
    rw [hs₂]
    split
    · exact ⟨h.own.proclock, rfl, rfl, rfl⟩
    · exact ⟨h.own.proclock, rfl, rfl, rfl⟩
  have hproclock : (s₂.put tag lock' proclock' woken).proclock tag p
      = if e.holdMask p = ∅ then none else e.proclock p := by
    rw [← hclean.own]
    exact congrFun (update_self _ _ _) p
  refine ⟨?_, ?_, ?_, ?_, ?_, hown₂.2.2.1, hown₂.2.2.2⟩
  · rw [hold, hproclock]
    split_ifs with hempty
    · rw [hempty]
    · rfl
  · rw [marked, hproclock]
    split_ifs with hempty
    · exact empty_subset _
    · exact Subset.refl _
  · intro hne
    rw [marked, hproclock, if_neg hne]
    rfl
  · intro t ht
    rw [← hown₂.1]
    exact congrFun (update_of_ne ht _ _) p
  · rw [← hown₂.2.1]
    exact if_neg hclean.asleep

/-- The invariant after `CleanUpLock`; the queue is settled if the scan was made or was not
needed. -/
theorem inv (h : CleansUp s₀ s c extra p tag e) (hs : Inv c extra s₀) (wakeupNeeded : Bool)
    (hstatus : Status c (s.cleanUpLock c p tag e wakeupNeeded) p) :
    Inv c extra (s.cleanUpLock c p tag e wakeupNeeded) ∧
      (wakeupNeeded = true ∨ Settled (c.conflicts tag) s.want e.holdMask e.lock.waitProcs →
        SettledAt c (s.cleanUpLock c p tag e wakeupNeeded) tag) ∧
      ∃ woken, Touches s₀ (s.cleanUpLock c p tag e wakeupNeeded) p tag woken := by
  obtain ⟨lock', proclock', woken, hclean, heq⟩ := cleaned h.good h.notMem wakeupNeeded
  rw [heq] at hstatus ⊢
  set s₂ := if e.holdMask p = ∅ then s.setMyProcLocks p ((s.myProcLocks p).erase tag) else s
    with hs₂
  have hown₂ : Own s₀ s₂ p := by
    rw [hs₂]
    split
    · exact h.own.setMyProcLocks _
    · exact h.own
  have hproc₂ : s₂.proc = s.proc := by
    rw [hs₂]
    split
    · rfl
    · rfl
  have hqne : ∀ q, (s.proc q).waitLock = some tag → q ≠ p := by
    rintro q hq rfl
    rw [h.after] at hq
    exact (some_ne_none _).symm hq
  have hwait : ∀ q, q ≠ p → (s.proc q).waitLock = (s₀.proc q).waitLock := by
    intro q hq
    rw [h.own.proc q hq]
  have htouch : Touches s₀ (s₂.put tag lock' proclock' woken) p tag woken := by
    refine hown₂.put h.before ?_ hclean.asleep ?_ ?_
    · intro t ht
      rw [hproc₂, h.after] at ht
      cases ht
    · intro q hq hnot
      rw [hclean.same q hq hnot, h.proclock q hq]
    intro q hq
    obtain ⟨hmem, hgiven⟩ := hclean.given q hq
    have hwaits := (h.queue q).1 hmem
    have hqp := hqne q hwaits
    have hknown := h.good.known q hmem
    rw [h.proclock q hqp] at hgiven hknown
    obtain ⟨proclock, hsome⟩ := isSome_iff_exists.1 hknown
    refine ⟨by rw [← hwait q hqp]; exact hwaits, proclock, hsome, ?_⟩
    rw [hgiven, hsome, h.want]
    rfl
  have hwaitLock' : ∀ q, ((s₂.put tag lock' proclock' woken).proc q).waitLock = some tag
      ↔ (s.proc q).waitLock = some tag ∧ q ∉ woken := by
    intro q
    rw [put_waitLock, hproc₂]
  have hwant₂ : s₂.want = s.want := by
    funext q
    rw [State.want, State.want, hproc₂]
  have hobject : Object c extra (s₂.put tag lock' proclock' woken) tag := by
    refine ⟨?_, ?_, ?_, ?_, ?_⟩
    · rw [put_lock, put_proclock, put_want, hwant₂]
      exact fun lock hlock => (hclean.stays lock hlock).1
    · rw [put_lock]
      exact fun lock hlock => (hclean.stays lock hlock).2.1
    · rw [put_lock, put_proclock]
      intro hnone
      obtain ⟨hwoken, hqueue, hx, hhold⟩ := hclean.goes hnone
      refine ⟨hx, fun q => ?_⟩
      by_cases hq : q = p
      · subst hq
        rw [hclean.own, if_pos (hhold q)]
      have hnot : q ∉ woken := by
        rw [hwoken]
        exact not_mem_nil
      rw [hclean.same q hq hnot, h.proclock q hq]
      cases hsome : s₀.proclock tag q with
      | none => rfl
      | some proclock =>
        rcases (hs.object tag).needed q (by rw [hsome]; rfl) with hne | hwaits | hne
        · have := hhold q
          rw [holdMask, h.proclock q hq] at this
          exact absurd this hne
        · rw [← hwait q hq, ← h.queue, hqueue] at hwaits
          cases hwaits
        · exact absurd hx hne
    · intro q
      rw [hwaitLock', State.queue, put_lock]
      cases hlock : lock' with
      | none =>
        obtain ⟨-, hqueue, -⟩ := hclean.goes hlock
        refine iff_of_false not_mem_nil fun hand => ?_
        have := (h.queue q).2 hand.1
        rw [hqueue] at this
        exact not_mem_nil this
      | some lock =>
        rw [← h.queue]
        exact (hclean.stays lock hlock).2.2 q
    intro q hq
    by_cases hqp : q = p
    swap
    · exact (hs.object tag).moved (htouch.moved hqp) hq
    subst hqp
    rw [put_proclock, hclean.own] at hq
    rw [State.hold, put_proclock, hclean.own]
    by_cases hempty : e.holdMask q = ∅
    · rw [if_pos hempty] at hq
      cases hq
    · rw [if_neg hempty]
      exact .inl hempty
  have hlisted : Listed (s₂.put tag lock' proclock' woken) p := by
    have hbase := hs.listed p
    have hlist : (s₂.put tag lock' proclock' woken).myProcLocks p
        = if e.holdMask p = ∅ then (s₀.myProcLocks p).erase tag else s₀.myProcLocks p := by
      rw [hs₂, ← h.list]
      split
      · exact update_self _ _ _
      · rfl
    refine ⟨fun t => ?_, ?_⟩
    · rw [hlist]
      by_cases ht : t = tag
      · subst ht
        rw [put_proclock, hclean.own]
        split_ifs with hempty
        · exact iff_of_false hbase.nodup.not_mem_erase false_ne_true
        · rw [hbase.mem]
          exact iff_of_true h.listed h.known
      rw [htouch.proclock_ne ht p, ← hbase.mem]
      split
      · exact mem_erase_of_ne ht
      · exact Iff.rfl
    rw [hlist]
    split
    · exact hbase.nodup.erase tag
    · exact hbase.nodup
  refine ⟨hs.touches htouch (fun _ _ => rfl) hobject hstatus hlisted, ?_, woken, htouch⟩
  intro hset
  cases hlock : lock' with
  | none =>
    rw [SettledAt, queue_of_none put_lock]
    intro ahead q behind hsplit
    exact absurd hsplit.symm (append_ne_nil_of_right_ne_nil ahead (cons_ne_nil q behind))
  | some lock =>
    rw [settledAt_put, hwant₂]
    exact hclean.settled lock hlock hset

end CleansUp

end PrlPg.Locks
