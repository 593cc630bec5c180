/-
The lock table as a whole.

The invariant has a part for each object (`Object`), a part for each process (`Status`, which
ties what a process holds to its local table, and `Listed`), and counts for each object and
mode the requests that nobody owns any more.  What is done under a partition lock changes one
object, one process and the processes that are awakened; `Touches` says so, and `Inv.touches`
derives the invariant of the whole from the object and the process that were changed.
-/
import PrlPg.Proofs.LockWakeup

namespace PrlPg.Locks

open Option Finset State Bool

variable {P Tag M Owner : Type*} {n : Nat}

theorem LockMethods.conflicts_symm (c : LockMethods Tag M n) (tag : Tag) :
    ∀ i j, j ∈ c.conflicts tag i → i ∈ c.conflicts tag j := fun _ _ h => c.symm h

namespace State

/-- The modes that a process holds on an object. -/
def hold (s : State P Tag M Owner n) (tag : Tag) (p : P) : Finset (Fin n) :=
  match s.proclock tag p with
  | some proclock => proclock.holdMask
  | none => ∅

/-- The modes that `LockReleaseAll` has marked for release. -/
def marked (s : State P Tag M Owner n) (tag : Tag) (p : P) : Finset (Fin n) :=
  match s.proclock tag p with
  | some proclock => proclock.releaseMask
  | none => ∅

/-- The wait queue of an object. -/
def queue (s : State P Tag M Owner n) (tag : Tag) : List P :=
  match s.lock tag with
  | some lock => lock.waitProcs
  | none => []

/-- The process was granted the lock it sleeps for and has not noticed yet. -/
def Given (s : State P Tag M Owner n) (p : P) (tag : Tag) (mode : Fin n) : Prop :=
  (∃ owner, s.stage p = .sleeping tag mode owner) ∧ (s.proc p).waitLock = none ∧
    (s.proc p).waitStatus = .ok

section Fields

variable {s s' : State P Tag M Owner n} {tag : Tag} {p : P} {proclock : PROCLOCK n}

theorem hold_congr (h : s'.proclock tag p = s.proclock tag p) : s'.hold tag p = s.hold tag p := by
  rw [hold, hold, h]

theorem marked_congr (h : s'.proclock tag p = s.proclock tag p) :
    s'.marked tag p = s.marked tag p := by
  rw [marked, marked, h]

theorem hold_of_none (h : s.proclock tag p = none) : s.hold tag p = ∅ := by rw [hold, h]

theorem hold_of_some (h : s.proclock tag p = some proclock) :
    s.hold tag p = proclock.holdMask := by
  rw [hold, h]

theorem marked_of_none (h : s.proclock tag p = none) : s.marked tag p = ∅ := by rw [marked, h]

theorem marked_of_some (h : s.proclock tag p = some proclock) :
    s.marked tag p = proclock.releaseMask := by
  rw [marked, h]

theorem queue_of_some {lock : LOCK P n} (h : s.lock tag = some lock) :
    s.queue tag = lock.waitProcs := by
  rw [queue, h]

theorem entry_of_some {lock : LOCK P n} (h : s.lock tag = some lock) :
    s.entry tag = some ⟨lock, s.proclock tag⟩ := by
  rw [entry, h]
  rfl

theorem entry_of_none (h : s.lock tag = none) : s.entry tag = none := by rw [entry, h]; rfl

theorem queue_of_none (h : s.lock tag = none) : s.queue tag = [] := by rw [queue, h]

theorem queue_congr (h : s'.lock tag = s.lock tag) : s'.queue tag = s.queue tag := by
  rw [queue, queue, h]

theorem isSome_of_mem_hold {mode : Fin n} (h : mode ∈ s.hold tag p) :
    (s.proclock tag p).isSome = true := by
  cases hp : s.proclock tag p with
  | none =>
    rw [hold_of_none hp] at h
    exact absurd h (notMem_empty _)
  | some proclock => rfl

end Fields

end State

/-! ### The invariant -/

/-- What a process holds is what its local table says, apart from what it is about to release
and what it does not know yet that it has. -/
structure Status (c : LockMethods Tag M n) (s : State P Tag M Owner n) (p : P) : Prop where
  held : ∀ tag mode, mode ∈ s.hold tag p ↔
    0 < (s.locallock p tag mode).nLocks ∨ mode ∈ s.marked tag p ∨ s.Given p tag mode
  /-- Only `LockReleaseAll` marks, and it comes to the objects it has marked. -/
  marked : ∀ tag, ∀ mode ∈ s.marked tag p, (s.locallock p tag mode).nLocks = 0 ∧
    ∃ allLocks partition, s.stage p = .releasing (c.method tag) allLocks partition ∧
      partition ≤ c.partition tag
  /-- Asked to release all locks it leaves nothing in the local table. -/
  cleared : ∀ tag partition, s.stage p = .releasing (c.method tag) true partition →
    ∀ mode, (s.locallock p tag mode).nLocks = 0
  /-- A process in a wait queue sleeps. -/
  waits : ∀ tag, (s.proc p).waitLock = some tag →
    (∃ owner, s.stage p = .sleeping tag (s.want p) owner) ∧ (s.proc p).waitStatus = .waiting
  /-- What it sleeps for it does not have. -/
  sleeps : ∀ tag mode owner, s.stage p = .sleeping tag mode owner →
    (s.locallock p tag mode).nLocks = 0

/-- The list of the objects that a process has a `PROCLOCK` for is right. -/
structure Listed (s : State P Tag M Owner n) (p : P) : Prop where
  mem : ∀ tag, tag ∈ s.myProcLocks p ↔ (s.proclock tag p).isSome = true
  nodup : (s.myProcLocks p).Nodup

/-- One object: it is in the table just if there are requests for it, the processes in its
queue are those that wait for it, and a `PROCLOCK` is there for a reason. -/
structure Object [Fintype P] (c : LockMethods Tag M n) (extra : Tag → Fin n → Nat)
    (s : State P Tag M Owner n) (tag : Tag) : Prop where
  good : ∀ lock, s.lock tag = some lock →
    Good (c.conflicts tag) s.want (extra tag) { lock := lock, proclock := s.proclock tag }
  live : ∀ lock, s.lock tag = some lock → 0 < lock.nRequested
  absent : s.lock tag = none → extra tag = 0 ∧ ∀ p, s.proclock tag p = none
  queued : ∀ p, p ∈ s.queue tag ↔ (s.proc p).waitLock = some tag
  needed : ∀ p, (s.proclock tag p).isSome = true →
    s.hold tag p ≠ ∅ ∨ (s.proc p).waitLock = some tag ∨ extra tag ≠ 0

/-- The invariant, with `extra` requests that nobody owns. -/
structure Inv [Fintype P] (c : LockMethods Tag M n) (extra : Tag → Fin n → Nat)
    (s : State P Tag M Owner n) : Prop where
  object : ∀ tag, Object c extra s tag
  status : ∀ p, Status c s p
  listed : ∀ p, Listed s p

/-- No waiter of the object could have what it wants. -/
def SettledAt (c : LockMethods Tag M n) (s : State P Tag M Owner n) (tag : Tag) : Prop :=
  Settled (c.conflicts tag) s.want (s.hold tag) (s.queue tag)

/-- What is done keeps the invariant, and settled queues stay settled. -/
abbrev Keeps [Fintype P] (c : LockMethods Tag M n) (extra : Tag → Fin n → Nat)
    (s s' : State P Tag M Owner n) : Prop :=
  Inv c extra s' ∧ ((∀ t, SettledAt c s t) → ∀ t, SettledAt c s' t)

theorem inv_init [Fintype P] [NeZero n] (c : LockMethods Tag M n) :
    Inv c 0 (init : State P Tag M Owner n) where
  object := fun tag =>
    { good := fun lock h => absurd h.symm (some_ne_none _)
      live := fun lock h => absurd h.symm (some_ne_none _)
      absent := fun _ => ⟨rfl, fun _ => rfl⟩
      queued := fun p => iff_of_false List.not_mem_nil (some_ne_none _).symm
      needed := fun p h => absurd h false_ne_true }
  status := fun p =>
    { held := by
        intro tag mode
        refine iff_of_false (notMem_empty _) ?_
        rintro (hlt | hmem | ⟨⟨owner, hstage⟩, -⟩)
        · exact absurd hlt (lt_irrefl 0)
        · exact absurd hmem (notMem_empty _)
        · cases hstage
      marked := fun tag mode h => absurd h (notMem_empty _)
      cleared := fun tag partition _ mode => rfl
      waits := fun tag h => absurd h.symm (some_ne_none _)
      sleeps := fun tag mode owner _ => rfl }
  listed := fun p => ⟨fun tag => iff_of_false List.not_mem_nil false_ne_true, List.nodup_nil⟩

/-! ### What one section changes -/

variable {extra : Tag → Fin n → Nat} {t : Tag}

/-- The section did nothing to a process. -/
structure Unmoved (s s' : State P Tag M Owner n) (tag : Tag) (q : P) : Prop where
  proc : s'.proc q = s.proc q
  proclock : s'.proclock tag q = s.proclock tag q
  locallock : s'.locallock q = s.locallock q
  stage : s'.stage q = s.stage q
  myProcLocks : s'.myProcLocks q = s.myProcLocks q

/-- The section awakened a process. -/
structure Awakened (s s' : State P Tag M Owner n) (tag : Tag) (q : P) : Prop where
  waited : (s.proc q).waitLock = some tag
  proc : s'.proc q = { s.proc q with waitLock := none, waitStatus := .ok }
  proclock : ∃ proclock, s.proclock tag q = some proclock ∧ s'.proclock tag q
    = some { proclock with holdMask := insert (s.want q) proclock.holdMask }
  locallock : s'.locallock q = s.locallock q
  stage : s'.stage q = s.stage q
  myProcLocks : s'.myProcLocks q = s.myProcLocks q

/-- A section changed one object, the process `p`, and the processes that it awakened. -/
structure Touches (s s' : State P Tag M Owner n) (p : P) (tag : Tag) (woken : List P) :
    Prop where
  lock : ∀ t, t ≠ tag → s'.lock t = s.lock t
  proclock : ∀ t, t ≠ tag → s'.proclock t = s.proclock t
  waitLock : ∀ t, t ≠ tag → ((s'.proc p).waitLock = some t ↔ (s.proc p).waitLock = some t)
  want : ∀ t, t ≠ tag → (s.proc p).waitLock = some t → s'.want p = s.want p
  unmoved : ∀ q, q ≠ p → q ∉ woken → Unmoved s s' tag q
  awakened : ∀ q ∈ woken, q ≠ p → Awakened s s' tag q

section Touches

variable {c : LockMethods Tag M n} {s s' : State P Tag M Owner n} {p q : P} {tag : Tag}
  {woken : List P}

theorem Status.congr (h : Status c s q) (hproclock : ∀ t, s'.proclock t q = s.proclock t q)
    (hlocal : s'.locallock q = s.locallock q) (hproc : s'.proc q = s.proc q)
    (hstage : s'.stage q = s.stage q) : Status c s' q := by
  have hhold : ∀ t, s'.hold t q = s.hold t q := fun t => hold_congr (hproclock t)
  have hmarked : ∀ t, s'.marked t q = s.marked t q := fun t => marked_congr (hproclock t)
  have hwant : s'.want q = s.want q := by rw [want, want, hproc]
  refine ⟨?_, ?_, ?_, ?_, ?_⟩
  · intro t mode
    rw [hhold, hmarked, hlocal, Given, hproc, hstage]
    exact h.held t mode
  · intro t mode hmode
    rw [hmarked] at hmode
    rw [hlocal, hstage]
    exact h.marked t mode hmode
  · rw [hlocal, hstage]
    exact h.cleared
  · rw [hproc, hstage, hwant]
    exact h.waits
  · rw [hlocal, hstage]
    exact h.sleeps

/-- A process that is awakened has one mode more. -/
theorem Status.awakened (h : Status c s q) (hq : Awakened s s' tag q)
    (hne : ∀ t, t ≠ tag → s'.proclock t q = s.proclock t q) : Status c s' q := by
  obtain ⟨proclock, hsome, hsome'⟩ := hq.proclock
  obtain ⟨⟨owner, hstage⟩, -⟩ := h.waits tag hq.waited
  have hwaiting : ∀ t mode, ¬ s.Given q t mode := by
    intro t mode hgiven
    rw [Given, hq.waited] at hgiven
    exact some_ne_none _ hgiven.2.1
  have hgiven : ∀ t mode, s'.Given q t mode ↔ t = tag ∧ mode = s.want q := by
    intro t mode
    rw [Given, hq.stage, hq.proc, hstage]
    constructor
    · rintro ⟨⟨owner', heq⟩, -⟩
      injection heq with htag hmode _
      exact ⟨htag.symm, hmode.symm⟩
    · rintro ⟨rfl, rfl⟩
      exact ⟨⟨owner, rfl⟩, rfl, rfl⟩
  have hmarked : ∀ t, s'.marked t q = s.marked t q := by
    intro t
    by_cases ht : t = tag
    · subst ht
      rw [marked_of_some hsome', marked_of_some hsome]
    · exact marked_congr (hne t ht)
  refine ⟨?_, ?_, ?_, ?_, ?_⟩
  · intro t mode
    have hheld := h.held t mode
    rw [hmarked, hq.locallock, hgiven]
    by_cases ht : t = tag
    · subst ht
      rw [hold_of_some hsome', mem_insert, ← hold_of_some hsome, hheld]
      tauto
    · rw [hold_congr (hne t ht), hheld]
      tauto
  · intro t mode hmode
    rw [hmarked] at hmode
    rw [hq.locallock, hq.stage]
    exact h.marked t mode hmode
  · rw [hq.locallock, hq.stage]
    exact h.cleared
  · intro t ht
    rw [hq.proc] at ht
    cases ht
  · rw [hq.locallock, hq.stage]
    exact h.sleeps

/-! What a section does to a process that it leaves alone or awakens. -/

section Moved

variable (h : Unmoved s s' tag q ∨ Awakened s s' tag q)

include h

theorem Status.moved (hs : Status c s q) (hne : ∀ t, t ≠ tag → s'.proclock t q = s.proclock t q) :
    Status c s' q := by
  rcases h with hun | hawake
  · refine hs.congr (fun t => ?_) hun.locallock hun.proc hun.stage
    by_cases ht : t = tag
    · subst ht
      exact hun.proclock
    · exact hne t ht
  · exact hs.awakened hawake hne

theorem Listed.moved (hs : Listed s q) (hne : ∀ t, t ≠ tag → s'.proclock t q = s.proclock t q) :
    Listed s' q := by
  have hlist : s'.myProcLocks q = s.myProcLocks q := h.elim (·.myProcLocks) (·.myProcLocks)
  have hsome : ∀ t, (s'.proclock t q).isSome = (s.proclock t q).isSome := by
    intro t
    by_cases ht : t = tag
    · subst ht
      rcases h with hun | hawake
      · rw [hun.proclock]
      obtain ⟨proclock, h₁, h₂⟩ := hawake.proclock
      rw [h₁, h₂]
      rfl
    · rw [hne t ht]
  refine ⟨fun t => ?_, ?_⟩
  · rw [hlist, hsome]
    exact hs.mem t
  · rw [hlist]
    exact hs.nodup

/-- Its `PROCLOCK` is still there for a reason. -/
theorem Object.moved [Fintype P] (hs : Object c extra s tag)
    (hsome : (s'.proclock tag q).isSome = true) :
    s'.hold tag q ≠ ∅ ∨ (s'.proc q).waitLock = some tag ∨ extra tag ≠ 0 := by
  rcases h with hun | hawake
  · rw [hun.proclock] at hsome
    rw [hold_congr hun.proclock, hun.proc]
    exact hs.needed q hsome
  obtain ⟨proclock, -, h₂⟩ := hawake.proclock
  rw [hold_of_some h₂]
  exact .inl (insert_ne_empty _ _)

end Moved

namespace Touches

variable (h : Touches s s' p tag woken)

include h

theorem proclock_ne (ht : t ≠ tag) (q : P) : s'.proclock t q = s.proclock t q := by
  rw [h.proclock t ht]

/-- The queues of the other objects have the same processes. -/
theorem waitLock_ne (ht : t ≠ tag) (q : P) :
    (s'.proc q).waitLock = some t ↔ (s.proc q).waitLock = some t := by
  by_cases hqp : q = p
  · subst hqp
    exact h.waitLock t ht
  by_cases hq : q ∈ woken
  · have hawake := h.awakened q hq hqp
    rw [hawake.proc, hawake.waited]
    exact iff_of_false (some_ne_none _).symm fun heq => ht (some.inj heq).symm
  · rw [(h.unmoved q hqp hq).proc]

theorem want_ne (ht : t ≠ tag) (hq : (s.proc q).waitLock = some t) : s'.want q = s.want q := by
  by_cases hqp : q = p
  · subst hqp
    exact h.want t ht hq
  have hnot : q ∉ woken := by
    intro hmem
    rw [(h.awakened q hmem hqp).waited] at hq
    exact ht (some.inj hq).symm
  rw [State.want, State.want, (h.unmoved q hqp hnot).proc]

theorem moved (hq : q ≠ p) : Unmoved s s' tag q ∨ Awakened s s' tag q := by
  by_cases hmem : q ∈ woken
  · exact .inr (h.awakened q hmem hq)
  · exact .inl (h.unmoved q hq hmem)

variable {extra' : Tag → Fin n → Nat}

theorem object [Fintype P] (ht : t ≠ tag) (hs : Object c extra s t)
    (hextra : extra' t = extra t) : Object c extra' s' t := by
  refine ⟨?_, ?_, ?_, ?_, ?_⟩
  · intro lock hlock
    rw [h.lock t ht] at hlock
    rw [h.proclock t ht, hextra]
    refine (hs.good lock hlock).congr fun q hq => h.want_ne ht ?_
    rw [← hs.queued q, queue_of_some hlock]
    exact hq
  · intro lock hlock
    rw [h.lock t ht] at hlock
    exact hs.live lock hlock
  · intro hlock
    rw [h.lock t ht] at hlock
    rw [hextra, h.proclock t ht]
    exact hs.absent hlock
  · intro q
    rw [queue_congr (h.lock t ht), h.waitLock_ne ht]
    exact hs.queued q
  intro q hq
  rw [h.proclock t ht] at hq
  rw [hold_congr (h.proclock_ne ht q), h.waitLock_ne ht, hextra]
  exact hs.needed q hq

/-- The queues of the other objects stay settled. -/
theorem settledAt [Fintype P] (ht : t ≠ tag) (hs : Object c extra s t) (hset : SettledAt c s t) :
    SettledAt c s' t := by
  have hhold : s'.hold t = s.hold t := by
    funext q
    exact hold_congr (h.proclock_ne ht q)
  unfold SettledAt
  rw [queue_congr (h.lock t ht), hhold]
  exact hset.congr fun q hq => h.want_ne ht ((hs.queued q).1 hq)

theorem settled_all [Fintype P] (hs : Inv c extra s) (hset : ∀ t, SettledAt c s t)
    (htag : SettledAt c s' tag) (t : Tag) : SettledAt c s' t := by
  by_cases ht : t = tag
  · rwa [ht]
  · exact h.settledAt ht (hs.object t) (hset t)

end Touches

/-- The invariant after a section, from the object and the process that it changed. -/
theorem Inv.touches [Fintype P] (hs : Inv c extra s)
    (h : Touches s s' p tag woken) (hextra : ∀ t, t ≠ tag → extra' t = extra t)
    (hobject : Object c extra' s' tag) (hstatus : Status c s' p) (hlisted : Listed s' p) :
    Inv c extra' s' where
  object := by
    intro t
    by_cases ht : t = tag
    · subst ht
      exact hobject
    · exact h.object ht (hs.object t) (hextra t ht)
  status := by
    intro q
    by_cases hq : q = p
    · subst hq
      exact hstatus
    · exact (hs.status q).moved (h.moved hq) fun t ht => h.proclock_ne ht q
  listed := by
    intro q
    by_cases hq : q = p
    · subst hq
      exact hlisted
    · exact (hs.listed q).moved (h.moved hq) fun t ht => h.proclock_ne ht q

end Touches

end PrlPg.Locks
