/-
The lock table (storage/lmgr/lock.c) and its wait queues (storage/lmgr/proc.c).

The state has the two shared hash tables, the local lock table of every process and what the
processes have in their `PGPROC`s.  What is done while a partition lock is held is one step.
`LockReleaseAll` holds one partition lock after the other, so it is cut into a step for the
local table and one for each partition.  A process that waits is at `Stage.sleeping` until it
notices that it was awakened, or is interrupted.

The lock modes 1, 2, ... are the numbers of `Fin n` and a set of modes (`LOCKMASK`) is a
`Finset`.  A local entry that is not in the hash table is one with no holds.  The deadlock
checker is here only with what it does to the table: it removes the process that runs it from
its queue, or it puts queues into another order.

Requests that are refused before the table is looked at (an unknown mode, a strong lock
during recovery) do not occur.
-/
import Mathlib.Algebra.GroupWithZero.Nat
import Mathlib.Data.Fintype.Card
import PrlPg.Lib.Run

namespace PrlPg.Locks

open List Function

variable {P Tag M Owner : Type*} {n : Nat}

/-- `NUM_LOCK_PARTITIONS`. -/
def numLockPartitions : Nat := 16

/-- What is fixed: the lock methods, and which one and which hash code a tag has. -/
structure LockMethods (Tag M : Type*) (n : Nat) where
  method : Tag → M
  hashcode : Tag → Nat
  conflictTab : M → Fin n → Finset (Fin n)
  transactional : M → Bool
  /-- A mode that conflicts with another is one that the other conflicts with. -/
  symm : ∀ {id : M} {i j : Fin n}, j ∈ conflictTab id i → i ∈ conflictTab id j

namespace LockMethods

/-- `LockHashPartition`. -/
def partition (c : LockMethods Tag M n) (tag : Tag) : Nat := c.hashcode tag % numLockPartitions

/-- The modes that conflict with `mode` on an object. -/
def conflicts (c : LockMethods Tag M n) (tag : Tag) (mode : Fin n) : Finset (Fin n) :=
  c.conflictTab (c.method tag) mode

end LockMethods

/-! ### The shared tables -/

/-- An object that somebody has locked or wants to lock. -/
structure LOCK (P : Type*) (n : Nat) where
  grantMask : Finset (Fin n)
  waitMask : Finset (Fin n)
  /-- The processes that have a `PROCLOCK` for the object. -/
  procLocks : List P
  waitProcs : List P
  requested : Fin n → Nat
  nRequested : Nat
  granted : Fin n → Nat
  nGranted : Nat

/-- What one process has of one object. -/
structure PROCLOCK (n : Nat) where
  holdMask : Finset (Fin n)
  releaseMask : Finset (Fin n)

/-- An object with the `PROCLOCK`s that belong to it. -/
structure Entry (P : Type*) (n : Nat) where
  lock : LOCK P n
  proclock : P → Option (PROCLOCK n)

def LOCK.new : LOCK P n :=
  { grantMask := ∅, waitMask := ∅, procLocks := [], waitProcs := [], requested := fun _ => 0,
    nRequested := 0, granted := fun _ => 0, nGranted := 0 }

namespace Entry

def holdMask (e : Entry P n) (p : P) : Finset (Fin n) :=
  match e.proclock p with
  | some proclock => proclock.holdMask
  | none => ∅

def releaseMask (e : Entry P n) (p : P) : Finset (Fin n) :=
  match e.proclock p with
  | some proclock => proclock.releaseMask
  | none => ∅

/-- `LockCheckConflicts`: whether nobody else holds a mode that conflicts with the requested
one. -/
def checkConflicts (conflicts : Fin n → Finset (Fin n)) (e : Entry P n) (p : P) (mode : Fin n) :
    Bool :=
  if Disjoint (conflicts mode) e.lock.grantMask then true
  else
    let otherLocks := Finset.univ.filter fun i =>
      e.lock.granted i > if i ∈ e.holdMask p then 1 else 0
    decide (Disjoint (conflicts mode) otherLocks)

section Updates

variable [DecidableEq P] (e : Entry P n)

/-- Find or create the `PROCLOCK` of a process. -/
def enter (p : P) : Entry P n :=
  match e.proclock p with
  | some _ => e
  | none =>
    { lock := { e.lock with procLocks := e.lock.procLocks ++ [p] }
      proclock := update e.proclock p (some { holdMask := ∅, releaseMask := ∅ }) }

/-- Remove the `PROCLOCK` of a process. -/
def forget (p : P) : Entry P n :=
  { lock := { e.lock with procLocks := e.lock.procLocks.erase p }
    proclock := update e.proclock p none }

def modifyProcLock (p : P) (f : PROCLOCK n → PROCLOCK n) : Entry P n :=
  { e with proclock := update e.proclock p ((e.proclock p).map f) }

/-- Count a request. -/
def request (mode : Fin n) : Entry P n :=
  { e with lock :=
    { e.lock with
      nRequested := e.lock.nRequested + 1
      requested := update e.lock.requested mode (e.lock.requested mode + 1) } }

/-- Take a request back. -/
def unrequest (mode : Fin n) : Entry P n :=
  { e with lock :=
    { e.lock with
      nRequested := e.lock.nRequested - 1
      requested := update e.lock.requested mode (e.lock.requested mode - 1) } }

/-- `GrantLock`. -/
def grantLock (p : P) (mode : Fin n) : Entry P n :=
  { e with lock :=
    { e.lock with
      nGranted := e.lock.nGranted + 1
      granted := update e.lock.granted mode (e.lock.granted mode + 1)
      grantMask := insert mode e.lock.grantMask
      waitMask :=
        if e.lock.granted mode + 1 = e.lock.requested mode then e.lock.waitMask.erase mode
        else e.lock.waitMask } }.modifyProcLock p fun proclock =>
    { proclock with holdMask := insert mode proclock.holdMask }

/-- `UnGrantLock`; whether there may be waiters to awaken is `mustWake`. -/
def unGrantLock (p : P) (mode : Fin n) : Entry P n :=
  { e with lock :=
    { e.lock with
      nRequested := e.lock.nRequested - 1
      requested := update e.lock.requested mode (e.lock.requested mode - 1)
      nGranted := e.lock.nGranted - 1
      granted := update e.lock.granted mode (e.lock.granted mode - 1)
      grantMask :=
        if e.lock.granted mode - 1 = 0 then e.lock.grantMask.erase mode
        else e.lock.grantMask } }.modifyProcLock p fun proclock =>
    { proclock with holdMask := proclock.holdMask.erase mode }

/-- Whether a waiter wants a mode that conflicts with `mode`, as `waitMask` has it. -/
def mustWake (conflicts : Fin n → Finset (Fin n)) (e : Entry P n) (mode : Fin n) : Bool :=
  !decide (Disjoint (conflicts mode) e.lock.waitMask)

/-- Put a process into the wait queue, behind the first `i` waiters. -/
def enqueue (p : P) (mode : Fin n) (i : Nat) : Entry P n :=
  { e with lock :=
    { e.lock with
      waitProcs := e.lock.waitProcs.insertIdx i p
      waitMask := insert mode e.lock.waitMask } }

/-- Take a process that was granted what it wants out of the queue. -/
def dequeue (p : P) : Entry P n :=
  { e with lock := { e.lock with waitProcs := e.lock.waitProcs.erase p } }

/-- Take a process that gives up out of the queue. -/
def leave (p : P) (mode : Fin n) : Entry P n :=
  { e with lock :=
    { e.lock with
      waitProcs := e.lock.waitProcs.erase p
      nRequested := e.lock.nRequested - 1
      requested := update e.lock.requested mode (e.lock.requested mode - 1)
      waitMask :=
        if e.lock.granted mode = e.lock.requested mode - 1 then e.lock.waitMask.erase mode
        else e.lock.waitMask } }

/-- The loop of `ProcLockWakeup` over the rest of the queue; the processes that it awakens are
returned too.  `want` is the mode a waiter waits for. -/
def wakeup (conflicts : Fin n → Finset (Fin n)) (want : P → Fin n) :
    List P → Finset (Fin n) → Entry P n → Entry P n × List P
  | [], _, e => (e, [])
  | p :: rest, aheadRequests, e =>
    if Disjoint (conflicts (want p)) aheadRequests ∧ e.checkConflicts conflicts p (want p) then
      let (e, woken) :=
        wakeup conflicts want rest aheadRequests ((e.grantLock p (want p)).dequeue p)
      (e, p :: woken)
    else wakeup conflicts want rest (insert (want p) aheadRequests) e

/-- `ProcLockWakeup`. -/
def procLockWakeup (conflicts : Fin n → Finset (Fin n)) (want : P → Fin n) (e : Entry P n) :
    Entry P n × List P :=
  wakeup conflicts want e.lock.waitProcs ∅ e

end Updates

end Entry

/-! ### The processes -/

/-- The holds of one process on one object in one mode, by owner; `none` is a session lock. -/
structure LOCALLOCK (Owner : Type*) where
  nLocks : Nat
  lockOwners : List (Option Owner × Nat)
  total : nLocks = (lockOwners.map Prod.snd).sum
  pos : ∀ owner ∈ lockOwners, 0 < owner.2

inductive WaitStatus where
  | ok
  | waiting
  | error
  deriving DecidableEq, Repr

/-- `waitLock` is `none` if the process is in no wait queue. -/
structure PGPROC (Tag : Type*) (n : Nat) where
  waitLock : Option Tag
  waitLockMode : Fin n
  waitStatus : WaitStatus
  heldLocks : Finset (Fin n)

/-- Where a process is in the functions. -/
inductive Stage (Tag M Owner : Type*) (n : Nat) where
  /-- In none of them. -/
  | running
  /-- `ProcSleep`, for the lock that it awaits. -/
  | sleeping (tag : Tag) (mode : Fin n) (owner : Option Owner)
  /-- `LockReleaseAll`, before it looks at a partition. -/
  | releasing (method : M) (allLocks : Bool) (partition : Nat)
  deriving DecidableEq

structure State (P Tag M Owner : Type*) (n : Nat) where
  lock : Tag → Option (LOCK P n)
  proclock : Tag → P → Option (PROCLOCK n)
  locallock : P → Tag → Fin n → LOCALLOCK Owner
  proc : P → PGPROC Tag n
  /-- The objects for which a process has a `PROCLOCK`. -/
  myProcLocks : P → List Tag
  stage : P → Stage Tag M Owner n

namespace LOCALLOCK

def empty : LOCALLOCK Owner :=
  { nLocks := 0, lockOwners := [], total := rfl, pos := fun _ h => absurd h List.not_mem_nil }

variable [DecidableEq Owner] {owner : Option Owner}

/-- One more hold for an owner. -/
def addHold (owner : Option Owner) : List (Option Owner × Nat) → List (Option Owner × Nat)
  | [] => [(owner, 1)]
  | (o, k) :: rest => if o = owner then (o, k + 1) :: rest else (o, k) :: addHold owner rest

/-- One hold of an owner less, `none` if it has none. -/
def dropHold (owner : Option Owner) : List (Option Owner × Nat) → Option (List (Option Owner × Nat))
  | [] => none
  | (o, k) :: rest =>
    if o = owner then some (if k = 1 then rest else (o, k - 1) :: rest)
    else (dropHold owner rest).map ((o, k) :: ·)

theorem sum_addHold (owner : Option Owner) (l : List (Option Owner × Nat)) :
    ((addHold owner l).map Prod.snd).sum = (l.map Prod.snd).sum + 1 := by
  induction l with
  | nil => rfl
  | cons slot rest ih =>
    unfold addHold
    split
    · simp only [map_cons, sum_cons]
      omega
    · simp only [map_cons, sum_cons, ih]
      omega

theorem pos_addHold {l : List (Option Owner × Nat)}
    (h : ∀ slot ∈ l, 0 < slot.2) : ∀ slot ∈ addHold owner l, 0 < slot.2 := by
  induction l with
  | nil =>
    intro slot hslot
    rw [addHold, mem_singleton] at hslot
    subst hslot
    exact Nat.one_pos
  | cons first rest ih =>
    have hrest : ∀ slot ∈ rest, 0 < slot.2 := fun slot hslot => h slot (.tail _ hslot)
    unfold addHold
    split
    · intro slot hslot
      rcases mem_cons.1 hslot with rfl | hslot
      · exact Nat.succ_pos _
      · exact hrest slot hslot
    intro slot hslot
    rcases mem_cons.1 hslot with rfl | hslot
    · exact h _ (.head _)
    · exact ih hrest slot hslot

theorem of_dropHold {l l' : List (Option Owner × Nat)}
    (hpos : ∀ slot ∈ l, 0 < slot.2) (h : dropHold owner l = some l') :
    (l.map Prod.snd).sum = (l'.map Prod.snd).sum + 1 ∧ ∀ slot ∈ l', 0 < slot.2 := by
  induction l generalizing l' with
  | nil =>
    rw [dropHold] at h
    exact absurd h.symm (Option.some_ne_none _)
  | cons first rest ih =>
    have hrest : ∀ slot ∈ rest, 0 < slot.2 := fun slot hslot => hpos slot (.tail _ hslot)
    have hfirst : 0 < first.2 := hpos first (.head _)
    unfold dropHold at h
    split at h
    · injection h with h
      subst h
      split
      · rename_i hone
        refine ⟨?_, hrest⟩
        simp only [map_cons, sum_cons]
        omega
      rename_i hone
      refine ⟨?_, ?_⟩
      · simp only [map_cons, sum_cons]
        omega
      intro slot hslot
      rcases mem_cons.1 hslot with rfl | hslot
      · show 0 < first.2 - 1
        omega
      · exact hrest slot hslot
    obtain ⟨l₁, hl₁, rfl⟩ := Option.map_eq_some_iff.1 h
    obtain ⟨hsum, hpos₁⟩ := ih hrest hl₁
    refine ⟨?_, ?_⟩
    · simp only [map_cons, sum_cons]
      omega
    intro slot hslot
    rcases mem_cons.1 hslot with rfl | hslot
    · exact hfirst
    · exact hpos₁ slot hslot

/-- `GrantLockLocal`. -/
def grant (locallock : LOCALLOCK Owner) (owner : Option Owner) : LOCALLOCK Owner :=
  { nLocks := locallock.nLocks + 1
    lockOwners := addHold owner locallock.lockOwners
    total := by rw [sum_addHold, locallock.total]
    pos := pos_addHold locallock.pos }

/-- The local part of `LockRelease`: one hold of the owner less, `none` if it has none. -/
def release (locallock : LOCALLOCK Owner) (owner : Option Owner) : Option (LOCALLOCK Owner) :=
  match h : dropHold owner locallock.lockOwners with
  | none => none
  | some lockOwners =>
    some
      { nLocks := locallock.nLocks - 1
        lockOwners := lockOwners
        total := by
          have := (of_dropHold locallock.pos h).1
          have := locallock.total
          omega
        pos := (of_dropHold locallock.pos h).2 }

/-- The slot of the session locks, where `LockReleaseAll` looks for it. -/
def sessionSlot (locallock : LOCALLOCK Owner) : Option (Option Owner × Nat) :=
  match (locallock.lockOwners.drop 1).reverse.find? fun slot => slot.1.isNone with
  | some slot => some slot
  | none => locallock.lockOwners.head?

/-- What `LockReleaseAll` leaves of an entry: just the session locks, if it is to keep them and
there are any. -/
def kept (locallock : LOCALLOCK Owner) (allLocks : Bool) : LOCALLOCK Owner :=
  if allLocks then empty
  else
    match locallock.sessionSlot with
    | some (none, k + 1) =>
      { nLocks := k + 1, lockOwners := [(none, k + 1)], total := rfl
        pos := fun slot hslot => by rw [List.mem_singleton.1 hslot]; exact k.succ_pos }
    | _ => empty

end LOCALLOCK

/-! ### The functions -/

/-- How much shared memory is left. -/
inductive Memory where
  | enough
  | noLock
  | noProcLock
  deriving DecidableEq, Repr

/-- The arguments of `LockAcquireExtended` and what else it looks at. -/
structure Request (Tag Owner : Type*) (n : Nat) where
  tag : Tag
  mode : Fin n
  sessionLock : Bool
  dontWait : Bool
  reportMemoryError : Bool
  /-- `CurrentResourceOwner`. -/
  owner : Owner
  memory : Memory
  /-- The process is not the startup process, recovery is in progress and the startup process
  waits for a buffer that this process has pinned. -/
  delaysRecovery : Bool
  deriving DecidableEq

inductive LockError where
  | outOfMemory
  | alreadyHeld
  | recoveryConflict
  | deadlock
  deriving DecidableEq, Repr

/-- How `LockAcquireExtended` ends; `asleep` if it does not yet. -/
inductive Outcome where
  | ok
  | alreadyHeld
  | notAvail
  | error (error : LockError)
  | asleep
  deriving DecidableEq, Repr

/-- What `ProcSleep` finds in the queue: the process can have the lock at once, or it goes
behind the first `i` waiters, possibly only to find that this is a deadlock. -/
inductive Place where
  | grant
  | behind (i : Nat) (earlyDeadlock : Bool)
  deriving DecidableEq, Repr

/-- The loop of `ProcSleep` over the rest of the queue.  `unopposed` is the answer of
`LockCheckConflicts`. -/
def findPlace (conflicts : Fin n → Finset (Fin n)) (proc : P → PGPROC Tag n) (mode : Fin n)
    (myHeldLocks : Finset (Fin n)) (unopposed : Bool) : Finset (Fin n) → List P → Place
  | _, [] => .behind 0 false
  | aheadRequests, q :: rest =>
    if ¬ Disjoint (conflicts (proc q).waitLockMode) myHeldLocks then
      if ¬ Disjoint (conflicts mode) (proc q).heldLocks then .behind 0 true
      else if Disjoint (conflicts mode) aheadRequests ∧ unopposed then .grant
      else .behind 0 false
    else
      match findPlace conflicts proc mode myHeldLocks unopposed
          (insert (proc q).waitLockMode aheadRequests) rest with
      | .grant => .grant
      | .behind i earlyDeadlock => .behind (i + 1) earlyDeadlock

/-- Where in the queue `ProcSleep` puts a process. -/
def placeFor (conflicts : Fin n → Finset (Fin n)) (proc : P → PGPROC Tag n) (e : Entry P n)
    (p : P) (mode : Fin n) : Place :=
  if e.holdMask p = ∅ then .behind e.lock.waitProcs.length false
  else
    findPlace conflicts proc mode (e.holdMask p) (e.checkConflicts conflicts p mode) ∅
      e.lock.waitProcs

namespace State

/-- Nothing is locked. -/
def init [NeZero n] : State P Tag M Owner n :=
  { lock := fun _ => none
    proclock := fun _ _ => none
    locallock := fun _ _ _ => .empty
    proc := fun _ => { waitLock := none, waitLockMode := 0, waitStatus := .ok, heldLocks := ∅ }
    myProcLocks := fun _ => []
    stage := fun _ => .running }

def want (s : State P Tag M Owner n) (p : P) : Fin n := (s.proc p).waitLockMode

/-- The object with a tag. -/
def entry (s : State P Tag M Owner n) (tag : Tag) : Option (Entry P n) :=
  (s.lock tag).map fun lock => { lock := lock, proclock := s.proclock tag }

variable [DecidableEq P] [DecidableEq Tag]

def setStage (s : State P Tag M Owner n) (p : P) (stage : Stage Tag M Owner n) :
    State P Tag M Owner n :=
  { s with stage := update s.stage p stage }

def setProc (s : State P Tag M Owner n) (p : P) (proc : PGPROC Tag n) : State P Tag M Owner n :=
  { s with proc := update s.proc p proc }

def setLocal (s : State P Tag M Owner n) (p : P) (tag : Tag) (mode : Fin n)
    (locallock : LOCALLOCK Owner) : State P Tag M Owner n :=
  { s with
    locallock := update s.locallock p (update (s.locallock p) tag
        (update (s.locallock p tag) mode locallock)) }

def setMyProcLocks (s : State P Tag M Owner n) (p : P) (tags : List Tag) : State P Tag M Owner n :=
  { s with myProcLocks := update s.myProcLocks p tags }

/-- Store an object; the awakened processes are out of the queue and learn that they have
what they want (`ProcWakeup`). -/
def put (s : State P Tag M Owner n) (tag : Tag) (lock : Option (LOCK P n))
    (proclock : P → Option (PROCLOCK n)) (woken : List P) : State P Tag M Owner n :=
  { s with
    lock := update s.lock tag lock
    proclock := update s.proclock tag proclock
    proc := fun q =>
      if q ∈ woken then { s.proc q with waitLock := none, waitStatus := .ok } else s.proc q }

def putEntry (s : State P Tag M Owner n) (tag : Tag) (e : Entry P n) : State P Tag M Owner n :=
  s.put tag (some e.lock) e.proclock []

variable (c : LockMethods Tag M n)

/-- `CleanUpLock`, for an object as the caller has changed it. -/
def cleanUpLock (s : State P Tag M Owner n) (p : P) (tag : Tag) (e : Entry P n)
    (wakeupNeeded : Bool) : State P Tag M Owner n :=
  let gone := decide (e.holdMask p = ∅)
  let s := if gone then s.setMyProcLocks p ((s.myProcLocks p).erase tag) else s
  let e := if gone then e.forget p else e
  if e.lock.nRequested = 0 then s.put tag none e.proclock []
  else if wakeupNeeded then
    let (e, woken) := e.procLockWakeup (c.conflicts tag) s.want
    s.put tag (some e.lock) e.proclock woken
  else s.putEntry tag e

/-- `RemoveFromWaitQueue`. -/
def removeFromWaitQueue (s : State P Tag M Owner n) (p : P) : State P Tag M Owner n :=
  match (s.proc p).waitLock with
  | none => s
  | some tag =>
    match s.entry tag with
    | none => s
    | some e =>
      (s.setProc p { s.proc p with waitLock := none, waitStatus := .error }).cleanUpLock c p tag
        (e.leave p (s.proc p).waitLockMode) true

variable [DecidableEq Owner]

def grantLockLocal (s : State P Tag M Owner n) (p : P) (tag : Tag) (mode : Fin n)
    (owner : Option Owner) : State P Tag M Owner n :=
  s.setLocal p tag mode ((s.locallock p tag mode).grant owner)

/-- `WaitOnLock`, for an object in which the request is counted, until the process sleeps. -/
def waitOnLock (s : State P Tag M Owner n) (p : P) (tag : Tag) (mode : Fin n)
    (owner : Option Owner) (e : Entry P n) : State P Tag M Owner n × Outcome :=
  match placeFor (c.conflicts tag) s.proc e p mode with
  | .grant => ((s.putEntry tag (e.grantLock p mode)).grantLockLocal p tag mode owner, .ok)
  | .behind i earlyDeadlock =>
    let s := (s.setProc p
      { waitLock := some tag, waitLockMode := mode, waitStatus := .waiting,
        heldLocks := e.holdMask p }).putEntry tag (e.enqueue p mode i)
    let s := s.setStage p (.sleeping tag mode owner)
    if earlyDeadlock then ((s.removeFromWaitQueue c p).setStage p .running, .error .deadlock)
    else (s, .asleep)

/-- The owner that a hold is recorded for. -/
def ownerOf (c : LockMethods Tag M n) (tag : Tag) (sessionLock : Bool) (owner : Owner) :
    Option Owner :=
  if !sessionLock && c.transactional (c.method tag) then some owner else none

/-- `LockAcquireExtended` once it has found or created the object and its `PROCLOCK`. -/
def acquireShared (s : State P Tag M Owner n) (p : P) (r : Request Tag Owner n)
    (e : Entry P n) : State P Tag M Owner n × Outcome :=
  let owner := ownerOf c r.tag r.sessionLock r.owner
  let e := e.request r.mode
  if r.mode ∈ e.holdMask p then (s.putEntry r.tag e, .error .alreadyHeld)
  else if Disjoint (c.conflicts r.tag r.mode) e.lock.waitMask ∧
      e.checkConflicts (c.conflicts r.tag) p r.mode then
    ((s.putEntry r.tag (e.grantLock p r.mode)).grantLockLocal p r.tag r.mode owner, .ok)
  else if r.dontWait then
    if e.holdMask p = ∅ then
      ((s.putEntry r.tag ((e.forget p).unrequest r.mode)).setMyProcLocks p
        ((s.myProcLocks p).erase r.tag), .notAvail)
    else (s.putEntry r.tag (e.unrequest r.mode), .notAvail)
  else if r.delaysRecovery then (s.putEntry r.tag e, .error .recoveryConflict)
  else s.waitOnLock c p r.tag r.mode owner e

/-- `LockAcquireExtended`. -/
def lockAcquire (s : State P Tag M Owner n) (p : P) (r : Request Tag Owner n) :
    State P Tag M Owner n × Outcome :=
  let outOfMemory : Outcome := if r.reportMemoryError then .error .outOfMemory else .notAvail
  if 0 < (s.locallock p r.tag r.mode).nLocks then
    (s.grantLockLocal p r.tag r.mode (ownerOf c r.tag r.sessionLock r.owner), .alreadyHeld)
  else if s.lock r.tag = none ∧ r.memory = .noLock then (s, outOfMemory)
  else
    let lock := (s.lock r.tag).getD .new
    match s.proclock r.tag p with
    | none =>
      if r.memory = .noProcLock then
        (if lock.nRequested = 0 then s.put r.tag none (s.proclock r.tag) [] else s, outOfMemory)
      else
        (s.setMyProcLocks p (s.myProcLocks p ++ [r.tag])).acquireShared c p r
          (Entry.enter { lock := lock, proclock := s.proclock r.tag } p)
    | some _ => s.acquireShared c p r { lock := lock, proclock := s.proclock r.tag }

/-- `LockRelease`. -/
def lockRelease (s : State P Tag M Owner n) (p : P) (tag : Tag) (mode : Fin n)
    (owner : Option Owner) : State P Tag M Owner n × Bool :=
  match (s.locallock p tag mode).release owner with
  | none => (s, false)
  | some locallock =>
    if 0 < locallock.nLocks then (s.setLocal p tag mode locallock, true)
    else
      let s := s.setLocal p tag mode .empty
      match s.entry tag with
      | none => (s, false)
      | some e =>
        if mode ∈ e.holdMask p then
          (s.cleanUpLock c p tag (e.unGrantLock p mode) (e.mustWake (c.conflicts tag) mode), true)
        else (s, false)

variable [DecidableEq M]

/-- `LockReleaseAll`, the local lock table: the holds that are to go are marked. -/
def releaseLocal (s : State P Tag M Owner n) (p : P) (method : M) (allLocks : Bool) :
    State P Tag M Owner n :=
  { s with
    locallock := update s.locallock p fun tag mode =>
      if c.method tag = method then (s.locallock p tag mode).kept allLocks
      else s.locallock p tag mode
    proclock := fun tag => update (s.proclock tag) p ((s.proclock tag p).map fun proclock =>
        { proclock with
          releaseMask := proclock.releaseMask ∪ Finset.univ.filter fun mode =>
            c.method tag = method ∧ 0 < (s.locallock p tag mode).nLocks ∧
              ((s.locallock p tag mode).kept allLocks).nLocks = 0 }) }

/-- Release the marked modes; also whether one of them may have kept waiters waiting. -/
def releaseModes (conflicts : Fin n → Finset (Fin n)) (p : P) :
    List (Fin n) → Entry P n → Bool → Entry P n × Bool
  | [], e, wakeupNeeded => (e, wakeupNeeded)
  | mode :: modes, e, wakeupNeeded =>
    releaseModes conflicts p modes (e.unGrantLock p mode)
      (wakeupNeeded || e.mustWake conflicts mode)

/-- `LockReleaseAll`, one of the objects of a partition. -/
def releaseProcLock (p : P) (method : M) (allLocks : Bool) (s : State P Tag M Owner n)
    (tag : Tag) : State P Tag M Owner n :=
  match s.entry tag with
  | none => s
  | some e =>
    if c.method tag ≠ method ∨ (e.proclock p).isNone then s
    else
      let releaseMask := if allLocks then e.holdMask p else e.releaseMask p
      if releaseMask = ∅ ∧ e.holdMask p ≠ ∅ then s
      else
        let (e, wakeupNeeded) := releaseModes (c.conflicts tag) p
          ((List.finRange n).filter fun mode => mode ∈ releaseMask) e false
        s.cleanUpLock c p tag
          (e.modifyProcLock p fun proclock => { proclock with releaseMask := ∅ }) wakeupNeeded

/-- `LockReleaseAll`, one partition. -/
def releasePartition (s : State P Tag M Owner n) (p : P) (method : M) (allLocks : Bool)
    (partition : Nat) : State P Tag M Owner n :=
  ((s.myProcLocks p).filter fun tag => c.partition tag = partition).foldl
    (releaseProcLock c p method allLocks) s

/-- `DeadLockCheck` applies the orders it has found, `none` if they are not orders of the
queues. -/
def rearrange (s : State P Tag M Owner n) : List (Tag × List P) → Option (State P Tag M Owner n)
  | [] => some s
  | (tag, order) :: orders =>
    match s.entry tag with
    | none => none
    | some e =>
      if order.Perm e.lock.waitProcs then
        let (e, woken) := Entry.procLockWakeup (c.conflicts tag) s.want
          { e with lock := { e.lock with waitProcs := order } }
        (s.put tag (some e.lock) e.proclock woken).rearrange orders
      else none

end State

/-- What can happen next. -/
inductive Event (P Tag M Owner : Type*) (n : Nat) where
  | acquire (p : P) (request : Request Tag Owner n)
  | release (p : P) (tag : Tag) (mode : Fin n) (sessionLock : Bool) (owner : Owner)
  | releaseAll (p : P) (method : M) (allLocks : Bool)
  /-- `LockReleaseAll` goes on to its next partition. -/
  | releasePartition (p : P)
  /-- A sleeping process notices that its wait is over. -/
  | awake (p : P)
  /-- `LockWaitCancel`. -/
  | cancel (p : P)
  /-- `CheckDeadLock` finds a hard deadlock. -/
  | hardDeadlock (p : P)
  /-- `CheckDeadLock` puts wait queues into another order. -/
  | rearrange (p : P) (orders : List (Tag × List P))
  deriving DecidableEq

variable [DecidableEq P] [DecidableEq Tag] [DecidableEq M] [DecidableEq Owner]

/-- One step; `none` if the process is not where the event happens. -/
def step (c : LockMethods Tag M n) (s : State P Tag M Owner n) :
    Event P Tag M Owner n → Option (State P Tag M Owner n)
  | .acquire p r =>
    match s.stage p with
    | .running => some (s.lockAcquire c p r).1
    | _ => none
  | .release p tag mode sessionLock owner =>
    match s.stage p with
    | .running => some (s.lockRelease c p tag mode (State.ownerOf c tag sessionLock owner)).1
    | _ => none
  | .releaseAll p method allLocks =>
    match s.stage p with
    | .running =>
      some ((s.releaseLocal c p method allLocks).setStage p (.releasing method allLocks 0))
    | _ => none
  | .releasePartition p =>
    match s.stage p with
    | .releasing method allLocks partition =>
      some ((s.releasePartition c p method allLocks partition).setStage p
        (if partition + 1 < numLockPartitions then .releasing method allLocks (partition + 1)
        else .running))
    | _ => none
  | .awake p =>
    match s.stage p with
    | .sleeping tag mode owner =>
      match (s.proc p).waitStatus with
      | .waiting => none
      | .ok => some ((s.grantLockLocal p tag mode owner).setStage p .running)
      | .error => some (s.setStage p .running)
    | _ => none
  | .cancel p =>
    match s.stage p with
    | .sleeping tag mode owner =>
      if (s.proc p).waitLock ≠ none then some ((s.removeFromWaitQueue c p).setStage p .running)
      else if (s.proc p).waitStatus = .ok then
        some ((s.grantLockLocal p tag mode owner).setStage p .running)
      else some (s.setStage p .running)
    | _ => none
  | .hardDeadlock p =>
    match s.stage p with
    | .sleeping _ _ _ =>
      if (s.proc p).waitLock ≠ none then some (s.removeFromWaitQueue c p) else none
    | _ => none
  | .rearrange p orders =>
    match s.stage p with
    | .sleeping _ _ _ => if (s.proc p).waitLock ≠ none then s.rearrange c orders else none
    | _ => none

end PrlPg.Locks
