/-
Lightweight locks (storage/lmgr/lwlock.c).

The state has all locks and all processes.  What is done while the spinlock of a lock is held
is one step, and so is each operation on a semaphore; a process is between two such steps at
one of the places of `Stage`, which has its local variables.  The waiters of a lock are linked
through their `PGPROC`s, and a process that releases waiters walks along the links after it has
let go of the spinlock.

The semaphore of a process is also used for other waits.  `foreignPost` is a wake-up meant for
one of those and `foreignWait` such a wait; the process is then in none of these functions.

`held` has, with each entry of `held_lwlocks`, the mode in which the lock was taken, which the
code does not keep and does not read.  A process without a `PGPROC` does not occur.
-/
import Mathlib.Data.Fintype.Card
import PrlPg.Lib.Run

namespace PrlPg.LWLocks

abbrev LWLockId := Nat

inductive LWLockMode where
  | exclusive
  | shared
  deriving DecidableEq, Repr

def maxSimulLWLocks : Nat := 100

variable {P : Type*}

/-- `tail` is undefined when `head` is `none`. -/
structure LWLock (P : Type*) where
  releaseOK : Bool
  exclusive : Nat
  shared : Nat
  head : Option P
  tail : Option P

/-- What a process has in shared memory. -/
structure PGPROC (P : Type*) where
  lwWaiting : Bool
  lwExclusive : Bool
  lwWaitLink : Option P
  sem : Nat

/-- Where a process is in the functions. -/
inductive Stage (P : Type*) where
  /-- In none of them. -/
  | idle
  /-- `LWLockAcquire`, before it takes the spinlock. -/
  | trying (lockid : LWLockId) (mode : LWLockMode) (retry : Bool) (extraWaits : Nat)
  /-- `LWLockAcquire`, before `PGSemaphoreLock`. -/
  | waiting (lockid : LWLockId) (mode : LWLockMode) (extraWaits : Nat)
  /-- `LWLockAcquire`, before it looks at `lwWaiting`. -/
  | awakened (lockid : LWLockId) (mode : LWLockMode) (extraWaits : Nat)
  /-- `LWLockAcquire`, which has the lock. -/
  | restoring (extraWaits : Nat)
  /-- `LWLockRelease`, which has waiters to awaken. -/
  | waking (head : Option P)
  /-- `LWLockRelease`, before `PGSemaphoreUnlock`. -/
  | posting (proc : P) (head : Option P)

structure State (P : Type*) where
  lock : LWLockId → LWLock P
  proc : P → PGPROC P
  stage : P → Stage P
  /-- The locks that a process holds, the latest first. -/
  held : P → List (LWLockId × LWLockMode)

def LWLock.init : LWLock P :=
  { releaseOK := true, exclusive := 0, shared := 0, head := none, tail := none }

/-- All locks are free and nobody uses them. -/
def State.init : State P :=
  { lock := fun _ => LWLock.init
    proc := fun _ => { lwWaiting := false, lwExclusive := false, lwWaitLink := none, sem := 0 }
    stage := fun _ => .idle
    held := fun _ => [] }

/-- If the lock can be had, take it. -/
def LWLock.take (lock : LWLock P) : LWLockMode → Option (LWLock P)
  | .exclusive =>
    if lock.exclusive = 0 ∧ lock.shared = 0 then some { lock with exclusive := lock.exclusive + 1 }
    else none
  | .shared => if lock.exclusive = 0 then some { lock with shared := lock.shared + 1 } else none

/-- Give up one hold on the lock. -/
def LWLock.drop (lock : LWLock P) : LWLock P :=
  if lock.exclusive > 0 then { lock with exclusive := lock.exclusive - 1 }
  else { lock with shared := lock.shared - 1 }

/-- The last process to be released, if that starts with `head`: the waiters for shared access
that follow it are released with it. -/
def lastShared (proc : P → PGPROC P) : Nat → P → P
  | 0, head => head
  | fuel + 1, head =>
    match (proc head).lwWaitLink with
    | some next => if (proc next).lwExclusive then head else lastShared proc fuel next
    | none => head

def lastReleased [Fintype P] (proc : P → PGPROC P) (head : P) : P :=
  if (proc head).lwExclusive then head else lastShared proc (Fintype.card P) head

section Moves

variable [DecidableEq P]

variable (s : State P)

namespace State

def setLock (lockid : LWLockId) (lock : LWLock P) : State P :=
  { s with lock := Function.update s.lock lockid lock }

def setStage (p : P) (stage : Stage P) : State P :=
  { s with stage := Function.update s.stage p stage }

def setHeld (p : P) (held : List (LWLockId × LWLockMode)) : State P :=
  { s with held := Function.update s.held p held }

def modifyProc (p : P) (f : PGPROC P → PGPROC P) : State P :=
  { s with proc := Function.update s.proc p (f (s.proc p)) }

/-- `PGSemaphoreUnlock`. -/
def semPost (p : P) : State P :=
  s.modifyProc p fun proc => { proc with sem := proc.sem + 1 }

/-- `PGSemaphoreLock`; `none` as long as it blocks. -/
def semWait (p : P) : Option (State P) :=
  if (s.proc p).sem = 0 then none
  else some (s.modifyProc p fun proc => { proc with sem := proc.sem - 1 })

/-- Add a process to the wait queue of a lock. -/
def enqueue (p : P) (lockid : LWLockId) (mode : LWLockMode) : State P :=
  let s := s.modifyProc p fun proc =>
    { proc with lwWaiting := true, lwExclusive := decide (mode = .exclusive), lwWaitLink := none }
  let lock := s.lock lockid
  match lock.head with
  | none => s.setLock lockid { lock with head := some p, tail := some p }
  | some _ =>
    match lock.tail with
    | some tail =>
      (s.modifyProc tail fun proc => { proc with lwWaitLink := some p }).setLock lockid
        { lock with tail := some p }
    | none => s.setLock lockid { lock with tail := some p }

/-- The lock as a process that tries to get it leaves it: a retry allows `LWLockRelease` to
release waiters again. -/
def seen (lockid : LWLockId) (retry : Bool) : LWLock P :=
  if retry then { s.lock lockid with releaseOK := true } else s.lock lockid

/-- The spinlock-protected section of `LWLockAcquire`. -/
def tryAcquire (p : P) (lockid : LWLockId) (mode : LWLockMode) (retry : Bool)
    (extraWaits : Nat) : State P :=
  match (s.seen lockid retry).take mode with
  | some lock =>
    ((s.setLock lockid lock).setHeld p ((lockid, mode) :: s.held p)).setStage p
      (.restoring extraWaits)
  | none =>
    ((s.setLock lockid (s.seen lockid retry)).enqueue p lockid mode).setStage p
      (.waiting lockid mode extraWaits)

def conditionalAcquire (p : P) (lockid : LWLockId) (mode : LWLockMode) : State P :=
  match (s.lock lockid).take mode with
  | some lock => (s.setLock lockid lock).setHeld p ((lockid, mode) :: s.held p)
  | none => s

/-- Remove a lock from those that a process holds. -/
def unheld (p : P) (lockid : LWLockId) : State P :=
  s.setHeld p ((s.held p).eraseP fun hold => hold.1 = lockid)

/-- `LWLockRelease` up to the end of its spinlock-protected section. -/
def release [Fintype P] (s : State P) (p : P) (lockid : LWLockId) : State P :=
  let s := s.unheld p lockid
  let lock := (s.lock lockid).drop
  match lock.head with
  | some head =>
    if lock.exclusive = 0 ∧ lock.shared = 0 ∧ lock.releaseOK = true then
      let proc := lastReleased s.proc head
      let lock := { lock with head := (s.proc proc).lwWaitLink, releaseOK := false }
      let s := s.modifyProc proc fun proc => { proc with lwWaitLink := none }
      (s.setLock lockid lock).setStage p (.waking (some head))
    else (s.setLock lockid lock).setStage p (.waking none)
  | none => (s.setLock lockid lock).setStage p (.waking none)

end State

/-- What can happen next.  The last two are the other uses of the semaphores. -/
inductive Event (P : Type*) where
  | acquire (p : P) (lockid : LWLockId) (mode : LWLockMode)
  | conditionalAcquire (p : P) (lockid : LWLockId) (mode : LWLockMode)
  | release (p : P) (lockid : LWLockId)
  /-- The process goes on to its next step. -/
  | proceed (p : P)
  | foreignPost (p : P)
  | foreignWait (p : P)
  deriving DecidableEq

/-- A step of a process that is in one of the functions. -/
def proceed (p : P) : Option (State P) :=
  match s.stage p with
  | .idle => none
  | .trying lockid mode retry extraWaits => some (s.tryAcquire p lockid mode retry extraWaits)
  | .waiting lockid mode extraWaits =>
    (s.semWait p).map fun s => s.setStage p (.awakened lockid mode extraWaits)
  | .awakened lockid mode extraWaits =>
    if (s.proc p).lwWaiting then some (s.setStage p (.waiting lockid mode (extraWaits + 1)))
    else some (s.setStage p (.trying lockid mode true extraWaits))
  | .restoring 0 => some (s.setStage p .idle)
  | .restoring (extraWaits + 1) => some ((s.semPost p).setStage p (.restoring extraWaits))
  | .waking none => some (s.setStage p .idle)
  | .waking (some proc) =>
    let head := (s.proc proc).lwWaitLink
    some ((s.modifyProc proc fun proc =>
      { proc with lwWaitLink := none, lwWaiting := false }).setStage p (.posting proc head))
  | .posting proc head => some ((s.semPost proc).setStage p (.waking head))

/-- One step.  A call that ends in an error leaves everything as it is. -/
def step [Fintype P] (s : State P) : Event P → Option (State P)
  | .acquire p lockid mode =>
    match s.stage p with
    | .idle =>
      if (s.held p).length ≥ maxSimulLWLocks then some s
      else some (s.setStage p (.trying lockid mode false 0))
    | _ => none
  | .conditionalAcquire p lockid mode =>
    match s.stage p with
    | .idle =>
      if (s.held p).length ≥ maxSimulLWLocks then some s
      else some (s.conditionalAcquire p lockid mode)
    | _ => none
  | .release p lockid =>
    match s.stage p with
    | .idle =>
      if (s.held p).any fun hold => hold.1 = lockid then some (s.release p lockid) else some s
    | _ => none
  | .proceed p => proceed s p
  | .foreignPost p => some (s.semPost p)
  | .foreignWait p =>
    match s.stage p with
    | .idle => s.semWait p
    | _ => none

end Moves

end PrlPg.LWLocks
