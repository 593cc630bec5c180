/-
Pins of a shared buffer and the cleanup lock (`storage/buffer/bufmgr.c`).

One buffer and the backends that use it.  What is done under the buffer header lock is one step;
the content lock, the signal that `UnpinBuffer` sends and the end of a wait are steps of their
own.  A backend is signalled through a semaphore that other waits use as well, so it may be up for
a reason of its own.
-/
import Mathlib.Data.Fintype.Basic
import PrlPg.Storage.LWLock

namespace PrlPg.BufMgr

open Function LWLocks

/-- Where a backend is in a call. -/
inductive Pc (P : Type*)
  | idle
  /-- in `LockBufferForCleanup`, at the top of the loop -/
  | acquire
  /-- with the content lock, before the buffer header is looked at -/
  | check
  /-- the flag is set, the content lock is still held -/
  | unlock
  /-- in `ProcWaitForSignal` -/
  | wait
  /-- in `UnpinBuffer`, before `ProcSendSignal` -/
  | signal (waitBackendPid : Option P)
  deriving DecidableEq

structure State (P : Type*) where
  refcount : Nat
  /-- `BM_PIN_COUNT_WAITER` of `flags` -/
  pinCountWaiter : Bool
  waitBackendPid : Option P
  privateRefCount : P → Nat
  contentLock : P → Option LWLockMode
  /-- `PinCountWaitBuf` is this buffer -/
  pinCountWaitBuf : P → Bool
  sem : P → Nat
  pc : P → Pc P

inductive Event (P : Type*)
  | pinBuffer (p : P)
  | unpinBuffer (p : P)
  | procSendSignal (p : P)
  | lockBuffer (p : P) (mode : LWLockMode)
  | unlockBuffer (p : P)
  | lockBufferForCleanup (p : P)
  | checkRefcount (p : P)
  | wakeUp (p : P)
  /-- a cancel or die interrupt while waiting -/
  | interrupt (p : P)
  /-- a wake-up meant for something else -/
  | leftover (p : P)

def State.init {P : Type*} : State P where
  refcount := 0
  pinCountWaiter := false
  waitBackendPid := none
  privateRefCount := fun _ => 0
  contentLock := fun _ => none
  pinCountWaitBuf := fun _ => false
  sem := fun _ => 0
  pc := fun _ => .idle

variable {P : Type*} [DecidableEq P]

variable (s : State P)

namespace State

def goto (p : P) (pc : Pc P) : State P := { s with pc := update s.pc p pc }

def post (p : P) : State P := { s with sem := update s.sem p (s.sem p + 1) }

def unlockBuffer (p : P) : State P :=
  { s with contentLock := update s.contentLock p none }

/-- At the end of a transaction that failed. -/
def unlockBuffers (p : P) : State P :=
  { s with
    pinCountWaiter := s.pinCountWaiter && !(s.pinCountWaitBuf p && s.waitBackendPid == some p)
    pinCountWaitBuf := update s.pinCountWaitBuf p false }

def pinBuffer (p : P) : State P :=
  { s with
    refcount := if s.privateRefCount p = 0 then s.refcount + 1 else s.refcount
    privateRefCount := update s.privateRefCount p (s.privateRefCount p + 1) }

def unpinBuffer (p : P) : State P :=
  let t := { s with privateRefCount := update s.privateRefCount p (s.privateRefCount p - 1) }
  if s.privateRefCount p = 1 then
    let t := { t with refcount := s.refcount - 1 }
    -- the last pin other than the waiter's
    if s.pinCountWaiter ∧ t.refcount = 1 then
      { t with pinCountWaiter := false }.goto p (.signal s.waitBackendPid)
    else t
  else t

/-- What `LockBufferForCleanup` does under the buffer header lock. -/
def checkRefcount (p : P) : State P :=
  if s.refcount = 1 then s.goto p .idle
  else if s.pinCountWaiter then
    -- "multiple backends attempting to wait for pincount 1"
    ((s.unlockBuffer p).unlockBuffers p).goto p .idle
  else
    { s with
      waitBackendPid := some p
      pinCountWaiter := true
      pinCountWaitBuf := update s.pinCountWaitBuf p true }.goto p .unlock

end State

open State

variable [Fintype P]

/-- `LWLockAcquire` of the content lock can be granted. -/
def State.Free (s : State P) (p : P) (mode : LWLockMode) : Prop :=
  s.contentLock p = none ∧ ∀ q, s.contentLock q = none ∨ s.contentLock q = mode ∧ mode = .shared

instance (s : State P) (p : P) (mode : LWLockMode) : Decidable (s.Free p mode) :=
  inferInstanceAs (Decidable (_ ∧ _))

def step (s : State P) : Event P → Option (State P)
  | .pinBuffer p => if s.pc p = .idle then some (s.pinBuffer p) else none
  | .unpinBuffer p =>
    if s.pc p = .idle ∧ 0 < s.privateRefCount p ∧ (s.privateRefCount p = 1 → s.contentLock p = none)
    then some (s.unpinBuffer p) else none
  | .procSendSignal p =>
    match s.pc p with
    | .signal (some q) => some ((s.post q).goto p .idle)
    | .signal none => some (s.goto p .idle)
    | _ => none
  | .lockBuffer p mode =>
    if s.Free p mode then
      let t := { s with contentLock := update s.contentLock p (some mode) }
      if s.pc p = .idle then some t
      else if s.pc p = .acquire ∧ mode = .exclusive then some (t.goto p .check) else none
    else none
  | .unlockBuffer p =>
    if s.pc p = .idle then some (s.unlockBuffer p)
    else if s.pc p = .unlock then some ((s.unlockBuffer p).goto p .wait) else none
  | .lockBufferForCleanup p =>
    -- with another count the call ends at once with "incorrect local pin count"
    if s.pc p = .idle ∧ s.privateRefCount p = 1 then some (s.goto p .acquire) else none
  | .checkRefcount p => if s.pc p = .check then some (s.checkRefcount p) else none
  | .wakeUp p =>
    if s.pc p = .wait ∧ 0 < s.sem p then
      some ({ s with
        sem := update s.sem p (s.sem p - 1)
        pinCountWaitBuf := update s.pinCountWaitBuf p false }.goto p .acquire)
    else none
  | .interrupt p => if s.pc p = .wait then some ((s.unlockBuffers p).goto p .idle) else none
  | .leftover p => some (s.post p)

end PrlPg.BufMgr
