/-
The pool of semaphores that the queues are made of (storage/lmgr/parallel.c).

A call that does not return, because `PrlSemLock` is held for ever or a semaphore is zero, has
no result.  A FATAL error ends the process at the `ereport`: what the source has behind it, the
release of the spinlock, is not executed.
-/
import Mathlib.Logic.Function.Basic

namespace PrlPg.PrlSemas

/-- The boxes, numbered as in the array, and the header. -/
structure Shmem where
  /-- `links.next` of a box -/
  next : Nat → Option Nat
  /-- the count of the semaphore in a box -/
  sem : Nat → Nat
  freeSems : Option Nat
  prlSemLock : Bool

/-- The semaphores of a queue. -/
structure BufferQueue where
  spaces : Nat
  items : Nat
  mutex : Nat
  deriving DecidableEq, Repr

namespace Shmem

/-- `box->links.next = freeSems; freeSems = box`. -/
def push (m : Shmem) (box : Nat) : Shmem :=
  { m with next := Function.update m.next box m.freeSems, freeSems := some box }

/-- `box = freeSems; freeSems = box->links.next`. -/
def pop (m : Shmem) : Option (Nat × Shmem) :=
  m.freeSems.map fun box => (box, { m with freeSems := m.next box })

end Shmem

/-- The loop of `InitPrlSemas`; `PGSemaphoreCreate` makes a semaphore with count 1. -/
def initPrlSemas : Nat → Shmem
  | 0 => { next := fun _ => none, sem := fun _ => 0, freeSems := none, prlSemLock := false }
  | i + 1 => { (initPrlSemas i).push i with sem := Function.update (initPrlSemas i).sem i 1 }

/-- Take three semaphores, one after the other; an error leaves the memory as it is then. -/
def takeSems (m : Shmem) : Except Shmem (BufferQueue × Shmem) :=
  match m.pop with
  | none => .error m
  | some (spaces, m₁) =>
    match m₁.pop with
    | none => .error m₁
    | some (items, m₂) =>
      match m₂.pop with
      | none => .error m₂
      | some (mutex, m₃) => .ok (⟨spaces, items, mutex⟩, m₃)

/-- How a call of `createBufferQueue` ends. -/
inductive Created
  | queue (bq : BufferQueue)
  /-- `ERRCODE_TOO_MANY_CONNECTIONS`, "sorry, too many semaphores used already in parallel
  execution" -/
  | fatal

def createBufferQueue (bufferSize : Int) (m : Shmem) : Option (Created × Shmem) :=
  if m.prlSemLock then none
  else
    match takeSems { m with prlSemLock := true } with
    | .error m => some (.fatal, m)
    | .ok (bq, m) =>
      let sem := Function.update m.sem bq.spaces (m.sem bq.spaces + (bufferSize - 1).toNat)
      match sem bq.items with
      | 0 => none
      | n + 1 =>
        some (.queue bq, { m with prlSemLock := false, sem := Function.update sem bq.items n })

/-- Each semaphore is reset to 0 and unlocked once. -/
def destroyBufferQueue (bq : BufferQueue) (m : Shmem) : Option Shmem :=
  if m.prlSemLock then none
  else
    let sem := Function.update (Function.update (Function.update m.sem bq.items (0 + 1)) bq.mutex
      (0 + 1)) bq.spaces (0 + 1)
    some ((({ m with sem := sem }.push bq.items).push bq.mutex).push bq.spaces)

/-! ### Histories -/

/-- The memory and the live queues. -/
structure State where
  shmem : Shmem
  queues : List BufferQueue

def BufferQueue.boxes (bq : BufferQueue) : List Nat := [bq.spaces, bq.items, bq.mutex]

def State.owned (s : State) : List Nat := s.queues.flatMap BufferQueue.boxes

def State.init (maxPrlSems : Nat) : State := ⟨initPrlSemas maxPrlSems, []⟩

/-- A call, or the use of a queue, which gives one of its semaphores some other count. -/
inductive Event
  | create (bufferSize : Int)
  | destroy (i : Nat)
  | use (box count : Nat)
  deriving DecidableEq, Repr

def step (s : State) : Event → Option State
  | .create bufferSize =>
    match createBufferQueue bufferSize s.shmem with
    | none => none
    | some (.queue bq, m) => some ⟨m, bq :: s.queues⟩
    | some (.fatal, m) => some ⟨m, s.queues⟩
  | .destroy i =>
    match s.queues[i]? with
    | none => none
    | some bq => (destroyBufferQueue bq s.shmem).map fun m => ⟨m, s.queues.eraseIdx i⟩
  | .use box count =>
    if box ∈ s.owned then
      some { s with shmem := { s.shmem with sem := Function.update s.shmem.sem box count } }
    else none

end PrlPg.PrlSemas
