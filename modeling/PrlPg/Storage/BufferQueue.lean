/-
The shared-memory queue between a master and its workers (storage/lmgr/parallel.c).

Two levels.  The first is the queue as its callers see it: a bounded list of cells
and a stop flag, with one function per routine; `none` means that the caller stays
blocked on a semaphore.  The job model is built from these functions.

The second is the code itself: three counting semaphores, a linked list threaded
through cells that the callers allocate, and for every process in one of the
routines the point it has reached.  One event is one semaphore operation, or the
body of a critical section, so every interleaving of the semaphore operations of
any number of processes is a list of events.
-/
import Mathlib.Data.Fintype.Pi
import PrlPg.Lib.Run

namespace PrlPg

/-- What a cell carries: a tuple, or the marker that the sender is done. -/
inductive BufferQueueCell (α : Type*)
  | tuple (ptrValue : α)
  | last
  deriving DecidableEq, Repr

namespace BufferQueueCell

variable {α : Type*}

def isLast : BufferQueueCell α → Bool
  | tuple _ => false
  | last => true

/-- The tuples of a list of cells, end markers left out. -/
def tuples (cells : List (BufferQueueCell α)) : List α :=
  cells.filterMap fun
    | tuple t => some t
    | last => none

end BufferQueueCell

/-! ### The queue as its callers see it -/

/-- The queue: its capacity, its cells from head to tail, and the stop flag. -/
structure BufferQueue (α : Type*) where
  initSize : Nat
  cells : List (BufferQueueCell α)
  stop : Bool
  deriving Repr

variable {α : Type*}

/-- A fresh queue: room for `bufferSize` cells, nothing in it, not stopped. -/
def createBufferQueue (bufferSize : Nat) : BufferQueue α :=
  { initSize := bufferSize, cells := [], stop := false }

variable (bq : BufferQueue α)

/-- Append a cell and report the stop flag; blocked while no space is left. -/
def bufferQueueAdd (cell : BufferQueueCell α) (stopOnLast : Bool) :
    Option (BufferQueue α × Bool) :=
  if bq.cells.length < bq.initSize then
    let stop := bq.stop || (stopOnLast && cell.isLast)
    some ({ bq with cells := bq.cells ++ [cell], stop := stop }, stop)
  else none

/-- Take the head cell, with `wait` set: blocked while the queue is empty. -/
def bufferQueueGet : Option (BufferQueueCell α × BufferQueue α) :=
  match bq.cells with
  | [] => none
  | cell :: rest => some (cell, { bq with cells := rest })

/-- Take the head cell with `wait` unset: an empty queue gives `NULL` at once. -/
def bufferQueueGetNoWait : Option (BufferQueueCell α) × BufferQueue α :=
  match bq.cells with
  | [] => (none, bq)
  | cell :: rest => (some cell, { bq with cells := rest })

/-- Take the head cell without touching a semaphore; `NULL` when there is none. -/
def bufferQueueGetNoSem : Option (BufferQueueCell α) × BufferQueue α :=
  match bq.cells with
  | [] => (none, bq)
  | cell :: rest => (some cell, { bq with cells := rest })

/-- Call `bufferQueueGetNoSem` until it returns `NULL`, and count the calls. -/
def bufferQueueDrain : Nat → BufferQueue α → BufferQueue α × Nat
  | 0, bq => (bq, 0)
  | fuel + 1, bq =>
    match bufferQueueGetNoSem bq with
    | (none, bq') => (bq', 1)
    | (some _, bq') => ((bufferQueueDrain fuel bq').1, (bufferQueueDrain fuel bq').2 + 1)

/-- Set the stop flag and return its old value. -/
def bufferQueueSetStop (newStop : Bool) : BufferQueue α × Bool :=
  ({ bq with stop := newStop }, bq.stop)

/-! ### The queue as it is coded -/

namespace Sem

/-- Where a cell lives in shared memory. -/
abbrev Addr := Nat

/-- The `BufferQueue` struct, its three semaphores and the memory of the cells. -/
structure Shared (α : Type*) where
  initSize : Nat
  size : Int
  stop : Bool
  head : Option Addr
  tail : Option Addr
  spaces : Nat
  items : Nat
  mutex : Nat
  next : Addr → Option Addr
  value : Addr → BufferQueueCell α

/-- `createBufferQueue` on three semaphores with the given values: `spaces` is posted
`bufferSize - 1` times and `items` is locked once. -/
def createBufferQueue (bufferSize spaces items mutex : Nat) (next : Addr → Option Addr)
    (value : Addr → BufferQueueCell α) : Option (Shared α) :=
  match items with
  | 0 => none
  | items + 1 =>
    some { initSize := bufferSize, size := 0, stop := false, head := none, tail := none,
           spaces := spaces + (bufferSize - 1), items := items, mutex := mutex,
           next := next, value := value }

/-- What a routine has returned to its caller. -/
inductive Result
  | nothing
  | flag (result : Bool)
  | cell (result : Option Addr)
  deriving DecidableEq

/-- Where a process stands; each point names the operation that comes next. -/
inductive Pc
  | out (result : Result)
  | addSpaces (cell : Addr) (stopOnLast : Bool)
  | addMutex (cell : Addr) (stopOnLast : Bool)
  | addLink (cell : Addr) (stopOnLast : Bool)
  | addUnlock (result : Bool)
  | addPost (result : Bool)
  | probeMutex
  | probeSize
  | probeUnlock (empty : Bool)
  | getItems
  | getMutex
  | getUnlink
  | getUnlock (result : Addr)
  | getPost (result : Addr)
  /-- Returned `NULL` because `head` was `NULL`, the mutex still held. -/
  | getAbandoned
  | stopMutex (newStop : Bool)
  | stopSet (newStop : Bool)
  | stopUnlock (result : Bool)
  deriving DecidableEq

/-- The cell a process has in its hands: about to be linked, or just unlinked. -/
def Pc.holds : Pc → Option Addr
  | addSpaces cell _ | addMutex cell _ | addLink cell _ => some cell
  | getUnlock cell | getPost cell => some cell
  | _ => none

/-- The cells met on the way from `p` along the `next` pointers. -/
def walk (next : Addr → Option Addr) : Nat → Option Addr → List Addr
  | 0, _ => []
  | _ + 1, none => []
  | n + 1, some a => a :: walk next n (next a)

/-- Link a cell at the tail.  The source tells an empty queue, a queue of one cell and
a longer one apart; the middle case reaches the old tail through `head`. -/
def linkCell (sh : Shared α) (cell : Addr) : Shared α :=
  match sh.tail with
  | none =>
    { sh with head := some cell, tail := some cell, next := Function.update sh.next cell none }
  | some t =>
    let old := if sh.head = some t then sh.head.getD t else t
    { sh with tail := some cell,
              next := Function.update (Function.update sh.next old (some cell)) cell none }

/-- The critical section of `bufferQueueAdd`, with the flag it returns. -/
def link (sh : Shared α) (cell : Addr) (stopOnLast : Bool) : Shared α × Bool :=
  let stop := sh.stop || (stopOnLast && (sh.value cell).isLast)
  ({ linkCell sh cell with size := sh.size + 1, stop := stop }, stop)

/-- Unlink the head cell. -/
def unlink (sh : Shared α) (h : Addr) : Shared α :=
  { sh with head := sh.next h, tail := if sh.next h = none then none else sh.tail,
            size := sh.size - 1 }

/-- All processes: the queue, where each one stands, and what went in and came out. -/
structure State (α P : Type*) where
  shared : Shared α
  pc : P → Pc
  /-- Cells linked so far, in order. -/
  inserted : List Addr
  /-- Cells unlinked so far, in order. -/
  handed : List Addr

/-- A call of one of the three routines. -/
inductive Call (α : Type*)
  | add (cell : Addr) (value : BufferQueueCell α) (stopOnLast : Bool)
  | get (wait : Bool)
  | setStop (newStop : Bool)

/-- A process calls a routine, or a process in a routine takes its next step. -/
inductive Event (α P : Type*)
  | call (p : P) (c : Call α)
  | tick (p : P)

variable {P : Type*} [DecidableEq P]

/-- Process `p` moves to point `pc`. -/
def State.goto (s : State α P) (p : P) (pc : Pc) : State α P :=
  { s with pc := Function.update s.pc p pc }

/-- Process `p` moves to point `pc` and leaves the queue as `sh`. -/
def State.write (s : State α P) (p : P) (pc : Pc) (sh : Shared α) : State α P :=
  { s with pc := Function.update s.pc p pc, shared := sh }

/-- `PGSemaphoreLock`: go on to `pc` with one unit taken, if there is one. -/
def State.lock (s : State α P) (p : P) (pc : Pc) (count : Nat) (taken : Nat → Shared α) :
    Option (State α P) :=
  match count with
  | 0 => none
  | count + 1 => some (s.write p pc (taken count))

/-- The next step of a process that is inside a routine. -/
def tick (s : State α P) (p : P) : Option (State α P) :=
  let sh := s.shared
  match s.pc p with
  | .out _ | .getAbandoned => none
  | .addSpaces cell sol => s.lock p (.addMutex cell sol) sh.spaces fun n => { sh with spaces := n }
  | .addMutex cell sol => s.lock p (.addLink cell sol) sh.mutex fun n => { sh with mutex := n }
  | .addLink cell sol =>
    let (sh', result) := link sh cell sol
    some { s.write p (.addUnlock result) sh' with inserted := s.inserted ++ [cell] }
  | .addUnlock result => some (s.write p (.addPost result) { sh with mutex := sh.mutex + 1 })
  | .addPost result => some (s.write p (.out (.flag result)) { sh with items := sh.items + 1 })
  | .probeMutex => s.lock p .probeSize sh.mutex fun n => { sh with mutex := n }
  | .probeSize => some (s.goto p (.probeUnlock (sh.size = 0)))
  | .probeUnlock empty =>
    some (s.write p (if empty then .out (.cell none) else .getItems)
      { sh with mutex := sh.mutex + 1 })
  | .getItems => s.lock p .getMutex sh.items fun n => { sh with items := n }
  | .getMutex => s.lock p .getUnlink sh.mutex fun n => { sh with mutex := n }
  | .getUnlink =>
    match sh.head with
    | none => some (s.goto p .getAbandoned)
    | some h => some { s.write p (.getUnlock h) (unlink sh h) with handed := s.handed ++ [h] }
  | .getUnlock result => some (s.write p (.getPost result) { sh with mutex := sh.mutex + 1 })
  | .getPost result =>
    some (s.write p (.out (.cell (some result))) { sh with spaces := sh.spaces + 1 })
  | .stopMutex new => s.lock p (.stopSet new) sh.mutex fun n => { sh with mutex := n }
  | .stopSet new => some (s.write p (.stopUnlock sh.stop) { sh with stop := new })
  | .stopUnlock result => some (s.write p (.out (.flag result)) { sh with mutex := sh.mutex + 1 })

/-- Memory a caller may allocate a cell in: no queue cell, and in no process's hands. -/
def Fresh [Fintype P] (s : State α P) (cell : Addr) : Prop :=
  cell ∉ walk s.shared.next s.shared.size.toNat s.shared.head ∧ ∀ p, (s.pc p).holds ≠ some cell

instance [Fintype P] (s : State α P) (cell : Addr) : Decidable (Fresh s cell) :=
  inferInstanceAs (Decidable (_ ∧ _))

/-- One event. -/
def step [Fintype P] (s : State α P) : Event α P → Option (State α P)
  | .tick p => tick s p
  | .call p c =>
    match s.pc p with
    | .out _ =>
      match c with
      | .add cell value stopOnLast =>
        if Fresh s cell then
          some (s.write p (.addSpaces cell stopOnLast)
            { s.shared with value := Function.update s.shared.value cell value })
        else none
      | .get wait => some (s.goto p (if wait then .getItems else .probeMutex))
      | .setStop newStop => some (s.goto p (.stopMutex newStop))
    | _ => none

/-- Nobody in a routine, nothing linked yet. -/
def init (sh : Shared α) : State α P :=
  { shared := sh, pc := fun _ => .out .nothing, inserted := [], handed := [] }

end Sem

end PrlPg
