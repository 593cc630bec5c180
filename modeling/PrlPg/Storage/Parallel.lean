/-
The records a master shares with its workers (storage/parallel.h).

For every worker it asks for, the master allocates a `WorkDef`, a `Worker` and a
`BufferQueue` that point at each other and live and die together, so the model
keeps them in one record, a `Slot`.  The slot also holds the point the worker
process has reached, because that process is the only other user of the record.

Three fields are no part of the source.  `log` lists the operations applied to the
queue, `seen` says whether the last value written to `state` has been read by the
side that did not write it, and `pc` is where the worker process stands.
-/
import PrlPg.Storage.BufferQueue

namespace PrlPg

/-- `PRL_WORKER_STATE`. -/
inductive WorkerState
  | none | initial | ready | working | finished | finishedAck | ended | canceled | dead
  deriving DecidableEq, Repr

/-- `PRL_WORK_TYPE`, without the built-in test job. -/
inductive WorkType
  | sort | query | ended
  deriving DecidableEq, Repr

/-- The two writers of `Worker.state`. -/
inductive Side
  | master | worker
  deriving DecidableEq, Repr

/-- Which side writes a state. -/
def WorkerState.writer : WorkerState → Side
  | none | ready | finishedAck => .master
  | initial | working | finished | ended | canceled | dead => .worker

/-- What has been done to a queue; `destroy` keeps the number of cells left in it. -/
inductive QueueOp
  | create | add | get | setStop | getNoSem
  | destroy (left : Nat)
  deriving DecidableEq, Repr

/-- Where a worker process stands in `slaveBackendMain`, `doSort` or `doQuery`. -/
inductive WorkerPc (α : Type*)
  /-- not forked yet -/
  | absent
  /-- taken by the postmaster or forked, `worker->valid` not set yet -/
  | starting
  /-- in `waitForState(worker, READY)` -/
  | waitReady
  /-- `READY` seen, about to look at `work->workType` -/
  | dispatch
  /-- the receive loop of `doSort`, with the tuples put so far -/
  | recv (got : List α)
  /-- the end marker received, about to sort and to announce `FINISHED` -/
  | performsort (got : List α)
  /-- `FINISHED` announced, about to log it -/
  | finishedLog (run : List α)
  /-- in `waitForState(worker, FINISHED_ACK)` -/
  | waitAck (run : List α)
  /-- the send loop of `doSort` or of `ExecPrlSend`, with the tuples still to send -/
  | send (rest : List α)
  /-- the job done, about to announce `END` -/
  | setEnded
  /-- left the job loop, about to announce `DEAD` -/
  | setDead
  /-- an error was raised, about to announce `CANCELED` -/
  | failing
  | exited
  deriving DecidableEq, Repr

/-- A `Worker` with its `WorkDef`, its queue and its process. -/
structure Slot (α : Type*) where
  /-- `worker->valid` -/
  valid : Bool
  /-- `worker->state` -/
  state : WorkerState
  /-- `work->new` -/
  new : Bool
  /-- `work->workType` -/
  workType : WorkType
  /-- the position of the plan copied to `work->workParams->queryParams->subnode` -/
  subnode : Option Nat
  /-- `work->workParams->bufferQueue` -/
  bufferQueue : BufferQueue α
  /-- a member of the master's `workersList` -/
  inWorkersList : Bool
  /-- the `WorkDef` is a member of `prlJobsList` -/
  inJobsList : Bool
  pc : WorkerPc α
  seen : Bool
  log : List QueueOp
  deriving Repr

namespace Slot

variable {α : Type*}

/-- What stands for a worker that has not been asked for. -/
def unused : Slot α :=
  { valid := false, state := .none, new := false, workType := .sort, subnode := none,
    bufferQueue := PrlPg.createBufferQueue 0, inWorkersList := false, inJobsList := false,
    pc := .absent, seen := false, log := [] }

/-- The records of one worker as `ExecSort` and `ExecAppend` set them up. -/
def create (workType : WorkType) (subnode : Option Nat) (queueSize : Nat) : Slot α :=
  { valid := false, state := .none, new := true, workType := workType, subnode := subnode,
    bufferQueue := PrlPg.createBufferQueue queueSize, inWorkersList := true, inJobsList := true,
    pc := .absent, seen := false, log := [.create] }

variable (w : Slot α)

/-- Write `worker->state`. -/
def put (st : WorkerState) : Slot α := { w with state := st, seen := false }

/-- Read `worker->state`. -/
def look (side : Side) : Slot α :=
  { w with seen := w.seen || decide (w.state.writer ≠ side) }

/-- `bufferQueueAdd` on the worker's queue. -/
def bufferQueueAdd (cell : BufferQueueCell α) (stopOnLast : Bool) :
    Option (Slot α × Bool) :=
  (PrlPg.bufferQueueAdd w.bufferQueue cell stopOnLast).map fun r =>
    ({ w with bufferQueue := r.1, log := w.log ++ [.add] }, r.2)

/-- `bufferQueueGet` with `wait` set on the worker's queue. -/
def bufferQueueGet : Option (BufferQueueCell α × Slot α) :=
  (PrlPg.bufferQueueGet w.bufferQueue).map fun r =>
    (r.1, { w with bufferQueue := r.2, log := w.log ++ [.get] })

/-- `bufferQueueGet` with `wait` unset on the worker's queue. -/
def bufferQueueGetNoWait : Option (BufferQueueCell α) × Slot α :=
  let r := PrlPg.bufferQueueGetNoWait w.bufferQueue
  (r.1, { w with bufferQueue := r.2, log := w.log ++ [.get] })

/-- `bufferQueueSetStop` on the worker's queue. -/
def bufferQueueSetStop (newStop : Bool) : Slot α × Bool :=
  let r := PrlPg.bufferQueueSetStop w.bufferQueue newStop
  ({ w with bufferQueue := r.1, log := w.log ++ [.setStop] }, r.2)

/-- The clean-up loop: `bufferQueueGetNoSem` until it returns `NULL`. -/
def drain : Slot α :=
  let r := PrlPg.bufferQueueDrain (w.bufferQueue.cells.length + 1) w.bufferQueue
  { w with bufferQueue := r.1, log := w.log ++ List.replicate r.2 .getNoSem }

/-- `destroyBufferQueue`: the semaphores go back to the pool and the queue is freed.
What the freed memory holds is left as it was. -/
def destroyBufferQueue : Slot α :=
  { w with log := w.log ++ [.destroy w.bufferQueue.cells.length] }

/-- Taken off `prlJobsList` and off `workersList`. -/
def unlist : Slot α := { w with inWorkersList := false, inJobsList := false }

end Slot

end PrlPg
