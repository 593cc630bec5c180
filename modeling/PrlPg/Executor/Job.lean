/-
A parallel Sort or Append node: the master process, its workers and the postmaster.

The master's program is the body of `ExecSort`/`ExecEndSort` (executor/nodeSort.c) or
of `ExecAppend`/`ExecEndAppend` (executor/nodeAppend.c), with the routines of
storage/lmgr/parallel.c it calls and, after an error, the recovery sequence of
`PostgresMain` (tcop/postgres.c).  Every loop over `workersList` is cut after each
worker, and every queue operation is a step of its own, so between any two of them
every worker may move.

An event says who moves next: the master, the executor above it (which asks for a
tuple or ends the node), a worker, the postmaster, or an error.  `step` gives the
state an event leads to, `none` when it is impossible.  The workers of the job are
numbered in the order they were created in, which is their order in `workersList`.
The list holds the workers of one node only.
-/
import PrlPg.Postmaster.SlaveWorker
import PrlPg.Utils.TupleSort

namespace PrlPg

variable {α : Type*}

/-- The plan node, with what its subplans return. -/
inductive Node (α : Type*)
  | sort (outer : List α)
  | append (subplans : List (List α))

/-- The node, the settings it runs under and the sorting primitives it relies on. -/
structure Job (α : Type*) where
  node : Node α
  /-- `prl_sort_dop` for a Sort, `prl_sql_lvl` for an Append -/
  level : Nat
  /-- `parallel_shared_queue_size` -/
  queueSize : Nat
  /-- what the tuplesort of worker `i` returns for the tuples put into it -/
  localSort : Nat → List α → List α
  comparetup : α → α → Int

variable (job : Job α)

namespace Job

def isSort : Bool :=
  match job.node with
  | .sort _ => true
  | .append _ => false

/-- The work a fresh worker is given. -/
def workType : WorkType := if job.isSort then .sort else .query

/-- The tuples of the outer plan of a Sort. -/
def outer : List α :=
  match job.node with
  | .sort outer => outer
  | .append _ => []

/-- `as_nplans`, with the plans. -/
def subplans : List (List α) :=
  match job.node with
  | .sort _ => []
  | .append subplans => subplans

/-- The number of workers asked for. -/
def workersCnt : Nat :=
  match job.node with
  | .sort _ => job.level
  | .append subplans => if subplans.length ≤ job.level then subplans.length else job.level

/-- What the plan copied to a worker returns. -/
def rows : Option Nat → List α
  | none => []
  | some p => job.subplans.getD p []

end Job

/-- The states the master waits for with `waitForWorkers`. -/
inductive Barrier
  | initial | finished | ended | dead
  deriving DecidableEq, Repr

def Barrier.state : Barrier → WorkerState
  | initial => .initial
  | finished => .finished
  | ended => .ended
  | dead => .dead

/-- The two calls of `stateTransition`. -/
inductive HandOver
  | start | ack
  deriving DecidableEq, Repr

def HandOver.old : HandOver → WorkerState
  | start => .initial
  | ack => .finished

def HandOver.new : HandOver → WorkerState
  | start => .ready
  | ack => .finishedAck

/-- Where the master stands. -/
inductive MasterPc (α : Type*)
  /-- the loop that sets up worker `i` -/
  | create (i : Nat)
  /-- in `waitForWorkers`, worker `k` next, `readyCnt` counted in this pass -/
  | wait (b : Barrier) (k readyCnt : Nat)
  /-- in `registerWorkers` -/
  | register (k : Nat)
  /-- in `stateTransition` -/
  | transition (h : HandOver) (k : Nat)
  /-- `distributeToWorker` with the next tuple of the outer plan -/
  | distribute
  /-- `distributeToWorker` with `last` set, worker `i` next -/
  | distributeLast (i : Nat)
  /-- in `prepareForMerge` -/
  | prepare (cw : Nat)
  /-- at the start of `tuplesort_gettupleslot_from_worker` -/
  | getTuple
  /-- in it, with the tuple to return, before `bufferQueueGet` -/
  | fetch (stup : SortTuple α)
  /-- the node has returned to its caller -/
  | idle
  /-- the fetch loop of `ExecAppend` -/
  | poll (i : Int)
  /-- in it, in `waitForState(worker, END)` -/
  | waitState (i : Nat)
  /-- in it, about to give the worker its next plan -/
  | assign (i : Nat)
  /-- the stop loop of `ExecEndSort`/`ExecEndAppend` -/
  | stopScan (k : Nat)
  /-- in it, the spinlock of worker `k` held, before `bufferQueueGet` -/
  | stopGet (k : Nat)
  /-- the loop that prepares the ending task -/
  | destroyScan (k : Nat)
  /-- the loop that releases everything -/
  | releaseScan (k : Nat)
  | closed
  /-- recovery: in `cancelWorkers` -/
  | cancel (k : Nat)
  /-- recovery: in `waitForAllWorkers` -/
  | waitAll (k : Nat) (notEnd : Bool)
  /-- recovery: in `cleanup` -/
  | cleanup (k : Nat)
  /-- recovery done, `ShmMessageContext` reset -/
  | recovered
  /-- the semaphore pool ran dry -/
  | fatal
  deriving DecidableEq, Repr

/-- The whole system. -/
structure State (α : Type*) where
  pc : MasterPc α
  slots : Nat → Slot α
  /-- what the outer plan has still to return -/
  input : List α
  /-- the array `registerWorkers` fills -/
  workers : List Nat
  lastWorker : Int
  merge : Merge α
  /-- `pas->worksDone` -/
  worksDone : Nat
  /-- the counter `j` of the assignment loop of `ExecAppend` -/
  planCounter : Nat
  /-- the plans given to workers, in order -/
  given : List Nat
  /-- the tuples the node has returned -/
  returned : List α
  /-- whether the node has returned an empty slot -/
  eof : Bool
  /-- the length of `freeSems` -/
  freeSems : Nat
  /-- the workers whose pid is on `workersToCancel` -/
  toCancel : List Nat
  /-- the workers with a cancel request they have not served -/
  cancelPending : List Nat
  /-- the worker whose spinlock the master held when an error took it away -/
  left : Option Nat
  /-- whether it held the one of `workersList` too -/
  listLeft : Bool

inductive Event
  | master | fetch | endNode | abort
  | worker (i : Nat) | fail (i : Nat) (fatal : Bool) | interrupt (i : Nat) | fork (i : Nat)
  | deliverCancel
  deriving DecidableEq, Repr

namespace State

/-- Replace the record of worker `i`. -/
def set (s : State α) (i : Nat) (w : Slot α) : State α :=
  { s with slots := Function.update s.slots i w }

def goto (s : State α) (pc : MasterPc α) : State α := { s with pc := pc }

end State

/-- Before the first call of the node. -/
def init (freeSems : Nat) : State α :=
  { pc := .create 0, slots := fun _ => Slot.unused, input := job.outer, workers := [],
    lastWorker := -1, merge := Merge.begin, worksDone := job.workersCnt, planCounter := 0,
    given := [], returned := [], eof := false, freeSems := freeSems, toCancel := [],
    cancelPending := [], left := none, listLeft := false }

/-! ### Setting up -/

/-- `foreach(lc, appendplans) { if (j == i) { ...; break; } j++; }`: the plan found, and
the counter afterwards. -/
def walkPlans (i : Nat) : List Nat → Nat → Option Nat × Nat
  | [], j => (none, j)
  | p :: plans, j => if j = i then (some p, j) else walkPlans i plans (j + 1)

/-- One worker of the set-up loop.  The counter of the plan walk is not reset. -/
def createStep (s : State α) (i : Nat) : Option (State α) :=
  if i < job.workersCnt then
    if 3 ≤ s.freeSems then
      if job.isSort then
        some { s.set i (Slot.create .sort none job.queueSize) with
                 pc := .create (i + 1), freeSems := s.freeSems - 3 }
      else
        let r := walkPlans i (List.range job.subplans.length) s.planCounter
        some { s.set i (Slot.create .query r.1 job.queueSize) with
                 pc := .create (i + 1), freeSems := s.freeSems - 3, planCounter := r.2,
                 given := s.given ++ r.1.toList }
    else some (s.goto .fatal)
  else some (s.goto (.wait .initial 0 0))

/-! ### Routines of parallel.c -/

/-- A member of `workersList` that has come up. -/
def Slot.counts (w : Slot α) : Bool := w.inWorkersList && w.valid

/-- Where the master goes when a barrier is passed. -/
def Barrier.next : Barrier → MasterPc α
  | initial => .register 0
  | finished => .transition .ack 0
  | ended => .destroyScan 0
  | dead => .releaseScan 0

/-- `waitForWorkers`: one worker of a pass, or the end of a pass. -/
def waitForWorkers (s : State α) (b : Barrier) (k readyCnt : Nat) :
    Option (State α) :=
  if k < job.workersCnt then
    let w := s.slots k
    some ((s.set k (w.look .master)).goto
      (.wait b (k + 1) (if w.counts && w.state = b.state then readyCnt + 1 else readyCnt)))
  else if readyCnt = job.workersCnt then some (s.goto b.next)
  else some (s.goto (.wait b 0 0))

/-- Where the master goes after a `stateTransition`. -/
def HandOver.next (s : State α) : HandOver → MasterPc α
  | start => if job.isSort then .distribute else .poll s.lastWorker
  | ack => .prepare 0

/-- `stateTransition`. -/
def stateTransition (s : State α) (h : HandOver) (k : Nat) : Option (State α) :=
  if k < job.workersCnt then
    let w := (s.slots k).look .master
    some ((s.set k (if w.counts && w.state = h.old then w.put h.new else w)).goto
      (.transition h (k + 1)))
  else some (s.goto (h.next job s))

/-- `registerWorkers`. -/
def registerWorkers (s : State α) (k : Nat) : Option (State α) :=
  if k < job.workersCnt then
    let w := s.slots k
    some { s.set k (w.look .master) with
             pc := .register (k + 1),
             workers := if w.counts && w.state = .initial then s.workers ++ [k] else s.workers }
  else some { s with pc := .transition .start 0, lastWorker := -1 }

/-! ### Sort -/

/-- `(i + 1) % workersCnt`. -/
def nextWorker (i : Int) (workersCnt : Nat) : Nat := ((i + 1) % workersCnt).toNat

/-- `bufferQueueAdd` on the queue of the worker at position `i` of the array. -/
def addTo (s : State α) (i : Nat) (cell : BufferQueueCell α) : Option (State α) :=
  match s.workers[i]? with
  | none => none
  | some w => ((s.slots w).bufferQueueAdd cell false).map fun r => s.set w r.1

/-- `bufferQueueGet` with `wait` set on the queue of the worker at position `i`. -/
def getFrom (s : State α) (i : Nat) : Option (BufferQueueCell α × State α) :=
  match s.workers[i]? with
  | none => none
  | some w => ((s.slots w).bufferQueueGet).map fun r => (r.1, s.set w r.2)

/-- `distributeToWorker`, for a tuple. -/
def distributeToWorker (s : State α) : Option (State α) :=
  match s.input with
  | [] => some (s.goto (.distributeLast 0))
  | t :: rest =>
    let now := nextWorker s.lastWorker s.workers.length
    (addTo s now (.tuple t)).map fun s' => { s' with input := rest, lastWorker := now }

/-- `distributeToWorker`, for the end markers. -/
def distributeLast (s : State α) (i : Nat) : Option (State α) :=
  if i < s.workers.length then (addTo s i .last).map fun s' => s'.goto (.distributeLast (i + 1))
  else some (s.goto (.wait .finished 0 0))

/-- `prepareForMerge`. -/
def prepareForMerge (s : State α) (cw : Nat) : Option (State α) :=
  if cw < s.workers.length then
    (getFrom s cw).map fun r =>
      { r.2 with merge := r.2.merge.prepare job.comparetup cw r.1, pc := .prepare (cw + 1) }
  else some { s with merge := s.merge.prepared, pc := .getTuple }

/-- Return a tuple to the caller of the node. -/
def State.yield (s : State α) (t : α) : State α :=
  { s with returned := s.returned ++ [t], pc := .idle }

/-- `tuplesort_gettupleslot_from_worker` up to `bufferQueueGet`. -/
def gettupleslotFromWorker (s : State α) : Option (State α) :=
  if s.merge.isParallelEnded then some { s with eof := true, pc := .idle }
  else
    match s.merge.memtuples with
    | [] => none
    | stup :: _ =>
      let s' := { s with merge := s.merge.takeRoot job.comparetup }
      if s.merge.workersFinished stup.tupindex then some (s'.yield stup.tuple)
      else some (s'.goto (.fetch stup))

/-- The rest of it. -/
def fetchNext (s : State α) (stup : SortTuple α) : Option (State α) :=
  (getFrom s stup.tupindex).map fun r =>
    { r.2 with merge := r.2.merge.refill job.comparetup stup.tupindex r.1 }.yield stup.tuple

/-! ### Append -/

/-- One round of the fetch loop of `ExecAppend`. -/
def pollStep (s : State α) (i : Int) : Option (State α) :=
  if (List.range s.workers.length).all s.merge.workersFinished then
    some { s with eof := true, pc := .idle }
  else
    let i' := nextWorker i s.workers.length
    if s.merge.workersFinished i' then some (s.goto (.poll i'))
    else
      match s.workers[i']? with
      | none => none
      | some w =>
        let r := (s.slots w).bufferQueueGetNoWait
        let s' := s.set w r.2
        match r.1 with
        | none => some (s'.goto (.poll i'))
        | some .last =>
          if s.worksDone < job.subplans.length then some (s'.goto (.waitState i'))
          else some { s' with merge := s.merge.finish i', pc := .poll i' }
        | some (.tuple t) => some ({ s' with lastWorker := i' }.yield t)

/-- `waitForState(pas->workers[i], END)`. -/
def waitForEnd (s : State α) (i : Nat) : Option (State α) :=
  match s.workers[i]? with
  | none => none
  | some k =>
    let w := s.slots k
    if w.state = .ended then some ((s.set k (w.look .master)).goto (.assign i))
    else if w.state = .canceled then some ((s.set k (w.look .master)).goto (.cancel 0))
    else none

/-- Give the worker its next plan, under its spinlock. -/
def assignPlan (s : State α) (i : Nat) : Option (State α) :=
  match s.workers[i]? with
  | none => none
  | some k =>
    let r := walkPlans s.worksDone (List.range job.subplans.length) 0
    let w := { (s.slots k).put .ready with subnode := r.1 <|> (s.slots k).subnode }
    some { s.set k (w.bufferQueueSetStop false).1 with
             pc := .poll i, worksDone := s.worksDone + 1, given := s.given ++ r.1.toList,
             merge := { s.merge with
               workersFinished := Function.update s.merge.workersFinished i false } }

/-- The serial branch of `ExecAppend`, with what the plans from the current one on have
still to return: a tuple of the current plan, or, when it has none left, go on to the
next plan. -/
def serialAppendNext : List (List α) → Option (α × List (List α))
  | [] => none
  | [] :: plans => serialAppendNext plans
  | (t :: rows) :: plans => some (t, rows :: plans)

/-- What up to `calls` calls of the serial branch return. -/
def serialAppend (calls : Nat) (plans : List (List α)) : List α :=
  match calls with
  | 0 => []
  | calls + 1 =>
    match serialAppendNext plans with
    | none => []
    | some (t, plans) => t :: serialAppend calls plans

/-! ### Ending the node -/

/-- The stop loop, up to `bufferQueueGet`. -/
def stopStep (s : State α) (k : Nat) : Option (State α) :=
  if k < job.workersCnt then
    let w := (s.slots k).look .master
    if w.counts && w.state ≠ .ended then
      let r := w.bufferQueueSetStop true
      some ((s.set k r.1).goto (if r.2 then .stopScan (k + 1) else .stopGet k))
    else some ((s.set k w).goto (.stopScan (k + 1)))
  else some (s.goto (.wait .ended 0 0))

/-- Clear one value, so that a sender on a full queue can go on. -/
def stopGetStep (s : State α) (k : Nat) : Option (State α) :=
  some ((s.set k (s.slots k).bufferQueueGetNoWait.2).goto (.stopScan (k + 1)))

/-- The loop that prepares the ending task. -/
def destroyStep (s : State α) (k : Nat) : Option (State α) :=
  if k < job.workersCnt then
    let w := s.slots k
    if w.counts then
      some { s.set k { w.destroyBufferQueue.put .ready with workType := .ended } with
               pc := .destroyScan (k + 1), freeSems := s.freeSems + 3 }
    else some (s.goto (.destroyScan (k + 1)))
  else some (s.goto (.wait .dead 0 0))

/-- The loop that releases everything.  The queue was destroyed by the loop before. -/
def releaseStep (s : State α) (k : Nat) : Option (State α) :=
  if k < job.workersCnt then
    let w := s.slots k
    some ((s.set k (if w.counts then w.drain.unlist else w)).goto (.releaseScan (k + 1)))
  else some (s.goto .closed)

/-! ### Recovery after an error -/

/-- `cancelWorkers`.  The pid of a worker that is not up yet is whatever the memory
held, so no worker of the job is asked to cancel by it. -/
def cancelStep (s : State α) (k : Nat) : Option (State α) :=
  if k < job.workersCnt then
    some { s with pc := .cancel (k + 1),
                  toCancel := if (s.slots k).counts then s.toCancel ++ [k] else s.toCancel }
  else some (s.goto (.waitAll 0 false))

/-- `waitForAllWorkers(CANCELED)`.  Where it comes to a spinlock that the master itself still
holds it does not get on. -/
def waitForAllWorkers (s : State α) (k : Nat) (notEnd : Bool) : Option (State α) :=
  if k < job.workersCnt then
    if s.listLeft = true ∨ s.left = some k then none
    else
      let w := (s.slots k).look .master
      some ((s.set k w).goto
        (.waitAll (k + 1) (notEnd || (w.counts && w.state ≠ .canceled && w.state ≠ .ended))))
  else if notEnd then some (s.goto (.waitAll 0 false))
  else some (s.goto (.cleanup 0))

/-- `cleanup`, and the reset of `ShmMessageContext` at its end. -/
def cleanupStep (s : State α) (k : Nat) : Option (State α) :=
  if k < job.workersCnt then
    let w := s.slots k
    if w.inWorkersList then
      some { s.set k w.drain.destroyBufferQueue.unlist with
               pc := .cleanup (k + 1), freeSems := s.freeSems + 3 }
    else some (s.goto (.cleanup (k + 1)))
  else some (s.goto .recovered)

/-! ### The system -/

/-- The next step of the master. -/
def masterStep (s : State α) : Option (State α) :=
  match s.pc with
  | .create i => createStep job s i
  | .wait b k readyCnt => waitForWorkers job s b k readyCnt
  | .register k => registerWorkers job s k
  | .transition h k => stateTransition job s h k
  | .distribute => distributeToWorker s
  | .distributeLast i => distributeLast s i
  | .prepare cw => prepareForMerge job s cw
  | .getTuple => gettupleslotFromWorker job s
  | .fetch stup => fetchNext job s stup
  | .poll i => pollStep job s i
  | .waitState i => waitForEnd s i
  | .assign i => assignPlan job s i
  | .stopScan k => stopStep job s k
  | .stopGet k => stopGetStep s k
  | .destroyScan k => destroyStep job s k
  | .releaseScan k => releaseStep job s k
  | .cancel k => cancelStep job s k
  | .waitAll k notEnd => waitForAllWorkers job s k notEnd
  | .cleanup k => cleanupStep job s k
  | .idle | .closed | .recovered | .fatal => none

/-- The points at which an error or an interrupt can take the master out of the node with no
spinlock held: while it sets up, at the end of a pass of `waitForWorkers` over its `n` workers,
while it uses a queue, or while other nodes run. -/
def MasterPc.canAbort (n : Nat) : MasterPc α → Bool
  | .create _ | .distribute | .distributeLast _ | .prepare _ | .fetch _ | .idle | .poll _ => true
  | .wait _ k _ => k == n
  | _ => false

/-- An error or an interrupt in the master.  `ExecAppend` and `ExecEndAppend` can be interrupted
on the semaphore of a queue while they hold the spinlock of the worker, when the worker has just
been given its next plan or is about to be stopped; `ExecEndSort` holds interrupts off there. -/
def abortStep (s : State α) : Option (State α) :=
  match s.pc with
  | .assign i =>
    match s.workers[i]? with
    | none => none
    | some k =>
      let r := walkPlans s.worksDone (List.range job.subplans.length) 0
      some { s.set k { (s.slots k).put .ready with subnode := r.1 <|> (s.slots k).subnode } with
               pc := .cancel 0, worksDone := s.worksDone + 1, given := s.given ++ r.1.toList,
               left := some k }
  | .stopScan k =>
    if job.isSort = false ∧ k < job.workersCnt ∧ (s.slots k).counts = true ∧
        (s.slots k).state ≠ .ended then
      some { s with pc := .cancel 0, left := some k, listLeft := true }
    else none
  | .stopGet k =>
    if job.isSort = false then some { s with pc := .cancel 0, left := some k, listLeft := true }
    else none
  | pc => if pc.canAbort job.workersCnt then some (s.goto (.cancel 0)) else none

/-- The master holds the spinlock of worker `i`. -/
def MasterPc.holds (i : Nat) : MasterPc α → Bool
  | .stopGet k => k == i
  | _ => false

/-- It does, or an error has taken it away from where it did. -/
def State.holds (s : State α) (i : Nat) : Bool := s.pc.holds i || decide (s.left = some i)

/-- One event. -/
def step (s : State α) : Event → Option (State α)
  | .master => masterStep job s
  | .fetch =>
    match s.pc with
    | .idle => some (s.goto (if job.isSort then .getTuple else .poll s.lastWorker))
    | _ => none
  | .endNode =>
    match s.pc with
    | .idle => some (s.goto (.stopScan 0))
    | _ => none
  | .abort => abortStep job s
  | .worker i => (slaveStep (job.localSort i) job.rows (s.holds i) (s.slots i)).map (s.set i)
  | .fail i fatal => (slaveFail fatal (s.slots i)).map (s.set i)
  | .interrupt i =>
    if i ∈ s.cancelPending then
      (slaveInterrupt (s.slots i)).map fun w =>
        { s.set i w with cancelPending := s.cancelPending.filter (· ≠ i) }
    else none
  | .fork i => (forkSlave (s.slots i)).map (s.set i)
  | .deliverCancel =>
    if s.toCancel = [] then none
    else some { s with toCancel := [], cancelPending := s.cancelPending ++ s.toCancel }

end PrlPg
