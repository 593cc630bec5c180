/-
The worker process (postmaster/slaveworker.c, executor/nodePrlSend.c).

`slaveStep` is one step of `slaveBackendMain`: one access to the shared record, one
queue operation, or a piece of work on local data up to the next such access.  The
two send loops, the one of `doSort` and the one of `ExecPrlSend`, do the same to the
queue and share the point `send`.

`waitForState` polls.  A look that finds the state unchanged is no step, so a worker
that polls has no step until somebody writes its state.  The record's spinlock is
passed in as `held`: while the master holds it the worker can neither read nor write
`worker->state`.
-/
import PrlPg.Storage.Parallel

namespace PrlPg

variable {α : Type*}

/-- `waitForState(worker, st)`: go on to `next` when the state is there, raise an error
when the worker was cancelled. -/
def waitForState (held : Bool) (st : WorkerState) (next : WorkerPc α) (w : Slot α) :
    Option (Slot α) :=
  if held then none
  else if w.state = st then some { w.look .worker with pc := next }
  else if w.state = .canceled then some { w.look .worker with pc := .failing }
  else none

/-- Write `worker->state` and go on to `next`. -/
def announce (held : Bool) (st : WorkerState) (next : WorkerPc α) (w : Slot α) : Option (Slot α) :=
  if held then none else some { w.put st with pc := next }

/-- One round of the receive loop of `doSort`. -/
def recvStep (got : List α) (w : Slot α) : Option (Slot α) :=
  match w.bufferQueueGet with
  | none => none
  | some (.tuple t, w') => some { w' with pc := .recv (got ++ [t]) }
  | some (.last, w') => some { w' with pc := .performsort got }

/-- One round of the send loop of `doSort` and of `ExecPrlSend`: the next tuple, and the
end of the loop when the queue says stop, or the end marker. -/
def sendStep (rest : List α) (w : Slot α) : Option (Slot α) :=
  match rest with
  | [] =>
    match w.bufferQueueAdd .last true with
    | none => none
    | some (w', _) => some { w' with pc := .setEnded }
  | t :: rest =>
    match w.bufferQueueAdd (.tuple t) true with
    | none => none
    | some (w', stop) => some { w' with pc := if stop then .setEnded else .send rest }

/--
One step of a worker.  `localSort` gives what the worker's own tuplesort returns for
the tuples put into it, `rows` what the plan copied to the worker returns.
-/
def slaveStep (localSort : List α → List α) (rows : Option Nat → List α) (held : Bool)
    (w : Slot α) : Option (Slot α) :=
  match w.pc with
  | .absent | .exited => none
  | .starting => if held then none else some { w.put .initial with valid := true, pc := .waitReady }
  | .waitReady => waitForState held .ready .dispatch w
  | .dispatch =>
    match w.workType with
    | .sort => some { w with pc := .recv [] }
    | .query => some { w with pc := .send (rows w.subnode) }
    | .ended => some { w with pc := .setDead }
  | .recv got => recvStep got w
  | .performsort got => announce held .finished (.finishedLog (localSort got)) w
  | .finishedLog run => some { w with pc := .waitAck run }
  | .waitAck run => waitForState held .finishedAck (.send run) w
  | .send rest => sendStep rest w
  | .setEnded => announce held .ended .waitReady w
  | .setDead => announce held .dead .exited w
  | .failing => announce held .canceled .exited w

/-- An error in a worker, at work or when it logs that it is at `FINISHED`.  Before
`worker->valid` is set there is no handler and the process just ends.  Later an error jumps to
the error branch, but a `FATAL` one, which is what a request to terminate becomes, ends the
process without a word.  The polling loops of `waitForState` and the way out after an `END` job
raise nothing. -/
def slaveFail (fatal : Bool) (w : Slot α) : Option (Slot α) :=
  match w.pc with
  | .starting => some { w with pc := .exited }
  | .dispatch =>
    if w.workType = .ended then none else some { w with pc := if fatal then .exited else .failing }
  | .recv _ | .performsort _ | .finishedLog _ | .send _ | .setEnded =>
    some { w with pc := if fatal then .exited else .failing }
  | _ => none

/-- A pending cancel request is served: at a semaphore, in a comparison, or when a
message is logged.  `waitForState` does not look for it. -/
def slaveInterrupt (w : Slot α) : Option (Slot α) :=
  match w.pc with
  | .recv _ | .performsort _ | .finishedLog _ | .send _ => some { w with pc := .failing }
  | _ => none

/-- `StartParallelWorkers` takes a new `WorkDef` of the list and forks a worker for it. -/
def forkSlave (w : Slot α) : Option (Slot α) :=
  if w.inJobsList && w.new then some { w with new := false, pc := .starting } else none

end PrlPg
