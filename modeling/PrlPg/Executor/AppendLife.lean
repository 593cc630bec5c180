/-
An Append node from `ExecInitAppend` to `ExecEndAppend` (executor/nodeAppend.c).

The parallel state of the node is made by the first `ExecAppend`.  `ExecReScanAppend` goes
back to the first subplan, which is all there is to go back to on the serial path, and does
not touch the parallel state.  `ExecEndAppend` reads the parallel state without looking
whether there is one.

The subplans return the same on every scan, the scan direction is forward, and processes do
not fail.
-/
import PrlPg.Executor.Job

namespace PrlPg

variable {α : Type*}

inductive AppendCall
  | exec | rescan
  deriving DecidableEq, Repr

/-- What a call has done for its caller: a slot, with or without a tuple, or a rescan. -/
inductive AppendReply (α : Type*)
  | slot (t : Option α) | rescanned
  deriving DecidableEq, Repr

/-- `PrlAppendState`, by its `prlOn`. -/
inductive PrlAppendState (α : Type*)
  | serial
  | parallel (s : State α)

structure AppendLife (α : Type*) where
  /-- `prl_append_state`, set or not -/
  pas : Option (PrlAppendState α)
  /-- what the subplans from `as_whichplan` on have still to return in this process -/
  rest : List (List α)
  freeSems : Nat
  /-- what the calls that returned have done -/
  log : List (AppendReply α)

namespace AppendLife

/-- `ExecInitAppend`. -/
def init (job : Job α) (freeSems : Nat) : AppendLife α :=
  { pas := none, rest := job.subplans, freeSems := freeSems, log := [] }

/-- The node has returned to its caller and can be called. -/
def resting (t : AppendLife α) : Bool :=
  match t.pas with
  | some (.parallel s) =>
    match s.pc with
    | .idle => true
    | _ => false
  | _ => true

/-- The serial branch of `ExecAppend`. -/
def serialExec (t : AppendLife α) : AppendLife α :=
  match serialAppendNext t.rest with
  | none => { t with rest := [], log := t.log ++ [.slot none] }
  | some (row, rest) => { t with rest := rest, log := t.log ++ [.slot (some row)] }

/-- `ExecAppend`, up to the point where other processes come in. -/
def execAppend (prlSql : Bool) (job : Job α) (t : AppendLife α) : AppendLife α :=
  match t.pas with
  | none =>
    if prlSql then { t with pas := some (.parallel (PrlPg.init job t.freeSems)) }
    else { t with pas := some .serial }.serialExec
  | some .serial => t.serialExec
  | some (.parallel s) => { t with pas := some (.parallel (s.goto (.poll s.lastWorker))) }

/-- `ExecReScanAppend`. -/
def execReScanAppend (job : Job α) (t : AppendLife α) : AppendLife α :=
  { t with rest := job.subplans, log := t.log ++ [.rescanned] }

/-- The first thing `ExecEndAppend` does with the parallel state is to look at `prlOn`; `none`
when there is no state to look at. -/
def execEndAppend (t : AppendLife α) : Option (AppendLife α) :=
  match t.pas with
  | none => none
  | some .serial => some t
  | some (.parallel s) => some { t with pas := some (.parallel (s.goto (.stopScan 0))) }

/-- What is returned by a step of the master from `s` to `s'`. -/
def replyOf (s s' : State α) : List (AppendReply α) :=
  match s'.pc with
  | .idle => [.slot s'.returned[s.returned.length]?]
  | _ => []

end AppendLife

inductive AppendEvent
  | call (c : AppendCall)
  /-- the master goes on with the call it is in -/
  | master
  /-- worker `i` moves, or is forked -/
  | worker (i : Nat) | fork (i : Nat)
  deriving DecidableEq, Repr

def AppendEvent.call? : AppendEvent → Option AppendCall
  | .call c => some c
  | _ => none

/-- One event of the life of a node. -/
def appendLifeStep (prlSql : Bool) (job : Job α) (t : AppendLife α) :
    AppendEvent → Option (AppendLife α)
  | .call c =>
    if t.resting then
      match c with
      | .exec => some (t.execAppend prlSql job)
      | .rescan => some (t.execReScanAppend job)
    else none
  | .master =>
    match t.pas with
    | some (.parallel s) => (step job s .master).map fun s' =>
      { t with pas := some (.parallel s'), log := t.log ++ AppendLife.replyOf s s' }
    | _ => none
  | .worker i =>
    match t.pas with
    | some (.parallel s) => (step job s (.worker i)).map fun s' =>
      { t with pas := some (.parallel s') }
    | _ => none
  | .fork i =>
    match t.pas with
    | some (.parallel s) => (step job s (.fork i)).map fun s' =>
      { t with pas := some (.parallel s') }
    | _ => none

end PrlPg
