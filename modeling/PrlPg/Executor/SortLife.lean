/-
A parallel Sort node from `ExecInitSort` to `ExecEndSort` (executor/nodeSort.c).

`Executor/Job.lean` has one parallel job.  A node can have several: when `ExecReScanSort`
has to sort again it drops the tuplesort, the only place the job id is kept in, and the
next `ExecSort` sets up a new job with new workers.  The ids come from `random()` and are
taken to be different.  Every loop of the master over `workersList` is about the workers of
the id at hand, so those of an earlier job are left to themselves, and go on.

Errors that the master runs into are not followed here; a node in which one was raised does
not get to `ExecEndSort`.
-/
import PrlPg.Executor.Job

namespace PrlPg

variable {α : Type*}

/-! ### The flags of the node -/

/-- A call of the node.  `setBound` is what a Limit above it does between two calls. -/
inductive SortCall
  | fetch
  | setBound (bounded : Bool) (bound : Nat)
  | rescan (chgParam : Bool)
  deriving DecidableEq, Repr

/-- The fields of `SortState` that `ExecReScanSort` looks at. -/
structure SortFlags where
  sortDone : Bool := false
  bounded : Bool := false
  bound : Nat := 0
  boundedDone : Bool := false
  boundDone : Nat := 0
  deriving DecidableEq, Repr

namespace SortFlags

/-- Whether `ExecReScanSort` has to sort again, if there has been a sort. -/
def mustResort (f : SortFlags) (randomAccess chgParam : Bool) : Bool :=
  chgParam || f.bounded != f.boundedDone || f.bound != f.boundDone || !randomAccess

/-- Whether a call makes the node forget its tuplesort. -/
def forgets (f : SortFlags) (randomAccess : Bool) : SortCall → Bool
  | .rescan chgParam => f.sortDone && f.mustResort randomAccess chgParam
  | _ => false

/-- The flags after a call. -/
def call (f : SortFlags) (randomAccess : Bool) : SortCall → SortFlags
  | .fetch =>
    if f.sortDone then f
    else { f with sortDone := true, boundedDone := f.bounded, boundDone := f.bound }
  | .setBound bounded bound => { f with bounded := bounded, bound := bound }
  | .rescan chgParam =>
    if f.forgets randomAccess (.rescan chgParam) then { f with sortDone := false } else f

end SortFlags

/-- Whether a sequence of calls makes the node sort again. -/
def resorts (randomAccess : Bool) : SortFlags → List SortCall → Bool
  | _, [] => false
  | f, c :: calls => f.forgets randomAccess c || resorts randomAccess (f.call randomAccess c) calls

/-! ### The node -/

/-- What a Sort node is given: the job of each of its sorts, and `randomAccess`. -/
structure SortPlan (α : Type*) where
  jobs : Nat → Job α
  randomAccess : Bool

structure SortLife (α : Type*) where
  flags : SortFlags
  /-- the jobs whose tuplesort has been forgotten -/
  past : List (State α)
  /-- the job of the tuplesort at hand -/
  current : Option (State α)
  freeSems : Nat
  /-- `ExecEndSort` was called without a tuplesort -/
  endedIdle : Bool
  /-- an error was raised -/
  failed : Bool

namespace SortLife

/-- `ExecInitSort`. -/
def init (freeSems : Nat) : SortLife α :=
  { flags := {}, past := [], current := none, freeSems := freeSems, endedIdle := false,
    failed := false }

/-- All jobs there have been. -/
def jobs (t : SortLife α) : List (State α) := t.past ++ t.current.toList

/-- `ExecEndSort` has returned. -/
def ended (t : SortLife α) : Bool :=
  match t.current with
  | none => t.endedIdle
  | some s =>
    match s.pc with
    | .closed => true
    | _ => false

/-- The node has returned to its caller and can be called. -/
def resting (t : SortLife α) : Bool :=
  !t.endedIdle && !t.failed &&
    match t.current with
    | none => true
    | some s =>
      match s.pc with
      | .idle => true
      | _ => false

/-- A call of the node at rest.  A fetch without a tuplesort sets up a job.  A rescan that
does not sort again finds the tuplesort of the master in a state it does not know. -/
def call (plan : SortPlan α) (t : SortLife α) (c : SortCall) : SortLife α :=
  let t' := { t with flags := t.flags.call plan.randomAccess c }
  match c, t.current with
  | .fetch, none => { t' with current := some (PrlPg.init (plan.jobs t.past.length) t.freeSems) }
  | .fetch, some s => { t' with current := some (s.goto .getTuple) }
  | .setBound .., _ => t'
  | .rescan _, none => t'
  | .rescan _, some s =>
    if t.flags.forgets plan.randomAccess c then
      { t' with past := t.past ++ [s], current := none, freeSems := s.freeSems }
    else { t' with failed := true }

end SortLife

/-- A process other than the master moves by itself. -/
def Event.apart : Event → Bool
  | .worker _ | .fork _ | .fail .. => true
  | _ => false

inductive LifeEvent
  | call (c : SortCall)
  | endSort
  /-- the master goes on with the call it is in -/
  | master
  /-- another process of the current job moves -/
  | other (e : Event)
  /-- a process of the forgotten job `k` moves -/
  | left (k : Nat) (e : Event)
  deriving DecidableEq, Repr

def LifeEvent.call? : LifeEvent → Option SortCall
  | .call c => some c
  | _ => none

/-- One event of the life of a node. -/
def lifeStep (plan : SortPlan α) (t : SortLife α) : LifeEvent → Option (SortLife α)
  | .call c => if t.resting then some (t.call plan c) else none
  | .endSort =>
    if t.resting then
      match t.current with
      | none => some { t with endedIdle := true }
      | some s => some { t with current := some (s.goto (.stopScan 0)) }
    else none
  | .master =>
    match t.current with
    | none => none
    | some s =>
      (step (plan.jobs t.past.length) s .master).map fun s' => { t with current := some s' }
  | .other e =>
    match t.current with
    | none => none
    | some s =>
      if e.apart then
        (step (plan.jobs t.past.length) s e).map fun s' => { t with current := some s' }
      else none
  | .left k e =>
    match t.past[k]? with
    | none => none
    | some s =>
      if e.apart then
        (step (plan.jobs k) s e).map fun s' => { t with past := t.past.set k s' }
      else none

end PrlPg
