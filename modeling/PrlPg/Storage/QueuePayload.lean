/-
What the cells of the queues point to, and how they are freed (executor/nodePrlSend.c,
executor/nodeSort.c, executor/nodeAppend.c, storage/lmgr/parallel.c).

`bqc->ptr_value` is a `void *`.  Each producer stores a value of its own layout, and each place
that frees a cell takes the value for one layout.  The workers of all jobs of a master are on
one list; job ids are random numbers, so two jobs may have the same.
-/
import PrlPg.Storage.BufferQueue

namespace PrlPg.QueuePayload

variable {τ : Type*}

inductive Layout
  | prlSortTuple
  | minimalTuple
  deriving DecidableEq

/-- A `PrlSortTuple` that holds a tuple, or the bare `MinimalTuple`. -/
structure Payload (τ : Type*) where
  layout : Layout
  tuple : τ

inductive JobType
  | sort
  | query
  deriving DecidableEq

/-- What the producers of a job store: `distributeToWorker` and `doSort`, or `ExecPrlSend`. -/
def JobType.layout : JobType → Layout
  | sort => .prlSortTuple
  | query => .minimalTuple

/-- The places that free cells: the stop loop and the release loop of `ExecEndSort` and
`ExecEndAppend`, and `cleanup`. -/
inductive Place
  | stopLoop (node : JobType)
  | releaseLoop (node : JobType)
  | cleanup

/-- The layout that a cell is freed with. -/
def Place.layout : Place → Layout
  | stopLoop .sort => .prlSortTuple
  | stopLoop .query => .minimalTuple
  | releaseLoop _ | cleanup => .prlSortTuple

/-- A value that was freed, and the place. -/
structure Freed (τ : Type*) where
  place : Place
  payload : Payload τ

/-- Cells are freed.  The end marker holds no value. -/
def free (place : Place) (cells : List (BufferQueueCell (Payload τ))) : List (Freed τ) :=
  (BufferQueueCell.tuples cells).map fun payload => ⟨place, payload⟩

structure Worker (τ : Type*) where
  jobType : JobType
  jobId : Nat
  valid : Bool
  cells : List (BufferQueueCell (Payload τ))

/-- What the producer of a worker adds: a value, or the end marker. -/
def Worker.cell (w : Worker τ) : Option τ → BufferQueueCell (Payload τ)
  | none => .last
  | some t => .tuple ⟨w.jobType.layout, t⟩

/-- What the loops of a node ask of a worker. -/
def Worker.isOf (jobId : Nat) (w : Worker τ) : Bool := w.valid && w.jobId == jobId

structure State (τ : Type*) where
  /-- `workersList` -/
  workers : List (Worker τ)
  freed : List (Freed τ)

inductive Event (τ : Type*)
  /-- a worker is set up -/
  | create (jobType : JobType) (jobId : Nat)
  /-- it has come up -/
  | up (i : Nat)
  /-- its producer adds a cell -/
  | add (i : Nat) (tuple : Option τ)
  /-- its consumer takes a cell -/
  | get (i : Nat)
  /-- the stop loop of a node comes to it and clears one cell -/
  | stop (node : JobType) (jobId i : Nat)
  /-- the release loop of a node -/
  | release (node : JobType) (jobId : Nat)
  | cleanup

/-- Worker `i` is changed, and values are freed. -/
def State.change (s : State τ) (i : Nat) (f : Worker τ → Worker τ × List (Freed τ)) : State τ :=
  match s.workers[i]? with
  | none => s
  | some w => ⟨s.workers.set i (f w).1, s.freed ++ (f w).2⟩

/-- Some workers are released with all their cells.  That a loop loses its place when it takes
them off its list is left out. -/
def State.release (s : State τ) (place : Place) (sel : Worker τ → Bool) : State τ :=
  ⟨s.workers.filter fun w => !sel w,
    s.freed ++ (s.workers.filter sel).flatMap fun w => free place w.cells⟩

def step (s : State τ) : Event τ → State τ
  | .create jobType jobId => { s with workers := s.workers ++ [⟨jobType, jobId, false, []⟩] }
  | .up i => s.change i fun w => ({ w with valid := true }, [])
  | .add i tuple => s.change i fun w => ({ w with cells := w.cells ++ [w.cell tuple] }, [])
  | .get i => s.change i fun w => ({ w with cells := w.cells.tail }, [])
  | .stop node jobId i =>
    s.change i fun w =>
      if w.isOf jobId then
        ({ w with cells := w.cells.tail }, free (.stopLoop node) (w.cells.take 1))
      else (w, [])
  | .release node jobId => s.release (.releaseLoop node) (Worker.isOf jobId)
  | .cleanup => s.release .cleanup fun _ => true

def run (events : List (Event τ)) : State τ := events.foldl step ⟨[], []⟩

end PrlPg.QueuePayload
