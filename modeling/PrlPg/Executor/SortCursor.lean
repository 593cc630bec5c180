/-
The operations of a Sort node (executor/nodeSort.c) on its tuplesort
(utils/sort/tuplesort.c).

A Sort that was initialised with `randomAccess` can be read forward and backward, its
position can be marked and restored, and it can be rescanned.  The serial path sorts in
memory and the tuplesort is then in `TSS_SORTEDINMEM`, where all of these are moves of an
index.  The parallel path leaves the tuplesort of the master in `TSS_INITIAL` and reads
the merge of what the workers send.  Which way the workers read their own sorts is
decided by the direction of the call that sets them up.

A sort that fits in memory is modelled, without a bound.  What the merge returns is a
parameter here, one list for every scan of the outer plan and every direction; that it is
what a run of the job in `Executor/Job.lean` returns is the business of the statements.
-/
import PrlPg.Executor.Job

namespace PrlPg

variable {α : Type*}

/-! ### The tuplesort -/

/-- `TupSortStatus`, as far as a sort in memory goes. -/
inductive TupSortStatus
  | initial | sortedInMem
  deriving DecidableEq, Repr

inductive SortError
  /-- `elog(ERROR, "invalid tuplesort state")` -/
  | invalidState
  /-- the `FATAL` of `createBufferQueue`: no semaphore is left in the pool -/
  | noSemaphores
  deriving DecidableEq, Repr

/-- The part of a `Tuplesortstate` that the operations of the node use. -/
structure Tuplesortstate (α : Type*) where
  status : TupSortStatus
  isParallel : Bool
  memtuples : List α
  current : Nat
  eofReached : Bool
  markposOffset : Nat
  markposEof : Bool
  /-- what the merge has still to return -/
  merging : List α
  deriving Repr

/-- `tuplesort_begin_heap` and `tuplesort_set_parallel`. -/
def tuplesortBegin (isParallel : Bool) : Tuplesortstate α :=
  { status := .initial, isParallel := isParallel, memtuples := [], current := 0,
    eofReached := false, markposOffset := 0, markposEof := false, merging := [] }

variable (st : Tuplesortstate α)

/-- `tuplesort_performsort`, on tuples that are `sorted` by it. -/
def tuplesortPerformsort (sorted : List α) : Tuplesortstate α :=
  { st with status := .sortedInMem, memtuples := sorted, current := 0, eofReached := false,
            markposOffset := 0, markposEof := false }

/-- `tuplesort_gettuple_common`. -/
def tuplesortGettupleCommon (forward : Bool) :
    Except SortError (Option α × Tuplesortstate α) :=
  match st.status with
  | .initial => .error .invalidState
  | .sortedInMem =>
    if forward then
      match st.memtuples[st.current]? with
      | some stup => .ok (some stup, { st with current := st.current + 1 })
      | none => .ok (none, { st with eofReached := true })
    else if st.current = 0 then .ok (none, st)
    else if st.eofReached then
      .ok (st.memtuples[st.current - 1]?, { st with eofReached := false })
    else if st.current - 1 = 0 then .ok (none, { st with current := st.current - 1 })
    else .ok (st.memtuples[st.current - 1 - 1]?, { st with current := st.current - 1 })

/-- `tuplesort_gettupleslot_from_worker`.  The direction is not looked at. -/
def tuplesortGettupleslotFromWorker (_forward : Bool) :
    Option α × Tuplesortstate α :=
  match st.merging with
  | [] => (none, st)
  | stup :: rest => (some stup, { st with merging := rest })

/-- `tuplesort_rescan`. -/
def tuplesortRescan : Except SortError (Tuplesortstate α) :=
  match st.status with
  | .sortedInMem =>
    .ok { st with current := 0, eofReached := false, markposOffset := 0, markposEof := false }
  | .initial => .error .invalidState

/-- `tuplesort_markpos`. -/
def tuplesortMarkpos : Except SortError (Tuplesortstate α) :=
  match st.status with
  | .sortedInMem => .ok { st with markposOffset := st.current, markposEof := st.eofReached }
  | .initial => .error .invalidState

/-- `tuplesort_restorepos`. -/
def tuplesortRestorepos : Except SortError (Tuplesortstate α) :=
  match st.status with
  | .sortedInMem => .ok { st with current := st.markposOffset, eofReached := st.markposEof }
  | .initial => .error .invalidState

/-! ### The workers -/

/-- The send loop of `doSort`: `prl_tuplesort_getsorttuple` until it returns nothing, at
most `calls` times. -/
def sendLoop (forward : Bool) : Nat → Tuplesortstate α → List α
  | 0, _ => []
  | calls + 1, st =>
    match tuplesortGettupleCommon st forward with
    | .ok (some stup, st') => stup :: sendLoop forward calls st'
    | _ => []

/-- What a worker sends of the tuples it has sorted, when the set-up call had the given
direction. -/
def workerRun (forward : Bool) (sorted : List α) : List α :=
  sendLoop forward (sorted.length + 1) (tuplesortPerformsort (tuplesortBegin false) sorted)

/-- The parallel job of one scan of the outer plan, set up by a call with the given
direction. -/
def Job.scan (job : Job α) (outer : List α) (forward : Bool) : Job α :=
  { job with node := .sort outer, localSort := fun i l => workerRun forward (job.localSort i l) }

/-! ### The node -/

/-- What a Sort node is given. -/
structure SortNode (α : Type*) where
  /-- `prl_sort` -/
  prlSort : Bool
  /-- `prl_sort_dop` -/
  prlLevel : Nat
  /-- what the outer plan returns on each of its scans -/
  outer : Nat → List α
  /-- what the serial tuplesort makes of it -/
  performsort : List α → List α
  /-- what the parallel job of a scan returns, by the direction of the set-up call -/
  merged : Nat → Bool → List α

structure SortState (α : Type*) where
  sortDone : Bool
  tuplesortstate : Tuplesortstate α
  /-- how often the outer plan has been given new parameters -/
  scan : Nat
  freeSems : Nat
  deriving Repr

/-- `ExecInitSort` with `randomAccess`. -/
def execInitSort (freeSems : Nat) : SortState α :=
  { sortDone := false, tuplesortstate := tuplesortBegin false, scan := 0, freeSems := freeSems }

/-- `ExecSort`, the first time through. -/
def execSortFirst (node : SortNode α) (st : SortState α) (forward : Bool) :
    Except SortError (SortState α) :=
  if node.prlSort then
    if 3 * node.prlLevel ≤ st.freeSems then
      .ok { st with
              sortDone := true, freeSems := st.freeSems - 3 * node.prlLevel,
              tuplesortstate := { tuplesortBegin true with merging := node.merged st.scan forward } }
    else .error .noSemaphores
  else
    .ok { st with
            sortDone := true,
            tuplesortstate :=
              tuplesortPerformsort (tuplesortBegin false) (node.performsort (node.outer st.scan)) }

/-- The rest of `ExecSort`: the first or next tuple. -/
def execSortFetch (st : SortState α) (forward : Bool) : Except SortError (Option α × SortState α) :=
  if st.tuplesortstate.isParallel then
    let r := tuplesortGettupleslotFromWorker st.tuplesortstate forward
    .ok (r.1, { st with tuplesortstate := r.2 })
  else
    (tuplesortGettupleCommon st.tuplesortstate forward).map fun r =>
      (r.1, { st with tuplesortstate := r.2 })

/-- `ExecSort`. -/
def execSort (node : SortNode α) (st : SortState α) (forward : Bool) :
    Except SortError (Option α × SortState α) :=
  if st.sortDone then execSortFetch st forward
  else
    match execSortFirst node st forward with
    | .error e => .error e
    | .ok st' => execSortFetch st' forward

/-- Apply an operation of the tuplesort, if there has been a sort. -/
def ifSorted (op : Tuplesortstate α → Except SortError (Tuplesortstate α)) (st : SortState α) :
    Except SortError (SortState α) :=
  if st.sortDone then (op st.tuplesortstate).map fun ts => { st with tuplesortstate := ts }
  else .ok st

/-- `ExecSortMarkPos`. -/
def execSortMarkPos (st : SortState α) : Except SortError (SortState α) :=
  ifSorted tuplesortMarkpos st

/-- `ExecSortRestrPos`. -/
def execSortRestrPos (st : SortState α) : Except SortError (SortState α) :=
  ifSorted tuplesortRestorepos st

/-- `ExecReScanSort`; `chgParam` says whether the outer plan has new parameters.  Then the
tuplesort is forgotten, and its workers with it. -/
def execReScanSort (st : SortState α) (chgParam : Bool) : Except SortError (SortState α) :=
  if chgParam then
    .ok { st with sortDone := false, tuplesortstate := tuplesortBegin false, scan := st.scan + 1 }
  else ifSorted tuplesortRescan st

/-! ### Sequences of operations -/

inductive SortOp
  | fetch (forward : Bool) | markPos | restrPos | rescan (chgParam : Bool)
  deriving DecidableEq, Repr

/-- What an operation gives back: a slot with or without a tuple, or nothing. -/
inductive Reply (α : Type*)
  | slot (t : Option α) | done
  deriving DecidableEq, Repr

def sortOp (node : SortNode α) (st : SortState α) : SortOp → Except SortError (Reply α × SortState α)
  | .fetch forward => (execSort node st forward).map fun r => (.slot r.1, r.2)
  | .markPos => (execSortMarkPos st).map fun st => (.done, st)
  | .restrPos => (execSortRestrPos st).map fun st => (.done, st)
  | .rescan chgParam => (execReScanSort st chgParam).map fun st => (.done, st)

/-- The replies to a sequence of operations, up to the first error. -/
def replies (node : SortNode α) : SortState α → List SortOp → List (Except SortError (Reply α))
  | _, [] => []
  | st, op :: ops =>
    match sortOp node st op with
    | .error e => [.error e]
    | .ok (r, st') => .ok r :: replies node st' ops

end PrlPg
