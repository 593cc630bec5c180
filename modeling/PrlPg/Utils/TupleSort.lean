/-
The final merge in the master (utils/sort/tuplesort.c).

The master's `Tuplesortstate` holds a heap with at most one tuple of every worker.
`tupindex` says which worker a tuple came from, so that after handing a tuple out
the master knows whose queue to read next.  A worker whose end marker has been read
is finished, and the merge is over when the heap runs empty.

`prepareForMerge` and `tuplesort_gettupleslot_from_worker` are cut at their only
blocking call, `bufferQueueGet`: what they do with the cell they get is here, the
wait for it is a step of the master.
-/
import PrlPg.Lib.Heap
import PrlPg.Storage.BufferQueue

namespace PrlPg

variable {α : Type*}

/-- A tuple in the merge heap and the worker it came from. -/
structure SortTuple (α : Type*) where
  tuple : α
  tupindex : Nat
  deriving DecidableEq, Repr

variable (comparetup : α → α → Int)

/-- `HEAPCOMPARE` with `checkIndex` unset. -/
def heapCompare (a b : SortTuple α) : Int := comparetup a.tuple b.tuple

/-- `tuplesort_heap_insert`. -/
def tuplesortHeapInsert (memtuples : List (SortTuple α)) (tuple : α)
    (tupindex : Nat) : List (SortTuple α) :=
  Heap.insert (heapCompare comparetup) memtuples { tuple := tuple, tupindex := tupindex }

/-- `tuplesort_heap_siftup`. -/
def tuplesortHeapSiftup (memtuples : List (SortTuple α)) :
    List (SortTuple α) :=
  Heap.removeRoot (heapCompare comparetup) memtuples

/-- The part of the master's `Tuplesortstate` the merge uses. -/
structure Merge (α : Type*) where
  memtuples : List (SortTuple α)
  workersFinished : Nat → Bool
  isParallelEnded : Bool

namespace Merge

/-- Nothing read from any worker yet. -/
def begin : Merge α :=
  { memtuples := [], workersFinished := fun _ => false, isParallelEnded := false }

/-- Mark a worker as finished. -/
def finish (m : Merge α) (i : Nat) : Merge α :=
  { m with workersFinished := Function.update m.workersFinished i true }

/-- The body of the loop of `prepareForMerge`, with the first cell of worker `cw`. -/
def prepare (m : Merge α) (cw : Nat) : BufferQueueCell α → Merge α
  | .last => m.finish cw
  | .tuple t => { m with memtuples := tuplesortHeapInsert comparetup m.memtuples t cw }

/-- The end of `prepareForMerge`. -/
def prepared (m : Merge α) : Merge α :=
  { m with isParallelEnded := m.isParallelEnded || m.memtuples.isEmpty }

/-- The start of `tuplesort_gettupleslot_from_worker`: take the root off the heap. -/
def takeRoot (m : Merge α) : Merge α :=
  { m with memtuples := tuplesortHeapSiftup comparetup m.memtuples }

/-- The rest of it, with the next cell of worker `i` whose tuple was the root. -/
def refill (m : Merge α) (i : Nat) : BufferQueueCell α → Merge α
  | .last => { m.finish i with isParallelEnded := m.isParallelEnded || m.memtuples.isEmpty }
  | .tuple t => { m with memtuples := tuplesortHeapInsert comparetup m.memtuples t i }

end Merge

end PrlPg
