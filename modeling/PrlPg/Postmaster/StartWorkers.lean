/-
How the postmaster starts workers (`StartParallelWorkers` in postmaster/postmaster.c).

`prlJobsList->list` is the list of the `WorkDef`s its cells point to, and `new` is the memory
that holds their flags.  What the function does is written down as a list of actions.  Nobody
else changes the list while the postmaster holds its mutex.
-/
import Mathlib.Logic.Function.Basic

namespace PrlPg.StartWorkers

variable {ι : Type*}

inductive Action (ι : Type*)
  | acquire
  | release
  /-- a cell of the list is read, and the `WorkDef` it points to -/
  | read (work : ι)
  /-- `forkSlave` -/
  | fork (work : ι)
  deriving DecidableEq

/-- What one pass over the list does, the flags after it, and `found`. -/
structure Pass (ι : Type*) where
  actions : List (Action ι)
  new : ι → Bool
  found : Bool

/-- The `foreach` loop.  The lock is released at a new `WorkDef`, and `continue` goes on with
the next cell. -/
def pass [DecidableEq ι] : List ι → (ι → Bool) → Pass ι
  | [], new => ⟨[], new, false⟩
  | work :: list, new =>
    if new work then
      let rest := pass list (Function.update new work false)
      ⟨.read work :: .release :: .fork work :: rest.actions, rest.new, true⟩
    else
      let rest := pass list new
      { rest with actions := .read work :: rest.actions }

/-- The `while` loop, for at most `fuel` passes. -/
def startParallelWorkers [DecidableEq ι] (list : List ι) :
    Nat → (ι → Bool) → Option (List (Action ι) × (ι → Bool))
  | 0, _ => none
  | fuel + 1, new =>
    let p := pass list new
    let actions := .acquire :: p.actions ++ [.release]
    if p.found then
      (startParallelWorkers list fuel p.new).map fun r => (actions ++ r.1, r.2)
    else some (actions, p.new)

end PrlPg.StartWorkers
