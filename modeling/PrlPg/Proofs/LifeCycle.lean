/-
The life of a queue.

A queue should be destroyed once, hold nothing when it is, and not be touched again.
The first is true.  The last never is: `ExecEndSort` and `ExecEndAppend` destroy the
queues in the loop that prepares the ending task, and the release loop after it still
calls `bufferQueueGetNoSem` on each of them.  `cleanup`, which does the same work after
an error, drains the queue first and destroys it then.  When the node is ended before
it is drained, a queue may moreover be destroyed with cells in it.
-/
import PrlPg.Proofs.Invariant

namespace PrlPg

open List

variable {α : Type*}

def QueueOp.isDestroy : QueueOp → Bool
  | .destroy _ => true
  | _ => false

/-- What the life of a queue should look like. -/
structure LifeCycle (log : List QueueOp) : Prop where
  /-- destroyed exactly once -/
  once : log.countP QueueOp.isDestroy = 1
  /-- empty at that moment -/
  empty : ∀ left, .destroy left ∈ log → left = 0
  /-- and never used afterwards -/
  unused : ∀ l₁ left l₂, log = l₁ ++ .destroy left :: l₂ → l₂ = []

variable {log : List QueueOp}

theorem LiveLog.countP_destroy (h : LiveLog log) : log.countP QueueOp.isDestroy = 0 := by
  obtain ⟨l, rfl, hl⟩ := h
  rw [countP_eq_zero]
  intro op hop
  rcases mem_cons.mp hop with rfl | hop
  · simp [QueueOp.isDestroy]
  · cases hl op hop <;> simp [QueueOp.isDestroy]

theorem DestroyedLog.countP_destroy (h : DestroyedLog log) : log.countP QueueOp.isDestroy = 1 := by
  obtain ⟨l, left, hl, rfl⟩ := h
  simp [countP_append, hl.countP_destroy, QueueOp.isDestroy]

theorem ReusedLog.countP_destroy (h : ReusedLog log) : log.countP QueueOp.isDestroy = 1 := by
  obtain ⟨l, m, hl, rfl⟩ := h
  rw [countP_append, hl.countP_destroy, countP_replicate]
  simp [QueueOp.isDestroy]

theorem ReusedLog.not_lifeCycle (h : ReusedLog log) : ¬ LifeCycle log := by
  obtain ⟨l, m, ⟨l', left, -, rfl⟩, rfl⟩ := h
  intro hlife
  have := hlife.unused l' left (replicate (m + 1) .getNoSem) (by simp)
  cases this

/--
However a parallel Sort or Append is run to its end without errors, drained or stopped
early, every one of its queues has been destroyed exactly once, and none of them has
had a proper life: each is read after it was destroyed.
-/
theorem destroyed_queue_is_read {job : Job α} (hq : 0 < job.queueSize) {freeSems : Nat}
    {s : State α} (h : Run.Steps (step job) Quiet (init job freeSems) s) (hpc : s.pc = .closed)
    {i : Nat} (hi : i < job.workersCnt) :
    (s.slots i).log.countP QueueOp.isDestroy = 1 ∧ ¬ LifeCycle (s.slots i).log := by
  have hin := (Inv.quiet hq h).inStage (by rw [hpc]; rfl) hi
  rw [hpc] at hin
  exact ⟨hin.log.countP_destroy, hin.log.not_lifeCycle⟩

/-! ### A run -/

/-- One worker sorts three numbers; the node is ended after the first. -/
def stoppedEarly : State Nat :=
  Run.follow (step (sortNats [2, 1, 3] 1 1)) (init (sortNats [2, 1, 3] 1 1) 3)
    (inTurn 1 40 ++ [.endNode] ++ inTurn 1 40)

theorem stoppedEarly_run :
    Run.Steps (step (sortNats [2, 1, 3] 1 1)) Quiet (init (sortNats [2, 1, 3] 1 1) 3) stoppedEarly := by
  refine Run.steps_of_follow _ fun u e he => ?_
  simp only [mem_append, mem_singleton] at he
  rcases he with (he | rfl) | he
  · exact quiet_inTurn _ _ u e he
  · rfl
  · exact quiet_inTurn _ _ u e he

/-- The run ends with a queue that still holds a cell when it is destroyed, and that is
read twice afterwards. -/
theorem stoppedEarly_breaks_lifeCycle :
    Run.Steps (step (sortNats [2, 1, 3] 1 1)) Quiet (init (sortNats [2, 1, 3] 1 1) 3) stoppedEarly ∧
      stoppedEarly.pc = .closed ∧
      (stoppedEarly.slots 0).log.drop 17 = [.destroy 1, .getNoSem, .getNoSem] ∧
      ¬ LifeCycle (stoppedEarly.slots 0).log := by
  refine ⟨stoppedEarly_run, by decide +kernel, by decide +kernel, fun hlife => ?_⟩
  have := hlife.empty 1 (by decide +kernel)
  omega

theorem destroyed_queue_is_read_stoppedEarly :
    stoppedEarly.pc = .closed ∧ 0 < (sortNats [2, 1, 3] 1 1).workersCnt ∧
      ((stoppedEarly.slots 0).log.countP QueueOp.isDestroy = 1 ∧
        ¬ LifeCycle (stoppedEarly.slots 0).log) :=
  ⟨by decide +kernel, by decide,
    destroyed_queue_is_read (by decide) stoppedEarly_run (by decide +kernel) (by decide)⟩

end PrlPg
