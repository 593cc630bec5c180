/-
What the master does to the records of one worker.

Every access of the master takes the worker it is about to a later stage, or leaves it
in its stage.  There is one lemma for each routine that touches a `Worker`, a `WorkDef`
or a queue: what stage the worker has to be in, and what stage it is in afterwards.
`Proofs/Invariant.lean` puts them together.
-/
import PrlPg.Proofs.Stages

namespace PrlPg

open List Slot

variable {α : Type*}

/-! ### What the master does to one worker -/

/-- The stage the workers are in while the master waits at a barrier. -/
def Barrier.before : Barrier → Stage
  | initial => .startup
  | finished => .running
  | ended => .stopping
  | dead => .ending

/-- The stage of a worker that a pass has found. -/
def Barrier.after : Barrier → Stage
  | initial => .initialSeen
  | finished => .finishedSeen
  | ended => .endSeen
  | dead => .deadSeen

section Slot

variable {err : Bool} {job : Job α} {g : Stage} {w w' : Slot α} {cell : BufferQueueCell α}

theorem Admits.saw {t wt : WorkType} {st : WorkerState} {pc : WorkerPc α} {seen : Bool}
    (h : Admits t g wt st pc seen) (b : Bool) : Admits t g wt st pc (seen || b) := by
  cases h with
  | sends hg h => exact .sends hg (by cases h <;> constructor <;> assumption)
  | _ => constructor <;> assumption

theorem InStage.look (h : InStage job g w) (side : Side) : InStage job g (w.look side) :=
  { h with ctl := h.ctl.saw _ }

theorem Broken.look (h : Broken job w) (side : Side) : Broken job (w.look side) := { __ := h }

theorem Holds.look (h : Holds err job g w) (side : Side) : Holds err job g (w.look side) :=
  h.imp (fun h => h.look side) (fun h => ⟨h.1, h.2.1, h.2.2.look side⟩)

theorem Slot.look_of_worker (hst : w.state.writer = .worker) :
    w.look .master = { w with seen := true } := by
  simp [look, hst]

/-- A worker that the master finds done has been seen to be done. -/
theorem InStage.endSeen (h : InStage job g w) (hg : g.Sends) (hst : w.state = .ended) :
    InStage job .endSeen { w with seen := true } := by
  have hctl := h.ctl
  have hlog := (hg.logOk _).mp h.log
  cases w
  cases hst
  cases hctl with
  | sends _ hs =>
    cases hs with
    | ended ht => exact h.advance (.endSeen ht) hg.listed.symm trivial hlog
  | endSeen _ => cases hg

/-- A worker that a pass finds in the awaited state has been seen there. -/
theorem Holds.found {b : Barrier} (h : Holds err job b.before w) (hst : w.state = b.state) :
    Holds err job b.after (w.look .master) := by
  rcases h with h | ⟨he, -, hbr⟩
  swap
  · -- a worker can have failed at `FINISHED`, but at no other state a barrier is about
    have hstates := hbr.ctl.states
    rw [hst] at hstates
    cases b with
    | finished => exact .inr ⟨he, rfl, hbr.look .master⟩
    | _ => simp [Barrier.state, WorkerState.atWork] at hstates
  refine .inl ?_
  rw [look_of_worker (by rw [hst]; cases b <;> rfl)]
  have hctl := h.ctl
  have hstop := h.stop
  have hlog := h.log
  cases b with
  | ended => exact h.endSeen .stopping hst
  | initial =>
    cases w
    cases hst
    cases hctl with
    | sends hg _ => cases hg
    | initial ht => exact h.advance (.initialSeen ht) rfl hstop hlog
  | finished =>
    cases w
    cases hst
    cases hctl with
    | sends hg _ => cases hg
    | finishedLog ht => exact h.advance (.finishedLogSeen ht) rfl hstop hlog
    | waitAck ht => exact h.advance (.waitAckSeen ht) rfl hstop hlog
  | dead =>
    cases w
    cases hst
    cases hctl with
    | sends hg _ => cases hg
    | dead => exact h.advance .deadSeen rfl hstop hlog

/-- Having been seen is no obstacle to waiting for the next pass. -/
theorem InStage.unseen {b : Barrier} (h : InStage job b.after w) : InStage job b.before w := by
  have hctl := h.ctl
  have hstop := h.stop
  have hlog := h.log
  cases w
  cases b with
  | initial =>
    cases hctl with
    | sends hg _ => cases hg
    | initialSeen ht => exact h.advance (.initial ht) rfl hstop hlog
  | finished =>
    cases hctl with
    | sends hg _ => cases hg
    | finishedLogSeen ht => exact h.advance (.finishedLog ht) rfl hstop hlog
    | waitAckSeen ht => exact h.advance (.waitAck ht) rfl hstop hlog
  | ended =>
    cases hctl with
    | sends hg _ => cases hg
    | endSeen ht => exact h.advance (.sends .stopping (.ended ht)) rfl (.inl (.inl rfl)) hlog
  | dead =>
    cases hctl with
    | sends hg _ => cases hg
    | deadSeen => exact h.advance .dead rfl hstop hlog

theorem InStage.counts (h : InStage job g w) (hlisted : g.listed = true)
    (hst : w.state ≠ .none) : w.counts = true := by
  simp [Slot.counts, h.workersList, hlisted, h.valid, hst]

/-- The stage of a worker that has been told to start. -/
def Job.workStage (job : Job α) : Stage := if job.isSort then .running else .sending

section Inversion

variable {t wt : WorkType} {st : WorkerState} {pc : WorkerPc α} {seen : Bool}

theorem Admits.of_unused (h : Admits t .unused wt st pc seen) : pc = .absent ∧ st = .none := by
  cases h with
  | sends hg _ => cases hg
  | unused => exact ⟨rfl, rfl⟩

theorem Admits.of_initialSeen (h : Admits t .initialSeen wt st pc seen) :
    wt = t ∧ st = .initial ∧ pc = .waitReady ∧ seen = true := by
  cases h with
  | sends hg _ => cases hg
  | initialSeen ht => exact ⟨ht, rfl, rfl, rfl⟩

theorem Admits.of_finishedSeen (h : Admits t .finishedSeen wt st pc seen) :
    t = .sort ∧ wt = .sort ∧ st = .finished ∧ seen = true ∧
      ∃ run, pc = .finishedLog run ∨ pc = .waitAck run := by
  cases h with
  | sends hg _ => cases hg
  | finishedLogSeen ht => exact ⟨ht, rfl, rfl, rfl, _, .inl rfl⟩
  | waitAckSeen ht => exact ⟨ht, rfl, rfl, rfl, _, .inr rfl⟩

theorem Admits.of_endSeen (h : Admits t .endSeen wt st pc seen) :
    wt = t ∧ st = .ended ∧ pc = .waitReady ∧ seen = true := by
  cases h with
  | sends hg _ => cases hg
  | endSeen ht => exact ⟨ht, rfl, rfl, rfl⟩

theorem Admits.of_deadSeen (h : Admits t .deadSeen wt st pc seen) :
    wt = .ended ∧ st = .dead ∧ pc = .exited ∧ seen = true := by
  cases h with
  | sends hg _ => cases hg
  | deadSeen => exact ⟨rfl, rfl, rfl, rfl⟩

theorem Admits.of_sends (h : Admits t g wt st pc seen) (hg : g.Sends) :
    SendAdmits t wt st pc seen := by
  cases h with
  | sends _ h => exact h
  | _ => cases hg

theorem SendAdmits.up (h : SendAdmits t wt st pc seen) : st ≠ .none := by cases h <;> simp

theorem SendAdmits.not_canceled (h : SendAdmits t wt st pc seen) : st ≠ .canceled := by
  cases h <;> simp

end Inversion

/-- `stateTransition(INITIAL, READY)`. -/
theorem InStage.start (h : InStage job .initialSeen w) :
    InStage job job.workStage (w.put .ready) := by
  obtain ⟨hwt, hst, hpc, -⟩ := h.ctl.of_initialSeen
  have hstop : w.bufferQueue.stop = false := h.stop
  have hold : w.state ≠ .none := by simp [hst]
  rcases job_workType job with ⟨hs, ht⟩ | ⟨hs, ht⟩
  · rw [show job.workStage = .running by simp [Job.workStage, hs]]
    have hctl : Admits job.workType .running w.workType .ready w.pc false := by
      rw [hwt, hpc, ht]; exact .ready rfl
    exact h.advance hctl rfl hstop h.log (by simp) hold
  rw [show job.workStage = .sending by simp [Job.workStage, hs]]
  have hctl : Admits job.workType .sending w.workType .ready w.pc false := by
    rw [hwt, hpc, ht]; exact .sends .sending (.queryReady rfl)
  exact h.advance hctl rfl (fun hs => by simp [hstop] at hs) h.log (by simp) hold

/-- `stateTransition(FINISHED, FINISHED_ACK)`. -/
theorem InStage.ack (h : InStage job .finishedSeen w) :
    InStage job .sending (w.put .finishedAck) := by
  obtain ⟨ht, hwt, hst, -, run, hpc⟩ := h.ctl.of_finishedSeen
  have hstop : w.bufferQueue.stop = false := h.stop
  have hctl : Admits job.workType .sending w.workType .finishedAck w.pc false := by
    rw [hwt]
    rcases hpc with hpc | hpc <;> rw [hpc]
    · exact .sends .sending (.ackLog ht)
    · exact .sends .sending (.ack ht)
  exact h.advance hctl rfl (fun hs => by simp [hstop] at hs) h.log (by simp) (by simp [hst])

/-- What `stateTransition` makes of a worker that was found at `FINISHED`, also when it has
failed since. -/
theorem Holds.ack (h : Holds err job .finishedSeen w) :
    Holds err job .sending
      (if w.counts && w.state = .finished then w.put .finishedAck else w) := by
  rcases h with hin | ⟨he, -, hbr⟩
  · have hst := hin.ctl.of_finishedSeen.2.2.1
    have hc := hin.counts rfl (by simp [hst])
    simp only [hc, hst, decide_true, Bool.and_self, if_true]
    exact hin.ack.holds
  refine .inr ⟨he, rfl, ?_⟩
  split
  · rename_i hhit
    simp only [Bool.and_eq_true, decide_eq_true_eq] at hhit
    have hstates := hbr.ctl.states
    have hvalid := hbr.valid
    rw [hhit.2] at hvalid hstates
    refine { hbr with ctl := ?_, valid := hvalid }
    rcases hstates with ⟨-, hpc | hpc⟩ | hc | hc
    · exact hpc ▸ .failing rfl
    · exact hpc ▸ .gone rfl
    · cases hc
    · cases hc
  · exact hbr

/-- The master adds a cell to the queue of a worker that receives. -/
theorem Holds.add (h : Holds err job .running w) {r : Bool}
    (hadd : w.bufferQueueAdd cell false = some (w', r)) : Holds err job .running w' := by
  obtain ⟨hlt, hr, rfl⟩ := bufferQueueAdd_eq_some hadd
  simp only [Bool.false_and, Bool.or_false] at hr
  rcases h with h | ⟨he, hg, h⟩
  · obtain ⟨hsize, -⟩ := h.sized (by simp)
    refine .inl { h with sized := fun _ => ⟨hsize, ?_⟩, stop := hr.trans h.stop,
                           log := h.log.snoc .add }
    simp only [length_append, length_singleton]
    omega
  refine .inr ⟨he, hg, { h with sized := ⟨h.sized.1, ?_⟩, log := h.log.snoc .add }⟩
  have := h.sized.1
  simp only [length_append, length_singleton]
  omega

/-- The master takes a cell out of the queue of a worker that sends, or finds none. -/
theorem Holds.getNoWait (h : Holds err job .sending w) :
    Holds err job .sending w.bufferQueueGetNoWait.2 := by
  rw [bufferQueueGetNoWait_snd]
  rcases h with h | ⟨he, hg, h⟩
  · obtain ⟨hsize, hlen⟩ := h.sized (by simp)
    refine .inl { h with sized := fun _ => ⟨hsize, ?_⟩, log := h.log.snoc .get }
    simp only [length_tail]
    omega
  refine .inr ⟨he, hg, { h with sized := ⟨h.sized.1, ?_⟩, log := h.log.snoc .get }⟩
  have := h.sized.2
  simp only [length_tail]
  omega

theorem Holds.get (h : Holds err job .sending w)
    (hget : w.bufferQueueGet = some (cell, w')) : Holds err job .sending w' := by
  obtain ⟨rest, hcells, rfl⟩ := bufferQueueGet_eq_some hget
  have h' := h.getNoWait
  rw [bufferQueueGetNoWait_snd, hcells] at h'
  exact h'

/-- The re-assignment of `ExecAppend`: a new plan, `READY`, and the stop flag cleared. -/
theorem InStage.assign (h : InStage job .endSeen w) (ht : job.workType = .query)
    (subnode : Option Nat) :
    InStage job .sending ({ w.put .ready with subnode := subnode }.bufferQueueSetStop false).1 := by
  obtain ⟨hwt, hst, hpc, -⟩ := h.ctl.of_endSeen
  have hctl : Admits job.workType .sending w.workType .ready w.pc false := by
    rw [hwt, hpc, ht]; exact .sends .sending (.queryReady rfl)
  have hold : w.state ≠ .none := by simp [hst]
  have hvalid : w.valid = true := by rw [h.valid]; simp [hst]
  have hsized := h.sized (by simp)
  exact ⟨hctl, hvalid, h.new_of_admits hold hctl (by simp), h.workersList, h.jobsList,
    fun _ => hsized, by simp [Stage.StopOk, Slot.bufferQueueSetStop, bufferQueueSetStop],
    h.log.snoc .setStop⟩

/-- The stop loop sets the flag of a worker that has not ended.  If it was set before,
the worker has sent its last cell. -/
theorem Holds.setStop (h : Holds err job .sending w) :
    Holds err job (if w.bufferQueue.stop then .stopping else .stopHeld)
      (w.bufferQueueSetStop true).1 := by
  rcases h with h | ⟨he, -, h⟩
  swap
  · exact .inr ⟨he, by split <;> rfl, { h with log := h.log.snoc .setStop }⟩
  have hs := h.ctl.of_sends .sending
  have hstop : w.bufferQueue.stop = true → w.Sent := h.stop
  have hnew {g : Stage} (hg : g ≠ .startup) :
      (w.bufferQueueSetStop true).1.new = true ↔ g = .startup ∧ w.pc = .absent := by
    have : w.new = false := by simpa using h.new
    simp [Slot.bufferQueueSetStop, this, hg]
  cases hold : w.bufferQueue.stop with
  | true =>
    exact .inl ⟨.sends .stopping hs, h.valid, hnew (by simp), h.workersList,
      h.jobsList, fun _ => h.sized (by simp), .inl (hstop hold), h.log.snoc .setStop⟩
  | false =>
    exact .inl ⟨.sends .stopHeld hs, h.valid, hnew (by simp), h.workersList,
      h.jobsList, fun _ => h.sized (by simp), .inr rfl, h.log.snoc .setStop⟩

/-- A worker that has ended needs no telling. -/
theorem Holds.stopping_of_ended (h : Holds err job .sending w) (hst : w.state = .ended) :
    Holds err job .stopping w := by
  rcases h with h | ⟨he, -, h⟩
  · exact .inl ⟨.sends .stopping (h.ctl.of_sends .sending), h.valid, by simpa using h.new,
      h.workersList, h.jobsList, fun _ => h.sized (by simp), .inl (.inl hst), h.log⟩
  · exact .inr ⟨he, rfl, h⟩

/-- Making room: afterwards the worker finds room, or had sent everything. -/
theorem Holds.makeRoom (h : Holds err job .stopHeld w) (hq : 0 < job.queueSize) :
    Holds err job .stopping w.bufferQueueGetNoWait.2 := by
  rw [bufferQueueGetNoWait_snd]
  rcases h with h | ⟨he, -, h⟩
  · obtain ⟨hsize, hlen⟩ := h.sized (by simp)
    have hroom : w.bufferQueue.cells.tail.length < w.bufferQueue.initSize := by
      simp only [length_tail]
      omega
    have hstop : w.Sent ∨ w.bufferQueue.stop = true := h.stop
    refine .inl ⟨.sends .stopping (h.ctl.of_sends .stopHeld), h.valid, by simpa using h.new,
      h.workersList, h.jobsList, fun _ => ⟨hsize, by simp only [length_tail]; omega⟩, ?_,
      h.log.snoc .get⟩
    exact hstop.imp id fun hstop => ⟨hstop, hroom⟩
  refine .inr ⟨he, rfl, { h with sized := ⟨h.sized.1, ?_⟩, log := h.log.snoc .get }⟩
  have := h.sized.2
  simp only [length_tail]
  omega

/-- The ending task: the queue destroyed, `READY`, and nothing left to do. -/
theorem InStage.destroy (h : InStage job .endSeen w) :
    InStage job .ending { w.destroyBufferQueue.put .ready with workType := .ended } := by
  obtain ⟨hwt, hst, hpc, -⟩ := h.ctl.of_endSeen
  have hold : w.state ≠ .none := by simp [hst]
  have hctl : Admits job.workType .ending .ended .ready w.pc false := by rw [hpc]; exact .endReady
  have hvalid : w.valid = true := by rw [h.valid]; simp [hst]
  exact ⟨hctl, hvalid, h.new_of_admits hold hctl (by simp), h.workersList, h.jobsList,
    fun _ => h.sized (by simp), trivial, _, _, h.log, rfl⟩

/-- The release loop reads the queue again and takes the worker off the lists. -/
theorem InStage.release (h : InStage job .deadSeen w) : InStage job .released w.drain.unlist := by
  obtain ⟨hwt, hst, hpc, hseen⟩ := h.ctl.of_deadSeen
  have hold : w.state ≠ .none := by simp [hst]
  have hctl : Admits job.workType .released w.workType w.state w.pc w.seen := by
    rw [hwt, hst, hpc, hseen]; exact .released
  obtain ⟨hsize, -⟩ := h.sized (by simp)
  rw [drain_eq]
  exact ⟨hctl, h.valid, h.new_of_admits hold hctl hold, rfl, rfl, fun _ => ⟨hsize, Nat.zero_le _⟩,
    trivial, _, _, h.log, rfl⟩

theorem inStage_create (job : Job α) (subnode : Option Nat) :
    InStage job .startup (create job.workType subnode job.queueSize) :=
  ⟨.absent rfl, rfl, by simp [create], rfl, rfl, fun _ => ⟨rfl, Nat.zero_le _⟩, rfl,
    [], rfl, by simp⟩

theorem inStage_unused (job : Job α) : InStage job .unused (unused : Slot α) :=
  ⟨.unused, rfl, by simp [unused], rfl, rfl, fun h => absurd rfl h, rfl, trivial⟩

end Slot

end PrlPg
