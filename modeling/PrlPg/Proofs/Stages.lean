/-
How far a worker can be, given how far the master is.

The master takes its workers through the job in step: nobody is told to start before
everybody has come up, nobody is told to send before everybody has sorted, and so on.
So the point the master has reached bounds where each worker can be, and that bound is
a `Stage`.  `Admits` lists, stage by stage, the states and points a worker may be in,
together with whether the current value of `worker->state` has been read by the other
side.

`InStage` adds what else holds of the records meanwhile: which lists they are on, how
full the queue can be, what the stop flag means and what has been done to the queue.
A worker that failed leaves the table; it is `Broken`, and only some stages allow it.

The results of this file are about one worker: whatever a worker does by itself, it
stays in its stage.
-/
import PrlPg.Executor.Job

namespace PrlPg

open Option List Slot

variable {α : Type*} {cell : BufferQueueCell α}

inductive Stage
  /-- not asked for -/
  | unused
  /-- asked for, coming up -/
  | startup
  /-- up, and the master knows -/
  | initialSeen
  /-- receiving and sorting -/
  | running
  /-- sorted, and the master knows -/
  | finishedSeen
  /-- sending the result -/
  | sending
  /-- told to stop, the master about to make room in the queue -/
  | stopHeld
  /-- told to stop -/
  | stopping
  /-- done, and the master knows -/
  | endSeen
  /-- leaving the job loop -/
  | ending
  /-- gone, and the master knows -/
  | deadSeen
  /-- off all lists -/
  | released
  deriving DecidableEq

/-- The stages in which a worker sends. -/
inductive Stage.Sends : Stage → Prop
  | sending : Sends .sending
  | stopHeld : Sends .stopHeld
  | stopping : Sends .stopping

/-- The states and points of a worker that sends. -/
inductive SendAdmits (t : WorkType) : WorkType → WorkerState → WorkerPc α → Bool → Prop
  | ackLog {run seen} (h : t = .sort) : SendAdmits t .sort .finishedAck (.finishedLog run) seen
  | ack {run seen} (h : t = .sort) : SendAdmits t .sort .finishedAck (.waitAck run) seen
  | sortSend {rest} (h : t = .sort) : SendAdmits t .sort .finishedAck (.send rest) true
  | sortDone (h : t = .sort) : SendAdmits t .sort .finishedAck .setEnded true
  | queryReady {seen} (h : t = .query) : SendAdmits t .query .ready .waitReady seen
  | queryDispatch (h : t = .query) : SendAdmits t .query .ready .dispatch true
  | querySend {rest} (h : t = .query) : SendAdmits t .query .ready (.send rest) true
  | queryDone (h : t = .query) : SendAdmits t .query .ready .setEnded true
  | ended {wt seen} (h : wt = t) : SendAdmits t wt .ended .waitReady seen

/-- The states and points of a stage, for a job whose workers are given work `t`. -/
inductive Admits (t : WorkType) : Stage → WorkType → WorkerState → WorkerPc α → Bool → Prop
  | unused {wt seen} : Admits t .unused wt .none .absent seen
  | absent {wt seen} (h : wt = t) : Admits t .startup wt .none .absent seen
  | starting {wt seen} (h : wt = t) : Admits t .startup wt .none .starting seen
  | initial {wt seen} (h : wt = t) : Admits t .startup wt .initial .waitReady seen
  | initialSeen {wt} (h : wt = t) : Admits t .initialSeen wt .initial .waitReady true
  | ready {seen} (h : t = .sort) : Admits t .running .sort .ready .waitReady seen
  | dispatch (h : t = .sort) : Admits t .running .sort .ready .dispatch true
  | recv {got} (h : t = .sort) : Admits t .running .sort .ready (.recv got) true
  | performsort {got} (h : t = .sort) : Admits t .running .sort .ready (.performsort got) true
  | finishedLog {run seen} (h : t = .sort) :
      Admits t .running .sort .finished (.finishedLog run) seen
  | waitAck {run seen} (h : t = .sort) : Admits t .running .sort .finished (.waitAck run) seen
  | finishedLogSeen {run} (h : t = .sort) :
      Admits t .finishedSeen .sort .finished (.finishedLog run) true
  | waitAckSeen {run} (h : t = .sort) :
      Admits t .finishedSeen .sort .finished (.waitAck run) true
  | endSeen {wt} (h : wt = t) : Admits t .endSeen wt .ended .waitReady true
  | endReady {seen} : Admits t .ending .ended .ready .waitReady seen
  | endDispatch : Admits t .ending .ended .ready .dispatch true
  | endDead : Admits t .ending .ended .ready .setDead true
  | dead {seen} : Admits t .ending .ended .dead .exited seen
  | deadSeen : Admits t .deadSeen .ended .dead .exited true
  | released : Admits t .released .ended .dead .exited true
  | sends {g wt st pc seen} (hg : g.Sends) (h : SendAdmits t wt st pc seen) :
      Admits t g wt st pc seen

/-! ### The records in a stage -/

/-- On both lists. -/
def Stage.listed : Stage → Bool
  | .unused | .released => false
  | _ => true

/-- The worker has put its last cell into the queue. -/
def Slot.Sent (w : Slot α) : Prop := w.state = .ended ∨ w.pc = .setEnded

/-- What the stop flag and the room in the queue are in a stage.  Before `ExecEndSort`
the flag is only set by the end marker.  After it, a worker that still has something to
send finds room and finds the flag set. -/
def Stage.StopOk (g : Stage) (w : Slot α) : Prop :=
  match g with
  | .unused => w.bufferQueue.cells = []
  | .startup | .initialSeen | .running | .finishedSeen => w.bufferQueue.stop = false
  | .sending => w.bufferQueue.stop = true → w.Sent
  | .stopHeld => w.Sent ∨ w.bufferQueue.stop = true
  | .stopping => w.Sent ∨
      (w.bufferQueue.stop = true ∧ w.bufferQueue.cells.length < w.bufferQueue.initSize)
  | _ => True

/-- The queue keeps its capacity and is never overfull. -/
def Slot.Sized (size : Nat) (w : Slot α) : Prop :=
  w.bufferQueue.initSize = size ∧ w.bufferQueue.cells.length ≤ size

/-- An operation of a queue that is in use. -/
inductive QueueOp.Use : QueueOp → Prop
  | add : Use .add
  | get : Use .get
  | setStop : Use .setStop

/-- Created once, then only used. -/
def LiveLog (log : List QueueOp) : Prop := ∃ l, log = .create :: l ∧ ∀ op ∈ l, op.Use

/-- Created once, used, destroyed once. -/
def DestroyedLog (log : List QueueOp) : Prop := ∃ l left, LiveLog l ∧ log = l ++ [.destroy left]

/-- Destroyed, and read again. -/
def ReusedLog (log : List QueueOp) : Prop :=
  ∃ l m, DestroyedLog l ∧ log = l ++ List.replicate (m + 1) .getNoSem

def Stage.LogOk (g : Stage) (log : List QueueOp) : Prop :=
  match g with
  | .unused => True
  | .ending | .deadSeen => DestroyedLog log
  | .released => ReusedLog log
  | _ => LiveLog log

/-- A worker's records while the worker is in stage `g`. -/
structure InStage (job : Job α) (g : Stage) (w : Slot α) : Prop where
  ctl : Admits job.workType g w.workType w.state w.pc w.seen
  valid : w.valid = decide (w.state ≠ .none)
  new : w.new = true ↔ g = .startup ∧ w.pc = .absent
  workersList : w.inWorkersList = g.listed
  jobsList : w.inJobsList = g.listed
  sized : g ≠ .unused → w.Sized job.queueSize
  stop : g.StopOk w
  log : g.LogOk w.log

/-- The states of a worker that has a job in hand. -/
def WorkerState.atWork : WorkerState → Bool
  | .ready | .finished | .finishedAck => true
  | _ => false

theorem WorkerState.ne_none_of_atWork {st : WorkerState} (h : st.atWork = true) :
    st ≠ .none := by
  rintro rfl
  cases h

/-- Where a failed worker stands. -/
inductive Failed : WorkerState → WorkerPc α → Prop
  | failing {st} (h : st.atWork = true) : Failed st .failing
  | gone {st} (h : st.atWork = true) : Failed st .exited
  | canceled : Failed .canceled .exited
  | neverUp : Failed .none .exited

/-- The records of a worker that failed during the job. -/
structure Broken (job : Job α) (w : Slot α) : Prop where
  ctl : Failed w.state w.pc
  workType : w.workType = job.workType
  valid : w.valid = decide (w.state ≠ .none)
  new : w.new = false
  workersList : w.inWorkersList = true
  jobsList : w.inJobsList = true
  sized : w.Sized job.queueSize
  log : LiveLog w.log

/-- The stages during which a worker may fail. -/
def Stage.mayFail : Stage → Bool
  | .startup | .running | .finishedSeen | .sending | .stopHeld | .stopping => true
  | _ => false

/-- In the stage, or failed where that can happen; `err` says whether the run has errors
at all. -/
def Holds (err : Bool) (job : Job α) (g : Stage) (w : Slot α) : Prop :=
  InStage job g w ∨ (err = true ∧ g.mayFail = true ∧ Broken job w)

theorem InStage.holds {err : Bool} {job : Job α} {g : Stage} {w : Slot α} (h : InStage job g w) :
    Holds err job g w := .inl h

theorem job_workType (job : Job α) :
    (job.isSort = true ∧ job.workType = .sort) ∨ (job.isSort = false ∧ job.workType = .query) := by
  cases h : job.isSort <;> simp [Job.workType, h]

theorem job_workType_ne_ended (job : Job α) : job.workType ≠ .ended := by
  rcases job_workType job with ⟨-, h⟩ | ⟨-, h⟩ <;> simp [h]

theorem workersCnt_sort {job : Job α} (hsort : job.isSort = true) : job.workersCnt = job.level := by
  cases hnode : job.node with
  | sort outer => simp [Job.workersCnt, hnode]
  | append l => simp [Job.isSort, hnode] at hsort

/-! ### Queue operations on a slot -/

theorem LiveLog.snoc {log : List QueueOp} (h : LiveLog log) {op : QueueOp} (hop : op.Use) :
    LiveLog (log ++ [op]) := by
  obtain ⟨l, rfl, hl⟩ := h
  refine ⟨l ++ [op], rfl, ?_⟩
  intro o ho
  rcases mem_append.mp ho with ho | ho
  · exact hl o ho
  · rw [mem_singleton.mp ho]; exact hop

namespace Slot

theorem bufferQueueAdd_eq_some {w w' : Slot α} {sol r : Bool}
    (h : w.bufferQueueAdd cell sol = some (w', r)) :
    w.bufferQueue.cells.length < w.bufferQueue.initSize ∧
      r = (w.bufferQueue.stop || (sol && cell.isLast)) ∧
      w' = { w with bufferQueue :=
                      { w.bufferQueue with cells := w.bufferQueue.cells ++ [cell], stop := r },
                    log := w.log ++ [.add] } := by
  simp only [bufferQueueAdd, PrlPg.bufferQueueAdd] at h
  split at h
  · rename_i hlt
    obtain ⟨rfl, rfl⟩ := h
    exact ⟨hlt, rfl, rfl⟩
  · cases h

theorem bufferQueueGet_eq_some {w w' : Slot α}
    (h : w.bufferQueueGet = some (cell, w')) :
    ∃ rest, w.bufferQueue.cells = cell :: rest ∧
      w' = { w with bufferQueue := { w.bufferQueue with cells := rest },
                    log := w.log ++ [.get] } := by
  simp only [bufferQueueGet, PrlPg.bufferQueueGet] at h
  split at h
  · cases h
  rename_i c rest hcells
  obtain ⟨rfl, rfl⟩ := h
  exact ⟨rest, hcells, rfl⟩

theorem bufferQueueGetNoWait_snd (w : Slot α) : w.bufferQueueGetNoWait.2 =
      { w with bufferQueue := { w.bufferQueue with cells := w.bufferQueue.cells.tail },
               log := w.log ++ [.get] } := by
  obtain ⟨_, _, _, _, _, ⟨_, cells, _⟩, _, _, _, _, _⟩ := w
  cases cells <;> rfl

theorem bufferQueueGetNoWait_fst (w : Slot α) :
    w.bufferQueueGetNoWait.1 = w.bufferQueue.cells.head? := by
  simp only [bufferQueueGetNoWait, PrlPg.bufferQueueGetNoWait]
  cases hc : w.bufferQueue.cells <;> rfl

end Slot

theorem bufferQueueDrain_eq (bq : BufferQueue α) : bufferQueueDrain (bq.cells.length + 1) bq
      = ({ bq with cells := [] }, bq.cells.length + 1) := by
  obtain ⟨size, cells, stop⟩ := bq
  induction cells with
  | nil => rfl
  | cons cell rest ih =>
    rw [length_cons, bufferQueueDrain]
    simp only [bufferQueueGetNoSem, ih]

theorem Slot.drain_eq (w : Slot α) :
    w.drain = { w with bufferQueue := { w.bufferQueue with cells := [] },
                       log := w.log ++ replicate (w.bufferQueue.cells.length + 1) .getNoSem } := by
  simp [drain, bufferQueueDrain_eq]

/-! ### What a worker does by itself -/

variable {st : WorkerState} {localSort : List α → List α} {rows : Option Nat → List α}
  {pc : WorkerPc α} {held seen : Bool} {wt : WorkType}

section Worker

variable {err : Bool} {job : Job α} {g : Stage} {w w' : Slot α} {next : WorkerPc α} {rest : List α}
  {got : List α}

section

variable (hg : g.Sends)
include hg

/-- Once the last cell is in the queue the stop flag does not matter any more. -/
theorem Stage.Sends.stopOk_of_sent (h : w.Sent) : g.StopOk w := by
  cases hg with
  | sending => exact fun _ => h
  | stopHeld => exact .inl h
  | stopping => exact .inl h

/-- Before that, the flag and the room in the queue are as good as the queue is. -/
theorem Stage.Sends.stopOk_congr (h : g.StopOk w) (hs : ¬ w.Sent)
    (hbq : w'.bufferQueue = w.bufferQueue) : g.StopOk w' := by
  cases hg with
  | sending => exact fun hstop => absurd (h (hbq ▸ hstop)) hs
  | _ => exact .inr (hbq ▸ h.resolve_left hs)

theorem Stage.Sends.listed : g.listed = true := by cases hg <;> rfl

theorem Stage.Sends.mayFail : g.mayFail = true := by cases hg <;> rfl

theorem Stage.Sends.logOk (log : List QueueOp) : g.LogOk log ↔ LiveLog log := by
  cases hg <;> rfl

theorem Stage.Sends.ne_unused : g ≠ .unused := by cases hg <;> simp

end

section

variable {t : WorkType} (h : Admits t g wt st pc seen) (hst : st ≠ .none)
include h hst

theorem Admits.not_absent : pc ≠ .absent := by
  cases h with
  | sends _ h => cases h <;> simp
  | _ => first | exact absurd rfl hst | simp

theorem Admits.used : g ≠ .unused := by
  cases h <;> first | exact absurd rfl hst | exact Stage.Sends.ne_unused ‹_› | simp

end

section

variable (h : InStage job g w)
include h

theorem InStage.new_of_admits (hold : w.state ≠ .none) {g' : Stage}
    (hctl : Admits job.workType g' wt st pc seen) (hne : st ≠ .none) :
    w.new = true ↔ g' = .startup ∧ pc = .absent := by
  rw [h.new]
  simp [h.ctl.not_absent hold, hctl.not_absent hne]

/-- Moving on to a stage `g'` changes nothing of the queue and of the lists. -/
theorem InStage.advance {g' : Stage}
    (hctl : Admits job.workType g' wt st pc seen) (hlisted : g'.listed = g.listed)
    (hstop : g'.StopOk { w with workType := wt, state := st, pc := pc, seen := seen })
    (hlog : g'.LogOk w.log) (hne : st ≠ .none := by simp) (hold : w.state ≠ .none := by simp) :
    InStage job g' { w with workType := wt, state := st, pc := pc, seen := seen } :=
  ⟨hctl, by rw [h.valid]; simp [hne, hold], h.new_of_admits hold hctl hne,
    h.workersList.trans hlisted.symm, h.jobsList.trans hlisted.symm,
    fun _ => h.sized (h.ctl.used hold), hstop, hlog⟩

/-- One round of a send loop.  In the last stages a full queue is no obstacle, and the
round is the last one. -/
theorem InStage.sendStep (hg : g.Sends)
    (hpc : w.pc = .send rest) (hdone : SendAdmits job.workType w.workType w.state
      (.setEnded : WorkerPc α) w.seen)
    (hmore : ∀ l : List α, SendAdmits job.workType w.workType w.state (.send l) w.seen)
    (hne : w.state ≠ .ended) (hup : w.state ≠ .none) (hst : sendStep rest w = some w') :
    InStage job g w' := by
  have hsent : ¬ w.Sent := by simp [Sent, hpc, hne]
  obtain ⟨hsize, -⟩ := h.sized hg.ne_unused
  have hlive := (hg.logOk w.log).mp h.log
  cases rest with
  | nil =>
    simp only [PrlPg.sendStep] at hst
    split at hst
    · cases hst
    rename_i v r hadd
    obtain ⟨hlt, -, rfl⟩ := bufferQueueAdd_eq_some hadd
    cases hst
    refine ⟨.sends hg hdone, h.valid, h.new_of_admits hup (.sends hg hdone) hup, h.workersList,
      h.jobsList, fun _ => ⟨hsize, ?_⟩, hg.stopOk_of_sent (.inr rfl), (hg.logOk _).mpr (hlive.snoc .add)⟩
    simp only [length_append, length_singleton]
    omega
  | cons t rest =>
    simp only [PrlPg.sendStep] at hst
    split at hst
    · cases hst
    rename_i v r hadd
    obtain ⟨hlt, hr, rfl⟩ := bufferQueueAdd_eq_some hadd
    simp only [BufferQueueCell.isLast, Bool.and_false, Bool.or_false] at hr
    cases hst
    have hctl : Admits job.workType g w.workType w.state
        (if r then .setEnded else .send rest : WorkerPc α) w.seen := by
      refine .sends hg ?_
      split
      · exact hdone
      · exact hmore rest
    refine ⟨hctl, h.valid, h.new_of_admits hup hctl hup, h.workersList, h.jobsList,
      fun _ => ⟨hsize, ?_⟩, ?_, (hg.logOk _).mpr (hlive.snoc .add)⟩
    · simp only [length_append, length_singleton]
      omega
    -- the flag the round returned is the one it found
    have hstop := h.stop
    cases hr' : r with
    | true => exact hg.stopOk_of_sent (.inr rfl)
    | false =>
      have hfalse : w.bufferQueue.stop = false := by rw [← hr, hr']
      cases hg with
      | sending => simp [Stage.StopOk]
      | _ => simp [Stage.StopOk, hsent, hfalse] at hstop

end

/-- One round of the receive loop. -/
theorem InStage.recvStep (h : InStage job .running w) (hpc : w.pc = .recv got)
    (hmore : ∀ l : List α, Admits job.workType .running w.workType w.state (.recv l) w.seen)
    (hlast : Admits job.workType .running w.workType w.state (.performsort got) w.seen)
    (hst : recvStep got w = some w') : InStage job .running w' := by
  obtain ⟨hsize, hlen⟩ := h.sized (by simp)
  simp only [PrlPg.recvStep] at hst
  split at hst
  · cases hst
  all_goals
    rename_i v hget
    obtain ⟨rest, hcells, rfl⟩ := bufferQueueGet_eq_some hget
    rw [hcells, length_cons] at hlen
    cases hst
    refine ⟨?_, h.valid, by rw [h.new]; simp [hpc], h.workersList, h.jobsList,
      fun _ => ⟨hsize, ?_⟩, h.stop, h.log.snoc .get⟩
    · first | exact hmore _ | exact hlast
    · show rest.length ≤ _
      omega

/-- A worker only waits for states the master writes, and reading one is seeing it. -/
theorem waitForState_eq_some (hw : st.writer = .master) (hc : w.state ≠ .canceled)
    (h : waitForState held st next w = some w') : w' = { w with seen := true, pc := next } := by
  simp only [waitForState] at h
  split_ifs at h with _ hst
  subst hst
  simp only [look, hw, ne_eq, reduceCtorEq, not_false_eq_true, decide_true, Bool.or_true,
    some.injEq] at h
  exact h.symm

theorem announce_eq_some (h : announce held st next w = some w') :
    w' = { w with state := st, seen := false, pc := next } := by
  simp only [announce, put] at h
  split_ifs at h
  simpa using h.symm

/-- A round of a send loop only changes the queue and the point of the worker. -/
theorem sendStep_eq_some (h : sendStep rest w = some w') :
    ∃ bq pc log, w' = { w with bufferQueue := bq, pc := pc, log := log } ∧
      (pc = .setEnded ∨ ∃ rest', pc = .send rest') := by
  cases rest
  all_goals
    simp only [PrlPg.sendStep] at h
    split at h
    · cases h
    rename_i v r hadd
    obtain ⟨-, -, rfl⟩ := bufferQueueAdd_eq_some hadd
    rw [some.injEq] at h
    refine ⟨_, _, _, h.symm, ?_⟩
  · exact .inl rfl
  split
  · exact .inl rfl
  · exact .inr ⟨_, rfl⟩

/-- So does a round of the receive loop. -/
theorem recvStep_eq_some (h : recvStep got w = some w') :
    ∃ bq pc log, w' = { w with bufferQueue := bq, pc := pc, log := log } ∧
      (pc = .performsort got ∨ ∃ got', pc = .recv got') := by
  simp only [PrlPg.recvStep] at h
  split at h
  · cases h
  all_goals
    rename_i v hget
    obtain ⟨rest, -, rfl⟩ := bufferQueueGet_eq_some hget
    rw [some.injEq] at h
  · exact ⟨_, _, _, h.symm, .inr ⟨_, rfl⟩⟩
  · exact ⟨_, _, _, h.symm, .inl rfl⟩

section

variable (h : InStage job g w)
include h

/-- A worker that reads or writes its state, or just goes on, keeps the rest. -/
theorem InStage.update (hctl : Admits job.workType g w.workType st pc seen)
    (hstop : g.StopOk { w with state := st, pc := pc, seen := seen })
    (hne : st ≠ .none := by simp) (hold : w.state ≠ .none := by simp) :
    InStage job g { w with state := st, pc := pc, seen := seen } :=
  h.advance hctl rfl hstop h.log hne hold

/-- A worker that sends stays in its stage. -/
theorem InStage.slaveStep_sends (hg : g.Sends)
    (hctl : SendAdmits job.workType w.workType w.state w.pc w.seen)
    (hst : slaveStep localSort rows held w = some w') : InStage job g w' := by
  have hstop := h.stop
  cases w
  cases hctl with
  | ended => simp [PrlPg.slaveStep, waitForState] at hst
  | ackLog ht =>
    cases hst
    refine h.update (.sends hg (.ack ht)) ?_
    exact hg.stopOk_congr hstop (by simp [Sent]) rfl
  | ack ht =>
    obtain rfl := waitForState_eq_some rfl (by simp) hst
    refine h.update (.sends hg (.sortSend ht)) ?_
    exact hg.stopOk_congr hstop (by simp [Sent]) rfl
  | queryReady ht =>
    obtain rfl := waitForState_eq_some rfl (by simp) hst
    refine h.update (.sends hg (.queryDispatch ht)) ?_
    exact hg.stopOk_congr hstop (by simp [Sent]) rfl
  | queryDispatch ht =>
    cases hst
    refine h.update (.sends hg (.querySend ht)) ?_
    exact hg.stopOk_congr hstop (by simp [Sent]) rfl
  | sortSend ht =>
    exact h.sendStep hg rfl (.sortDone ht) (fun _ => .sortSend ht) (by simp) (by simp) hst
  | querySend ht =>
    exact h.sendStep hg rfl (.queryDone ht) (fun _ => .querySend ht) (by simp) (by simp) hst
  | sortDone ht | queryDone ht =>
    rw [announce_eq_some hst]
    exact h.update (.sends hg (.ended ht.symm)) (hg.stopOk_of_sent (.inl rfl))

/-- A worker stays in its stage. -/
theorem InStage.slaveStep (hst : slaveStep localSort rows held w = some w') :
    InStage job g w' := by
  have hctl := h.ctl
  have hstop := h.stop
  cases w
  cases hctl with
  | unused | absent | dead | deadSeen | released => simp [PrlPg.slaveStep] at hst
  | starting ht =>
    simp only [PrlPg.slaveStep, put] at hst
    split_ifs at hst
    cases hst
    exact { h with ctl := .initial ht, valid := rfl, new := by simpa using h.new }
  | ready ht =>
    obtain rfl := waitForState_eq_some rfl (by simp) hst
    exact h.update (.dispatch ht) hstop
  | endReady =>
    obtain rfl := waitForState_eq_some rfl (by simp) hst
    exact h.update .endDispatch hstop
  | dispatch ht =>
    cases hst
    exact h.update (.recv ht) hstop
  | endDispatch =>
    cases hst
    exact h.update .endDead hstop
  | finishedLog ht =>
    cases hst
    exact h.update (.waitAck ht) hstop
  | finishedLogSeen ht =>
    cases hst
    exact h.update (.waitAckSeen ht) hstop
  | recv ht => exact h.recvStep rfl (fun _ => .recv ht) (.performsort ht) hst
  | performsort ht =>
    rw [announce_eq_some hst]
    exact h.update (.finishedLog ht) hstop
  | sends hg hs => exact h.slaveStep_sends hg hs hst
  | endDead =>
    rw [announce_eq_some hst]
    exact h.update .dead hstop
  | _ => simp [PrlPg.slaveStep, waitForState] at hst

end

/-- What a failed worker still does: announce that it was cancelled. -/
theorem Broken.slaveStep (h : Broken job w) (hst : slaveStep localSort rows held w = some w') :
    Broken job w' := by
  have hctl := h.ctl
  cases w
  cases hctl with
  | canceled | neverUp | gone => simp [PrlPg.slaveStep] at hst
  | failing hwork =>
    have hvalid := h.valid.trans (decide_eq_true (WorkerState.ne_none_of_atWork hwork))
    rw [announce_eq_some hst]
    exact { h with ctl := .canceled, valid := hvalid }

variable {fatal : Bool}

theorem Failed.states (h : Failed st pc) :
    (st.atWork = true ∧ (pc = .failing ∨ pc = .exited)) ∨ st = .canceled ∨ st = .none := by
  cases h with
  | failing hwork => exact .inl ⟨hwork, .inl rfl⟩
  | gone hwork => exact .inl ⟨hwork, .inr rfl⟩
  | canceled => exact .inr (.inl rfl)
  | neverUp => exact .inr (.inr rfl)

theorem Failed.of_atWork (h : st.atWork = true) :
    Failed st (if fatal then .exited else .failing : WorkerPc α) := by
  cases fatal with
  | true => exact .gone h
  | false => exact .failing h

theorem slaveFail_eq_some (hst : slaveFail fatal w = some w') :
    (w.pc = .starting ∧ w' = { w with pc := .exited }) ∨
      (w.pc ≠ .starting ∧ w' = { w with pc := if fatal then .exited else .failing }) := by
  unfold slaveFail at hst
  split at hst
  next hpc => exact .inl ⟨hpc, (some.inj hst).symm⟩
  next hpc =>
    by_cases hend : w.workType = .ended
    · rw [if_pos hend] at hst
      cases hst
    · rw [if_neg hend] at hst
      exact .inr ⟨by simp [hpc], (some.inj hst).symm⟩
  case h_8 => cases hst
  all_goals
    rename_i hpc
    exact .inr ⟨by simp [hpc], (some.inj hst).symm⟩

/-- A failing worker is broken, and it can only fail in a stage that allows for it. -/
theorem InStage.slaveFail (h : InStage job g w) (hst : slaveFail fatal w = some w') :
    g.mayFail = true ∧ Broken job w' := by
  have hctl := h.ctl
  have heq := slaveFail_eq_some hst
  cases w
  cases hctl with
  | starting ht =>
    cases hst
    exact ⟨rfl, .neverUp, ht, h.valid, by simpa using h.new, h.workersList, h.jobsList,
      h.sized (by simp), h.log⟩
  | dispatch ht | recv ht | performsort ht | finishedLog ht | finishedLogSeen ht =>
    obtain ⟨hs, -⟩ | ⟨-, rfl⟩ := heq
    · cases hs
    exact ⟨rfl, .of_atWork rfl, ht.symm, h.valid, by simpa using h.new, h.workersList, h.jobsList,
      h.sized (by simp), h.log⟩
  | sends hg hs =>
    have hlisted := hg.listed
    refine ⟨hg.mayFail, ?_⟩
    cases hs with
    | queryDispatch ht | querySend ht | queryDone ht | ackLog ht | sortSend ht | sortDone ht =>
      obtain ⟨hs, -⟩ | ⟨-, rfl⟩ := heq
      · cases hs
      exact ⟨.of_atWork rfl, ht.symm, h.valid, by simpa using h.new, h.workersList.trans hlisted,
        h.jobsList.trans hlisted, h.sized hg.ne_unused, (hg.logOk _).mp h.log⟩
    | _ => simp [PrlPg.slaveFail] at hst
  | _ => simp [PrlPg.slaveFail] at hst

theorem forkSlave_eq_some (hst : forkSlave w = some w') :
    w.inJobsList = true ∧ w.new = true ∧ w' = { w with new := false, pc := .starting } := by
  simp only [forkSlave] at hst
  split_ifs at hst with hnew
  obtain ⟨hj, hn⟩ := Bool.and_eq_true_iff.mp hnew
  exact ⟨hj, hn, (some.inj hst).symm⟩

/-- The postmaster only forks for a worker that is asked for and absent. -/
theorem InStage.forkSlave (h : InStage job g w) (hst : forkSlave w = some w') :
    InStage job g w' := by
  obtain ⟨-, hnew, rfl⟩ := forkSlave_eq_some hst
  obtain ⟨rfl, hpc⟩ := h.new.mp hnew
  have hctl := h.ctl
  cases w
  subst hpc
  cases hctl with
  | sends hg _ => cases hg
  | absent ht => exact { h with ctl := .starting ht, new := by simp }

/-! The same for a worker that may have failed. -/

section

variable (h : Holds err job g w)
include h

theorem Holds.slaveStep (hst : slaveStep localSort rows held w = some w') :
    Holds err job g w' := by
  rcases h with h | ⟨he, hg, h⟩
  · exact .inl (h.slaveStep hst)
  · exact .inr ⟨he, hg, h.slaveStep hst⟩

theorem Holds.slaveFail (he : err = true)
    (hst : slaveFail fatal w = some w') : Holds err job g w' := by
  rcases h with h | ⟨-, -, h⟩
  · exact .inr ⟨he, h.slaveFail hst⟩
  have hctl := h.ctl
  cases w
  cases hctl <;> simp [PrlPg.slaveFail] at hst

theorem Holds.forkSlave (hst : forkSlave w = some w') :
    Holds err job g w' := by
  rcases h with h | ⟨-, -, h⟩
  · exact .inl (h.forkSlave hst)
  · simp [PrlPg.forkSlave, h.new] at hst

end

end Worker

end PrlPg
