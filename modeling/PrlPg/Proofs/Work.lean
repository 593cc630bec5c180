/-
How much one worker has left to do, and when it can do it.

`recvWork` counts what is left of a worker that receives and sorts, `sendWork` what is
left of one that sends: the points of its program still ahead, the tuples still to be
sent and the cells in its queue.  Every step of a worker lowers its count.

The second half says when a worker has no step.  There are few reasons: it has reached
the state its stage leads to, its queue is full and it sends, or its queue is empty and
it receives.  The last two are for the master to resolve.
-/
import PrlPg.Proofs.Streams

namespace PrlPg

open List Slot Bool

variable {α : Type*}

/-- What is left to do for a worker that receives. -/
def Slot.recvWork (w : Slot α) : Nat :=
  w.bufferQueue.cells.length +
    match w.pc with
    | .absent => 7
    | .starting => 6
    | .waitReady => 5
    | .dispatch => 4
    | .recv _ => 3
    | .performsort _ => 2
    | .finishedLog _ => 1
    | _ => 0

/-- What is left to do for a worker that sends.  A tuple costs more before it is in the
queue than afterwards. -/
def Slot.sendWork (rows : Option Nat → List α) (w : Slot α) : Nat :=
  3 * w.bufferQueue.cells.length +
    match w.pc with
    | .absent => 4 * (rows w.subnode).length + 9
    | .starting => 4 * (rows w.subnode).length + 8
    | .waitReady => if w.state = .ended then 0 else 4 * (rows w.subnode).length + 7
    | .dispatch => 4 * (rows w.subnode).length + 6
    | .finishedLog run => 4 * run.length + 7
    | .waitAck run => 4 * run.length + 6
    | .send rest => 4 * rest.length + 5
    | .setEnded | .setDead => 1
    | _ => 0

section Worker

variable {job : Job α} {g : Stage} {w w' : Slot α} {localSort : List α → List α}
  {rows : Option Nat → List α} {held : Bool}

/-! ### Every step lowers it -/

/-- A step of a worker that receives does not change what it was sent. -/
theorem recv_slaveStep (hin : InStage job g w) (hg : g.Receives)
    (hst : slaveStep localSort rows held w = some w') : w'.recvWork < w.recvWork ∧
      ∀ stream, Received localSort w stream → Received localSort w' stream := by
  have hctl := hin.ctl
  obtain ⟨valid, state, new, workType, subnode, bq, inW, inJ, pc, seen, log⟩ := w
  cases hctl with
  | sends hs => cases hs <;> cases hg
  | unused | absent => simp [slaveStep] at hst
  | initial | initialSeen | waitAck | waitAckSeen => simp [slaveStep, waitForState] at hst
  | starting =>
    simp only [slaveStep] at hst
    split_ifs at hst
    cases hst
    exact ⟨by simp [recvWork, put], fun _ => id⟩
  | ready =>
    obtain rfl := waitForState_eq_some rfl (by simp) hst
    exact ⟨by simp [recvWork], fun _ => id⟩
  | recv =>
    simp only [slaveStep, recvStep] at hst
    split at hst
    · cases hst
    all_goals
      rename_i v hget
      obtain ⟨rest, hcells, rfl⟩ := bufferQueueGet_eq_some hget
      cases hst
      have hcells : bq.cells = _ := hcells
      simp [recvWork, Received, hcells]
  | performsort =>
    rw [announce_eq_some hst]
    exact ⟨by simp [recvWork], fun _ h => ⟨_, h, rfl⟩⟩
  | dispatch | finishedLog | finishedLogSeen =>
    cases hst
    exact ⟨by simp [recvWork], fun _ => id⟩
  | _ => cases hg

/-- One round of a send loop. -/
theorem sendWork_sendStep {rest : List α} (hpc : w.pc = .send rest)
    (hst : sendStep rest w = some w') : w'.sendWork rows < w.sendWork rows := by
  cases rest
  all_goals
    simp only [sendStep] at hst
    split at hst
    · cases hst
    rename_i v r hadd
    obtain ⟨-, -, rfl⟩ := bufferQueueAdd_eq_some hadd
    cases hst
  · simp only [sendWork, hpc, length_append, length_singleton, length_nil]
    omega
  · cases r <;> simp only [sendWork, hpc, length_append, length_nil,
        length_cons, false_eq_true, if_true, if_false] <;> omega

/-- The stages of a job whose workers do not receive, or do not any more. -/
def Stage.Gives (job : Job α) (g : Stage) : Prop := job.workType = .query ∨ g ≠ .running

theorem sendWork_slaveStep (hin : InStage job g w) (hg : g.Gives job)
    (hst : slaveStep localSort rows held w = some w') : w'.sendWork rows < w.sendWork rows := by
  have hctl := hin.ctl
  cases w
  cases hctl with
  | ready ht | dispatch ht | recv ht | performsort ht | finishedLog ht | waitAck ht =>
    rcases hg with hq | hne
    · simp [ht] at hq
    · cases hne rfl
  | unused | absent | dead | deadSeen | released => simp [slaveStep] at hst
  | starting =>
    simp only [slaveStep] at hst
    split_ifs at hst
    cases hst
    simp [sendWork, put]
  | endReady =>
    obtain rfl := waitForState_eq_some rfl (by simp) hst
    simp [sendWork]
  | finishedLogSeen | endDispatch =>
    cases hst
    simp [sendWork]
  | endDead =>
    rw [announce_eq_some hst]
    simp [sendWork]
  | sends hs hctl =>
    cases hctl with
    | ended => simp [slaveStep, waitForState] at hst
    | ack | queryReady =>
      obtain rfl := waitForState_eq_some rfl (by simp) hst
      simp [sendWork]
    | sortSend | querySend => exact sendWork_sendStep rfl hst
    | sortDone | queryDone =>
      rw [announce_eq_some hst]
      simp [sendWork]
    | _ =>
      cases hst
      simp [sendWork]
  | _ => simp [slaveStep, waitForState] at hst

section

variable (hin : InStage job g w) (hst : forkSlave w = some w')
include hin hst

theorem recvWork_forkSlave :
    w'.recvWork < w.recvWork := by
  obtain ⟨-, hnew, rfl⟩ := forkSlave_eq_some hst
  simp [recvWork, (hin.new.mp hnew).2]

theorem sendWork_forkSlave :
    w'.sendWork rows < w.sendWork rows := by
  obtain ⟨-, hnew, rfl⟩ := forkSlave_eq_some hst
  simp [sendWork, (hin.new.mp hnew).2]

end

/-! ### When there is one -/

/-- The worker has a step, or the postmaster has one for it. -/
def Slot.CanMove (localSort : List α → List α) (rows : Option Nat → List α) (w : Slot α) : Prop :=
  (slaveStep localSort rows false w).isSome ∨ (forkSlave w).isSome

theorem InStage.canMove_startup (hin : InStage job .startup w) :
    w.CanMove localSort rows ∨ w.state = .initial := by
  have hctl := hin.ctl
  have hnew := hin.new
  have hjobs := hin.jobsList
  obtain ⟨valid, state, new, workType, subnode, bq, inW, inJ, pc, seen, log⟩ := w
  cases hctl with
  | sends hs => cases hs
  | absent =>
    refine .inl (.inr ?_)
    have hnew' : new = true := hnew.mpr ⟨rfl, rfl⟩
    have hjobs' : inJ = true := hjobs
    simp [PrlPg.forkSlave, hnew', hjobs']
  | starting => exact .inl (.inl (by simp [PrlPg.slaveStep]))
  | initial => exact .inr rfl

/-- A worker that receives is waiting for a cell, or has sorted. -/
theorem InStage.canMove_running (hin : InStage job .running w) :
    w.CanMove localSort rows ∨ w.state = .finished ∨
      ∃ got, w.pc = .recv got ∧ w.bufferQueue.cells = [] := by
  have hctl := hin.ctl
  obtain ⟨valid, state, new, workType, subnode, bq, inW, inJ, pc, seen, log⟩ := w
  cases hctl with
  | sends hs => cases hs
  | ready => exact .inl (.inl (by simp [PrlPg.slaveStep, waitForState]))
  | recv =>
    obtain ⟨size, cells, stop⟩ := bq
    cases cells with
    | nil => exact .inr (.inr ⟨_, rfl, rfl⟩)
    | cons cell rest =>
      refine .inl (.inl ?_)
      cases cell <;> simp [PrlPg.slaveStep, PrlPg.recvStep, Slot.bufferQueueGet, bufferQueueGet]
  | finishedLog | waitAck => exact .inr (.inl rfl)
  | _ => exact .inl (.inl (by simp [PrlPg.slaveStep, announce]))

/-- A worker that sends has a step whenever there is room in its queue. -/
theorem SendAdmits.canMove (hctl : SendAdmits job.workType w.workType w.state w.pc w.seen)
    (hroom : w.Sent ∨ w.bufferQueue.cells.length < w.bufferQueue.initSize) :
    w.CanMove localSort rows ∨ w.state = .ended := by
  obtain ⟨valid, state, new, workType, subnode, bq, inW, inJ, pc, seen, log⟩ := w
  have hsend : ∀ rest : List α, pc = .send rest → state ≠ .ended →
      (sendStep rest ⟨valid, state, new, workType, subnode, bq, inW, inJ, pc, seen, log⟩).isSome := by
    rintro rest rfl hne
    have hlt : bq.cells.length < bq.initSize := by
      rcases hroom with (hs | hs) | hlt
      · exact absurd hs hne
      · cases hs
      · exact hlt
    cases rest <;> simp [sendStep, Slot.bufferQueueAdd, bufferQueueAdd, hlt]
  cases hctl with
  | ended => exact .inr rfl
  | ack | queryReady => exact .inl (.inl (by simp [slaveStep, waitForState]))
  | sortDone | queryDone => exact .inl (.inl (by simp [slaveStep, announce]))
  | sortSend | querySend => exact .inl (.inl (hsend _ rfl (by simp)))
  | _ => exact .inl (.inl (by simp [slaveStep]))

theorem InStage.canMove_stopping (hin : InStage job .stopping w) :
    w.CanMove localSort rows ∨ w.state = .ended := by
  have hstop : w.Sent ∨ _ := hin.stop
  exact (hin.ctl.of_sends .stopping).canMove (hstop.imp id fun h => h.2)

theorem InStage.canMove_ending (hin : InStage job .ending w) :
    w.CanMove localSort rows ∨ w.state = .dead := by
  have hctl := hin.ctl
  cases w
  cases hctl with
  | sends hs => cases hs
  | dead => exact .inr rfl
  | endReady => exact .inl (.inl (by simp [PrlPg.slaveStep, waitForState]))
  | _ => exact .inl (.inl (by simp [PrlPg.slaveStep, announce]))

/-- A worker with something to send has a step, or its queue is not empty. -/
theorem InStage.canMove_sending (hin : InStage job .sending w) (hq : 0 < job.queueSize)
    (hout : w.outgoing rows ≠ []) :
    w.CanMove localSort rows ∨ w.bufferQueue.cells ≠ [] := by
  by_cases hcells : w.bufferQueue.cells = []
  swap
  · exact .inr hcells
  have hsize := (hin.sized (by simp)).1
  have hctl := hin.ctl.of_sends .sending
  refine (hctl.canMove (.inr (by rw [hsize, hcells]; exact hq))).imp id fun hend => ?_
  have hsend : w.toSend rows = [] := by
    cases w
    cases hend
    cases hctl with
    | ended => rfl
  simp [outgoing, hcells, hsend] at hout

/-- A worker with nothing left to send is done, or about to say so. -/
theorem InStage.canMove_sent (hin : InStage job .sending w) (hout : w.outgoing rows = []) :
    w.CanMove localSort rows ∨ w.state = .ended := by
  have hctl := hin.ctl.of_sends .sending
  refine hctl.canMove (.inl ?_)
  have hsend : w.toSend rows = [] := (append_eq_nil_iff.mp hout).2
  cases w
  cases hctl with
  | ended => exact .inl rfl
  | sortDone | queryDone => exact .inr rfl
  | _ => simp [toSend, message] at hsend

theorem sendWork_get {cell : BufferQueueCell α} (hget : w.bufferQueueGet = some (cell, w')) :
    w'.sendWork rows + 3 = w.sendWork rows := by
  obtain ⟨rest, hcells, rfl⟩ := bufferQueueGet_eq_some hget
  simp only [sendWork, hcells, length_cons]
  omega

end Worker

end PrlPg
