/-
What flows through the queue of one worker.

A queue is used in both directions, one after the other.  First the master sends: what
it has put in so far is what the worker has taken out, followed by what is still in the
queue (`Received`).  Then the worker sends: what the master has yet to see is what is in
the queue, followed by what the worker has yet to put in (`outgoing`).  A worker's own
steps change neither, as long as nobody asked it to stop.
-/
import PrlPg.Proofs.Handshake

namespace PrlPg

open List Slot Bool

variable {α : Type*}
variable {cell : BufferQueueCell α} {rest : List (BufferQueueCell α)}

/-- A list of tuples, with the end marker. -/
def message (l : List α) : List (BufferQueueCell α) := l.map .tuple ++ [.last]

theorem message_ne_nil (l : List α) : message l ≠ [] := by simp [message]

theorem message_nil : message ([] : List α) = [.last] := rfl

theorem message_cons (t : α) (l : List α) : message (t :: l) = .tuple t :: message l := rfl

/-- Only an end marker ends a message. -/
theorem message_eq_cons {l : List α} (h : message l = cell :: rest) :
    (l = [] ∧ cell = .last ∧ rest = []) ∨
      ∃ t l', l = t :: l' ∧ cell = .tuple t ∧ rest = message l' := by
  cases l with
  | nil =>
    rw [message_nil, cons.injEq] at h
    exact .inl ⟨rfl, h.1.symm, h.2.symm⟩
  | cons t l' =>
    rw [message_cons, cons.injEq] at h
    exact .inr ⟨t, l', rfl, h.1.symm, h.2.symm⟩

/-- Two messages cut at their first end markers are cut at the same place. -/
theorem map_tuple_append_last_inj {l l' : List α} {rest' : List (BufferQueueCell α)}
    (h : l.map .tuple ++ .last :: rest = l'.map .tuple ++ .last :: rest') :
    l = l' ∧ rest = rest' := by
  induction l generalizing l' with
  | nil =>
    cases l' with
    | nil => simpa using h
    | cons t l' => simp at h
  | cons t l ih =>
    cases l' with
    | nil => simp at h
    | cons t' l' =>
      simp only [map_cons, cons_append, cons.injEq, BufferQueueCell.tuple.injEq] at h
      obtain ⟨rfl, rfl⟩ := ih h.2
      exact ⟨by rw [h.1], rfl⟩

/-! ### From the master to the worker -/

/-- The master has sent `stream` to the worker so far. -/
def Received (localSort : List α → List α) (w : Slot α) (stream : List (BufferQueueCell α)) : Prop :=
  match w.pc with
  | .recv got => got.map .tuple ++ w.bufferQueue.cells = stream
  | .performsort got => got.map .tuple ++ .last :: w.bufferQueue.cells = stream
  | .finishedLog run | .waitAck run =>
    ∃ got, got.map .tuple ++ .last :: w.bufferQueue.cells = stream ∧ run = localSort got
  | _ => w.bufferQueue.cells = stream

/-- The stages of a worker that has not been told to send. -/
inductive Stage.Receives : Stage → Prop
  | unused : Receives .unused
  | startup : Receives .startup
  | initialSeen : Receives .initialSeen
  | running : Receives .running
  | finishedSeen : Receives .finishedSeen

section Worker

variable {job : Job α} {g : Stage} {w w' : Slot α} {localSort : List α → List α}
  {rows : Option Nat → List α} {held : Bool} {stream : List (BufferQueueCell α)}

section

variable (h : Received localSort w stream)
include h

theorem Received.forkSlave (hin : InStage job g w) (hst : forkSlave w = some w') :
    Received localSort w' stream := by
  obtain ⟨-, hnew, rfl⟩ := forkSlave_eq_some hst
  simpa [Received, (hin.new.mp hnew).2] using h

/-- The master puts another cell in. -/
theorem Received.add {r : Bool} (hadd : w.bufferQueueAdd cell false = some (w', r)) :
    Received localSort w' (stream ++ [cell]) := by
  obtain ⟨-, -, rfl⟩ := bufferQueueAdd_eq_some hadd
  simp only [Received] at h ⊢
  cases hpc : w.pc with
  | recv got => simp only [hpc] at h ⊢; simp [← h]
  | performsort got => simp only [hpc] at h ⊢; simp [← h]
  | finishedLog run | waitAck run =>
    simp only [hpc] at h ⊢
    obtain ⟨got, rfl, hrun⟩ := h
    exact ⟨got, by simp, hrun⟩
  | _ => simp only [hpc] at h ⊢; simp [← h]

theorem Received.congr (hpc : w'.pc = w.pc) (hbq : w'.bufferQueue.cells = w.bufferQueue.cells) :
    Received localSort w' stream := by
  simpa only [Received, hpc, hbq] using h

end
end Worker

/-! ### From the worker to the master -/

/-- What the worker has yet to put into the queue. -/
def Slot.toSend (rows : Option Nat → List α) (w : Slot α) : List (BufferQueueCell α) :=
  match w.pc with
  | .absent | .starting | .dispatch => message (rows w.subnode)
  | .waitReady => if w.state = .ended then [] else message (rows w.subnode)
  | .finishedLog run | .waitAck run | .send run => message run
  | _ => []

/-- What the master has yet to get from the worker. -/
def Slot.outgoing (rows : Option Nat → List α) (w : Slot α) : List (BufferQueueCell α) :=
  w.bufferQueue.cells ++ w.toSend rows

/-- The stages in which what a worker will send is settled: for a query from the start,
for a sort once it has sorted, and until the worker is given another plan. -/
inductive Stage.Settled (job : Job α) : Stage → Prop
  | startup (h : job.workType = .query) : Settled job .startup
  | initialSeen (h : job.workType = .query) : Settled job .initialSeen
  | finishedSeen : Settled job .finishedSeen
  | sending : Settled job .sending
  | endSeen : Settled job .endSeen
  | unused : Settled job .unused

section Worker

variable {job : Job α} {g : Stage} {w w' : Slot α} {localSort : List α → List α}
  {rows : Option Nat → List α} {held : Bool}

/-- One round of a send loop that nobody has stopped. -/
theorem outgoing_sendStep {rest : List α} (hpc : w.pc = .send rest)
    (hstop : w.bufferQueue.stop = false) (hst : sendStep rest w = some w') :
    w'.outgoing rows = w.outgoing rows := by
  cases rest with
  | nil =>
    simp only [sendStep] at hst
    split at hst
    · cases hst
    rename_i v r hadd
    obtain ⟨-, -, rfl⟩ := bufferQueueAdd_eq_some hadd
    cases hst
    simp [outgoing, toSend, hpc, message]
  | cons t rest =>
    simp only [sendStep] at hst
    split at hst
    · cases hst
    rename_i v r hadd
    obtain ⟨-, hr, rfl⟩ := bufferQueueAdd_eq_some hadd
    have hr : r = false := by simpa [hstop, BufferQueueCell.isLast] using hr
    rw [Option.some.injEq] at hst
    subst hst hr
    simp [outgoing, toSend, hpc, message_cons]

theorem outgoing_slaveStep (hin : InStage job g w) (hg : g.Settled job)
    (hst : slaveStep localSort rows held w = some w') : w'.outgoing rows = w.outgoing rows := by
  have hctl := hin.ctl
  have hstop := hin.stop
  obtain ⟨valid, state, new, workType, subnode, bq, inW, inJ, pc, seen, log⟩ := w
  cases hctl with
  | unused | absent => simp [slaveStep] at hst
  | initial | initialSeen | waitAckSeen | endSeen => simp [slaveStep, waitForState] at hst
  | starting =>
    simp only [slaveStep] at hst
    split_ifs at hst
    cases hst
    rfl
  | finishedLogSeen =>
    cases hst
    rfl
  | sends hs hctl =>
    have hsending : g = .sending := by cases hg <;> first | rfl | cases hs
    subst hsending
    have hstop : bq.stop = true → _ := hstop
    cases hctl with
    | ended => simp [slaveStep, waitForState] at hst
    | ack | queryReady =>
      obtain rfl := waitForState_eq_some rfl (by simp) hst
      rfl
    | sortSend | querySend =>
      refine outgoing_sendStep rfl ?_ hst
      simpa [Sent] using hstop
    | sortDone | queryDone =>
      rw [announce_eq_some hst]
      rfl
    | _ =>
      cases hst
      rfl
  | _ => cases hg

theorem outgoing_forkSlave (hin : InStage job g w) (hst : forkSlave w = some w') :
    w'.outgoing rows = w.outgoing rows := by
  obtain ⟨-, hnew, rfl⟩ := forkSlave_eq_some hst
  simp [outgoing, toSend, (hin.new.mp hnew).2]

/-- A worker that has sorted what it was sent is about to send the result back. -/
theorem Received.outgoing {got : List α} (h : Received localSort w (message got))
    (hin : InStage job .finishedSeen w) : w.outgoing rows = message (localSort got) := by
  obtain ⟨-, -, -, -, run, hpc⟩ := hin.ctl.of_finishedSeen
  have hrecv : ∃ got', got'.map .tuple ++ .last :: w.bufferQueue.cells = message got ∧
      run = localSort got' := by
    rcases hpc with hpc | hpc <;> simpa [Received, hpc] using h
  obtain ⟨got', hstream, rfl⟩ := hrecv
  obtain ⟨rfl, hcells⟩ := map_tuple_append_last_inj hstream
  have hsend : w.toSend rows = message (localSort got') := by
    rcases hpc with hpc | hpc <;> simp [Slot.toSend, hpc]
  rw [Slot.outgoing, hcells, hsend, nil_append]

theorem outgoing_get (hget : w.bufferQueueGet = some (cell, w')) :
    w.outgoing rows = cell :: w'.outgoing rows := by
  obtain ⟨rest, hcells, rfl⟩ := bufferQueueGet_eq_some hget
  simp [outgoing, toSend, hcells]

/-- The next cell of a worker is its end marker or its next tuple. -/
theorem cell_of_outgoing {c : Prop} [Decidable c] {l : List α}
    (hout : w.outgoing rows = if c then [] else message l) (hrun : ¬ c)
    (hget : w.bufferQueueGet = some (cell, w')) :
    (l = [] ∧ cell = .last ∧ w'.outgoing rows = []) ∨
      ∃ t l', l = t :: l' ∧ cell = .tuple t ∧ w'.outgoing rows = message l' := by
  rw [outgoing_get hget, if_neg hrun] at hout
  exact message_eq_cons hout.symm

theorem bufferQueueGet_of_cells (hcells : w.bufferQueue.cells = cell :: rest) :
    w.bufferQueueGet = some (cell, w.bufferQueueGetNoWait.2) := by
  rw [Slot.bufferQueueGetNoWait_snd, hcells]
  simp [Slot.bufferQueueGet, bufferQueueGet, hcells]

end Worker

end PrlPg
