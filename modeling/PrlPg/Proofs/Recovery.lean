/-
The records while the master recovers from an error.

An error or an interrupt takes the master out of its program at almost any point, so
nothing of the hand-shake is left to rely on: `Point` lists where a worker can be at all.
From then on the master writes no state.  `Slot.Goes` says what can happen to a record
during the recovery, and `Recovery.goes` that nothing else does; every fact about the
recovery is proved from it, one record at a time.

The loops of the recovery have something to show for themselves.  `cancelWorkers` has put
every worker that was up on the list of those to cancel, `waitForAllWorkers` has found no
worker with a job in hand, and `cleanup` has taken every `WorkDef` off the postmaster's list.
-/
import PrlPg.Proofs.ControlFlow

namespace PrlPg

open Option MasterPc Function

variable {α : Type*} {job : Job α} {s s' : State α} {w w' : Slot α}

/-! ### Where a worker can be -/

/-- The states and points of a worker that was given work `t`. -/
inductive Point (t : WorkType) : WorkType → WorkerState → WorkerPc α → Prop
  | absent {wt} : Point t wt .none .absent
  | starting {wt} (h : wt = t) : Point t wt .none .starting
  | neverUp {wt} (h : wt = t) : Point t wt .none .exited
  | initial {wt} (h : wt = t) : Point t wt .initial .waitReady
  | ready {wt} (h : wt = t) : Point t wt .ready .waitReady
  | dispatch {wt} (h : wt = t) : Point t wt .ready .dispatch
  | recv {wt got} (h : wt = t) : Point t wt .ready (.recv got)
  | performsort {wt got} (h : wt = t) : Point t wt .ready (.performsort got)
  | finishedLog {wt run} (h : wt = t) : Point t wt .finished (.finishedLog run)
  | waitAck {wt run} (h : wt = t) : Point t wt .finished (.waitAck run)
  | ackLog {wt run} (h : wt = t) : Point t wt .finishedAck (.finishedLog run)
  | ack {wt run} (h : wt = t) : Point t wt .finishedAck (.waitAck run)
  | sortSend {wt rest} (h : wt = t) : Point t wt .finishedAck (.send rest)
  | sortDone {wt} (h : wt = t) : Point t wt .finishedAck .setEnded
  | querySend {wt rest} (h : wt = t) : Point t wt .ready (.send rest)
  | queryDone {wt} (h : wt = t) : Point t wt .ready .setEnded
  | ended {wt} (h : wt = t) : Point t wt .ended .waitReady
  | endReady : Point t .ended .ready .waitReady
  | endDispatch : Point t .ended .ready .dispatch
  | endDead : Point t .ended .ready .setDead
  | dead : Point t .ended .dead .exited
  | failing {wt st} (h : wt = t) (hwork : st.atWork = true) : Point t wt st .failing
  | gone {wt st} (h : wt = t) (hwork : st.atWork = true) : Point t wt st .exited
  | canceled {wt} (h : wt = t) : Point t wt .canceled .exited

/-- What holds of a worker's records at any time. -/
structure Recorded (job : Job α) (w : Slot α) : Prop where
  point : Point job.workType w.workType w.state w.pc
  valid : w.valid = decide (w.state ≠ .none)
  new : w.new = true → w.pc = .absent ∧ w.workType = job.workType
  lists : w.inJobsList = true → w.inWorkersList = true

variable {st : WorkerState} {wt t : WorkType} {pc : WorkerPc α} {seen : Bool}

theorem Point.state_of_absent (h : Point t wt st (.absent : WorkerPc α)) : st = .none := by
  cases h
  rfl

theorem SendAdmits.point (h : SendAdmits t wt st pc seen) : Point t wt st pc := by
  cases h with
  | ackLog h => exact .ackLog h.symm
  | ack h => exact .ack h.symm
  | sortSend h => exact .sortSend h.symm
  | sortDone h => exact .sortDone h.symm
  | queryReady h => exact .ready h.symm
  | queryDispatch h => exact .dispatch h.symm
  | querySend h => exact .querySend h.symm
  | queryDone h => exact .queryDone h.symm
  | ended h => exact .ended h

theorem Admits.point {g : Stage} (h : Admits t g wt st pc seen) : Point t wt st pc := by
  cases h with
  | unused | absent => exact .absent
  | starting h => exact .starting h
  | initial h | initialSeen h => exact .initial h
  | ready h => exact .ready h.symm
  | dispatch h => exact .dispatch h.symm
  | recv h => exact .recv h.symm
  | performsort h => exact .performsort h.symm
  | finishedLog h | finishedLogSeen h => exact .finishedLog h.symm
  | waitAck h | waitAckSeen h => exact .waitAck h.symm
  | endSeen h => exact .ended h
  | endReady => exact .endReady
  | endDispatch => exact .endDispatch
  | endDead => exact .endDead
  | sends _ h => exact h.point
  | _ => exact .dead

theorem Failed.point (h : Failed st pc) (ht : wt = t) : Point t wt st pc := by
  cases h with
  | failing hwork => exact .failing ht hwork
  | gone hwork => exact .gone ht hwork
  | canceled => exact .canceled ht
  | neverUp => exact .neverUp ht

theorem Point.of_fatal {fatal : Bool} (h : wt = t) (hwork : st.atWork = true) :
    Point t wt st (if fatal then .exited else .failing : WorkerPc α) := by
  cases fatal with
  | true => exact .gone h hwork
  | false => exact .failing h hwork

theorem Admits.workType_of_absent (h : Admits t .startup wt st (.absent : WorkerPc α) seen) :
    wt = t := by
  cases h with
  | absent h => exact h
  | sends hg => cases hg

theorem Holds.recorded {err : Bool} {g : Stage} (h : Holds err job g w) : Recorded job w := by
  rcases h with hin | ⟨-, -, hbr⟩
  swap
  · refine ⟨hbr.ctl.point hbr.workType, hbr.valid, fun hnew => ?_, fun _ => hbr.workersList⟩
    simp [hbr.new] at hnew
  refine ⟨hin.ctl.point, hin.valid, fun hnew => ?_, fun hj => ?_⟩
  · obtain ⟨rfl, hpc⟩ := hin.new.mp hnew
    have hctl := hin.ctl
    rw [hpc] at hctl
    exact ⟨hpc, hctl.workType_of_absent⟩
  · rwa [hin.workersList, ← hin.jobsList]

theorem recorded_unused (job : Job α) : Recorded job (Slot.unused : Slot α) :=
  ⟨.absent, rfl, fun h => by simp [Slot.unused] at h, fun h => by simp [Slot.unused] at h⟩

/-! ### What can happen to a record -/

variable {e : Event}

/-- During the recovery a record changes by what its worker or the postmaster does, by a
look at its state, or by the clean-up when the worker has no job in hand.  `held` says whether
the worker's spinlock was left held. -/
inductive Slot.Goes (localSort : List α → List α) (rows : Option Nat → List α) (held : Bool)
    (w : Slot α) : Slot α → Prop
  | stays : Goes localSort rows held w w
  | worker {v : Slot α} (h : slaveStep localSort rows held w = some v) :
      Goes localSort rows held w v
  | fail {fatal : Bool} {v : Slot α} (h : slaveFail fatal w = some v) : Goes localSort rows held w v
  | interrupt {v : Slot α} (h : slaveInterrupt w = some v) : Goes localSort rows held w v
  | fork {v : Slot α} (h : forkSlave w = some v) : Goes localSort rows held w v
  | look : Goes localSort rows held w (w.look .master)
  | cleanup (h : w.state.atWork = false) :
      Goes localSort rows held w w.drain.destroyBufferQueue.unlist

/-- Every record changes so. -/
abbrev State.Goes (s : State α) (job : Job α) (s' : State α) : Prop :=
  ∀ i, (s.slots i).Goes (job.localSort i) job.rows (s.holds i) (s'.slots i)

theorem goes_set {k : Nat} (hslots : s'.slots = update s.slots k w)
    (h : (s.slots k).Goes (job.localSort k) job.rows (s.holds k) w) :
    s.Goes job s' := by
  intro i
  rw [hslots]
  by_cases hik : i = k
  · subst hik
    rwa [update_self]
  · rw [update_of_ne hik]
    exact .stays

theorem goes_goto (hslots : s'.slots = s.slots) : s.Goes job s' := by
  intro i
  rw [hslots]
  exact .stays

/-- There is no way back from the recovery. -/
theorem recovery_stays (hn : s.pc.normal = false) (hst : step job s e = some s') :
    s'.pc.normal = false := by
  cases step_occurs hst with
  | master hst => exact (masterStep_next hst).recovery hn
  | fetch hpc | endNode hpc => simp [hpc, normal] at hn
  | abort hst =>
    rw [(abortStep_eq_some hst).2.1]
    rfl
  | _ => exact hn

/-! ### The records stay in order -/

variable {localSort : List α → List α} {rows : Option Nat → List α} {held : Bool}

section

variable (h : Recorded job w)
include h

theorem Recorded.move {bq : BufferQueue α} {log : List QueueOp}
    (hp : Point job.workType w.workType st pc) (hup : w.state ≠ .none := by simp)
    (hst : st ≠ .none := by simp) (hpc : w.pc ≠ .absent := by simp) :
    Recorded job
      { w with state := st, pc := pc, bufferQueue := bq, seen := seen, log := log } :=
  ⟨hp, by rw [h.valid]; simp [hup, hst], fun hnew => absurd (h.new hnew).1 hpc, h.lists⟩

theorem Recorded.slaveStep (hst : PrlPg.slaveStep localSort rows held w = some w') :
    Recorded job w' := by
  have hp := h.point
  obtain ⟨valid, state, new, workType, subnode, bq, inW, inJ, pc, seen, log⟩ := w
  cases hp with
  | initial | ended | waitAck => simp [PrlPg.slaveStep, waitForState] at hst
  | starting ht =>
    simp only [PrlPg.slaveStep, Slot.put] at hst
    split_ifs at hst
    cases hst
    exact ⟨.initial ht, rfl, fun hnew => by simpa using h.new hnew, h.lists⟩
  | ready ht =>
    obtain rfl := waitForState_eq_some rfl (by simp) hst
    exact h.move (.dispatch ht)
  | endReady =>
    obtain rfl := waitForState_eq_some rfl (by simp) hst
    exact h.move .endDispatch
  | ack ht =>
    obtain rfl := waitForState_eq_some rfl (by simp) hst
    exact h.move (.sortSend ht)
  | dispatch ht =>
    have hne := job_workType_ne_ended job
    rw [← ht] at hne
    cases workType with
    | ended => cases hne rfl
    | sort =>
      cases hst
      exact h.move (.recv ht)
    | query =>
      cases hst
      exact h.move (.querySend ht)
  | endDispatch =>
    cases hst
    exact h.move .endDead
  | finishedLog ht =>
    cases hst
    exact h.move (.waitAck ht)
  | ackLog ht =>
    cases hst
    exact h.move (.ack ht)
  | recv ht =>
    obtain ⟨bq', pc', log', rfl, rfl | ⟨got', rfl⟩⟩ := recvStep_eq_some hst
    · exact h.move (.performsort ht)
    · exact h.move (.recv ht)
  | sortSend ht =>
    obtain ⟨bq', pc', log', rfl, rfl | ⟨rest', rfl⟩⟩ := sendStep_eq_some hst
    · exact h.move (.sortDone ht)
    · exact h.move (.sortSend ht)
  | querySend ht =>
    obtain ⟨bq', pc', log', rfl, rfl | ⟨rest', rfl⟩⟩ := sendStep_eq_some hst
    · exact h.move (.queryDone ht)
    · exact h.move (.querySend ht)
  | performsort ht =>
    rw [announce_eq_some hst]
    exact h.move (.finishedLog ht)
  | sortDone ht | queryDone ht =>
    rw [announce_eq_some hst]
    exact h.move (.ended ht)
  | endDead =>
    rw [announce_eq_some hst]
    exact h.move .dead
  | failing ht hwork =>
    rw [announce_eq_some hst]
    exact h.move (.canceled ht) (WorkerState.ne_none_of_atWork hwork)
  | _ => simp [PrlPg.slaveStep] at hst

theorem Recorded.slaveFail {fatal : Bool} (hst : PrlPg.slaveFail fatal w = some w') :
    Recorded job w' := by
  have hp := h.point
  have heq := slaveFail_eq_some hst
  cases w
  cases hp with
  | starting ht =>
    cases hst
    exact ⟨.neverUp ht, h.valid, fun hnew => by simpa using h.new hnew, h.lists⟩
  | dispatch ht | recv ht | performsort ht | finishedLog ht | ackLog ht | querySend ht
  | queryDone ht | sortSend ht | sortDone ht =>
    obtain ⟨hs, -⟩ | ⟨-, rfl⟩ := heq
    · cases hs
    exact h.move (.of_fatal ht rfl)
  | _ => simp [PrlPg.slaveFail] at hst

theorem Recorded.slaveInterrupt (hst : PrlPg.slaveInterrupt w = some w') : Recorded job w' := by
  have hp := h.point
  cases w
  cases hp with
  | recv ht | performsort ht | finishedLog ht | ackLog ht | querySend ht | sortSend ht =>
    cases hst
    exact h.move (.failing ht rfl)
  | _ => simp [PrlPg.slaveInterrupt] at hst

theorem Recorded.forkSlave (hst : PrlPg.forkSlave w = some w') : Recorded job w' := by
  obtain ⟨-, hnew, rfl⟩ := forkSlave_eq_some hst
  obtain ⟨hpc, hwt⟩ := h.new hnew
  have hst' : w.state = .none := by
    have hp := h.point
    rw [hpc] at hp
    exact hp.state_of_absent
  refine ⟨?_, h.valid, fun hf => by simp at hf, h.lists⟩
  simp only [hst']
  exact .starting hwt

theorem Recorded.goes (hg : w.Goes localSort rows held w') : Recorded job w' := by
  cases hg with
  | stays => exact h
  | worker hst => exact h.slaveStep hst
  | fail hst => exact h.slaveFail hst
  | interrupt hst => exact h.slaveInterrupt hst
  | fork hst => exact h.forkSlave hst
  | look => exact ⟨h.point, h.valid, h.new, h.lists⟩
  | cleanup => exact ⟨h.point, h.valid, h.new, fun hj => by simp [Slot.unlist] at hj⟩

end

/-! ### Lists and requests -/

/-- Nobody but the master changes the lists, and a worker does not change its state while its
spinlock is held. -/
theorem slaveStep_keeps (hst : slaveStep localSort rows held w = some w') :
    w'.inWorkersList = w.inWorkersList ∧ w'.inJobsList = w.inJobsList ∧
      (held = true → w'.state = w.state) := by
  simp only [slaveStep] at hst
  split at hst
  case h_1 | h_2 => simp at hst
  case h_3 =>
    split_ifs at hst with hheld
    cases hst
    exact ⟨rfl, rfl, fun h => absurd h hheld⟩
  case h_4 | h_9 =>
    simp only [waitForState] at hst
    split_ifs at hst <;> cases hst <;> exact ⟨rfl, rfl, fun _ => rfl⟩
  case h_5 => split at hst <;> cases hst <;> exact ⟨rfl, rfl, fun _ => rfl⟩
  case h_6 =>
    obtain ⟨bq, pc, log, rfl, -⟩ := recvStep_eq_some hst
    exact ⟨rfl, rfl, fun _ => rfl⟩
  case h_8 =>
    cases hst
    exact ⟨rfl, rfl, fun _ => rfl⟩
  case h_10 =>
    obtain ⟨bq, pc, log, rfl, -⟩ := sendStep_eq_some hst
    exact ⟨rfl, rfl, fun _ => rfl⟩
  case h_7 | h_11 | h_12 | h_13 =>
    simp only [announce] at hst
    split_ifs at hst with hheld
    cases hst
    exact ⟨rfl, rfl, fun h => absurd h hheld⟩

theorem slaveFail_keeps {fatal : Bool} (hst : slaveFail fatal w = some w') :
    w'.inWorkersList = w.inWorkersList ∧ w'.inJobsList = w.inJobsList ∧ w'.state = w.state := by
  obtain ⟨-, rfl⟩ | ⟨-, rfl⟩ := slaveFail_eq_some hst <;> exact ⟨rfl, rfl, rfl⟩

theorem slaveInterrupt_eq_some (hst : slaveInterrupt w = some w') :
    w' = { w with pc := .failing } := by
  simp only [slaveInterrupt] at hst
  split at hst
  case h_5 => simp at hst
  all_goals exact (Option.some.inj hst).symm

/-- Nothing is put back on the lists. -/
theorem Slot.Goes.unlisted (hg : w.Goes localSort rows held w') :
    (w.inJobsList = false → w'.inJobsList = false) ∧
      (w.inWorkersList = false → w'.inWorkersList = false) := by
  cases hg with
  | stays => exact ⟨id, id⟩
  | worker hst => rw [(slaveStep_keeps hst).1, (slaveStep_keeps hst).2.1]; exact ⟨id, id⟩
  | fail hst => rw [(slaveFail_keeps hst).1, (slaveFail_keeps hst).2.1]; exact ⟨id, id⟩
  | interrupt hst => rw [slaveInterrupt_eq_some hst]; exact ⟨id, id⟩
  | fork hst => rw [(forkSlave_eq_some hst).2.2]; exact ⟨id, id⟩
  | look => exact ⟨id, id⟩
  | cleanup => exact ⟨fun _ => rfl, fun _ => rfl⟩

theorem Slot.Goes.state_of_held (hg : w.Goes localSort rows true w') : w'.state = w.state := by
  cases hg with
  | worker hst => exact (slaveStep_keeps hst).2.2 rfl
  | fail hst => exact (slaveFail_keeps hst).2.2
  | interrupt hst => rw [slaveInterrupt_eq_some hst]
  | fork hst => rw [(forkSlave_eq_some hst).2.2]
  | _ => rfl

/-- Nobody gets a job during the recovery. -/
theorem Slot.Goes.atWork (hr : Recorded job w) (h : w.state.atWork = false)
    (hg : w.Goes localSort rows held w') : w'.state.atWork = false := by
  cases hg with
  | worker hst =>
    have hp := hr.point
    cases w
    cases hp with
    | starting =>
      simp only [slaveStep] at hst
      split_ifs at hst
      cases hst
      rfl
    | initial | ended => simp [slaveStep, waitForState] at hst
    | absent | neverUp | dead | canceled => simp [slaveStep] at hst
    | failing _ hwork | gone _ hwork => exact absurd (h.symm.trans hwork) (by simp)
    | _ => cases h
  | fail hst => rwa [(slaveFail_keeps hst).2.2]
  | interrupt hst => rwa [slaveInterrupt_eq_some hst]
  | fork hst => rwa [(forkSlave_eq_some hst).2.2]
  | _ => exact h

/-- And nobody who has one is taken off the list. -/
theorem Slot.Goes.listed (hr : Recorded job w)
    (h : w.state.atWork = true → w.inWorkersList = true)
    (hg : w.Goes localSort rows held w') (hwork : w'.state.atWork = true) :
    w'.inWorkersList = true := by
  have hold : w.state.atWork = true := by
    by_contra hno
    rw [hg.atWork hr (by simpa using hno)] at hwork
    cases hwork
  cases hg with
  | worker hst => rw [(slaveStep_keeps hst).1, h hold]
  | fail hst => rw [(slaveFail_keeps hst).1, h hold]
  | interrupt hst => rw [slaveInterrupt_eq_some hst, h hold]
  | fork hst => rw [(forkSlave_eq_some hst).2.2, h hold]
  | cleanup hno => exact absurd (hno.symm.trans hold) (by simp)
  | _ => exact h hold

/-- A worker that a cancel request would do nothing to: it is off the list, not at work
yet, or on its way out. -/
def Slot.Spared (w : Slot α) : Prop :=
  w.inWorkersList = false ∨ w.state = .none ∨ w.state = .initial ∨ w.pc = .failing ∨ w.pc = .exited

theorem Slot.Spared.goes (h : w.Spared) (hr : Recorded job w)
    (hg : w.Goes localSort rows held w') : w'.Spared := by
  rcases h with hlist | h
  · exact .inl (hg.unlisted.2 hlist)
  refine .inr ?_
  have hp := hr.point
  cases hg with
  | cleanup => exact h
  | interrupt hst => rw [slaveInterrupt_eq_some hst]; exact .inr (.inr (.inl rfl))
  | fork hst =>
    obtain ⟨-, hnew, rfl⟩ := forkSlave_eq_some hst
    rw [(hr.new hnew).1] at hp
    exact .inl hp.state_of_absent
  | fail hst =>
    cases w
    cases hp with
    | starting =>
      cases hst
      exact .inl rfl
    | _ => simp [slaveFail] at h hst
  | worker hst =>
    cases w
    cases hp with
    | starting =>
      simp only [slaveStep] at hst
      split_ifs at hst
      cases hst
      exact .inr (.inl rfl)
    | failing =>
      rw [announce_eq_some hst]
      exact .inr (.inr (.inr rfl))
    | absent | neverUp | dead | canceled | gone => simp [slaveStep] at hst
    | initial => simp [slaveStep, waitForState] at hst
    | _ => simp at h
  | _ => exact h

/-! ### The recovery as a whole -/

/-- The first so many workers have been taken off the lists. -/
def MasterPc.cleaned (n : Nat) : MasterPc α → Nat
  | .cleanup k => k
  | .recovered => n
  | _ => 0

/-- The first so many workers have been looked at by `cancelWorkers`. -/
def MasterPc.asked (n : Nat) : MasterPc α → Nat
  | .cancel k => k
  | .waitAll .. | .cleanup _ | .recovered => n
  | _ => 0

/-- The first so many workers have been passed by `waitForAllWorkers`. -/
def MasterPc.cleared (n : Nat) : MasterPc α → Nat
  | .waitAll k false => k
  | .cleanup _ | .recovered => n
  | _ => 0

/-- What holds while the master recovers. -/
structure Recovery (job : Job α) (s : State α) : Prop where
  records : ∀ i, Recorded job (s.slots i)
  listed : ∀ i, (s.slots i).state.atWork = true → (s.slots i).inWorkersList = true
  passed : ∀ i < s.pc.cleared job.workersCnt, (s.slots i).state.atWork = false
  cleaned : ∀ i < s.pc.cleaned job.workersCnt, (s.slots i).inJobsList = false
  asked : ∀ i < s.pc.asked job.workersCnt, (s.slots i).Spared ∨ i ∈ s.toCancel ∨ i ∈ s.cancelPending

/-- A record as the recovery finds it. -/
abbrev Kept (job : Job α) (w : Slot α) : Prop :=
  Recorded job w ∧ (w.state.atWork = true → w.inWorkersList = true)

theorem Admits.listed_of_atWork {g : Stage} (h : Admits t g wt st pc seen)
    (hwork : st.atWork = true) : g.listed = true := by
  cases h with
  | sends hg => exact hg.listed
  | _ => first | rfl | cases hwork

theorem Holds.kept {err : Bool} {g : Stage} (h : Holds err job g w) : Kept job w := by
  refine ⟨h.recorded, fun hwork => ?_⟩
  rcases h with hin | ⟨-, -, hbr⟩
  · exact hin.workersList.trans (hin.ctl.listed_of_atWork hwork)
  · exact hbr.workersList

theorem Inv.kept (h : Inv true job s) (hn : s.pc.normal = true) (i : Nat) :
    Kept job (s.slots i) := by
  by_cases hi : i < job.workersCnt
  · exact (h.stages hn i hi).kept
  · rw [h.beyond i (by omega)]
    exact ⟨recorded_unused job, fun hwork => by cases hwork⟩

/-- A worker that was just given its next plan. -/
theorem InStage.kept_ready (h : InStage job .endSeen w) (subnode : Option Nat) :
    Kept job { w.put .ready with subnode := subnode } := by
  obtain ⟨hwt, hst, hpc, -⟩ := h.ctl.of_endSeen
  have hvalid := h.valid
  rw [hst] at hvalid
  refine ⟨⟨?_, hvalid, fun hnew => ?_, fun _ => h.workersList⟩, fun _ => h.workersList⟩
  · rw [show ({ w.put .ready with subnode := subnode } : Slot α).pc = .waitReady from hpc]
    exact .ready hwt
  · cases (h.new.mp hnew).1

/-- The recovery starts from its first step, or is over at once. -/
theorem recovery_enters (hinv : Inv true job s) (hn : s.pc.normal = true)
    (hn' : s'.pc.normal = false) (hst : step job s e = some s') :
    (s'.pc = .fatal ∨ s'.pc = .cancel 0) ∧ ∀ i, Kept job (s'.slots i) := by
  have hkept := hinv.kept hn
  have hset {k : Nat} {w : Slot α} (hslots : s'.slots = update s.slots k w) (hw : Kept job w)
      (i : Nat) : Kept job (s'.slots i) := by
    rw [hslots]
    by_cases hik : i = k
    · subst hik
      rwa [update_self]
    · rw [update_of_ne hik]
      exact hkept i
  cases step_occurs hst with
  | master hst =>
    rcases (masterStep_next hst).leaves hn hn' with ⟨i, hpc, hpc'⟩ | ⟨i, hpc, hpc'⟩
    · refine ⟨.inl hpc', ?_⟩
      simp only [masterStep, hpc, createStep] at hst
      repeat' split at hst
      all_goals cases hst
      · cases hpc'
      · cases hpc'
      · exact hkept
      · cases hpc'
    refine ⟨.inr hpc', ?_⟩
    simp only [masterStep, hpc, waitForEnd] at hst
    split at hst
    · cases hst
    rename_i k hk
    have hlook : Kept job ((s.slots k).look .master) :=
      ⟨⟨(hkept k).1.point, (hkept k).1.valid, (hkept k).1.new, (hkept k).1.lists⟩, (hkept k).2⟩
    split_ifs at hst <;> cases hst <;> exact hset rfl hlook
  | abort hst =>
    obtain ⟨-, hpc', -, hslots | ⟨i, k, subnode, hpc, hk, hslots⟩⟩ := abortStep_eq_some hst
    · exact ⟨.inr hpc', by rwa [hslots]⟩
    obtain ⟨rfl, hlt⟩ := workers_getElem? (hinv.located hpc rfl).2.1 hk
    have hin := hinv.inStageOf hn hlt (g := .endSeen) (by simp [hpc, stage]) rfl
    exact ⟨.inr hpc', hset hslots (hin.kept_ready subnode)⟩
  | fetch =>
    simp only [State.goto] at hn'
    split at hn' <;> simp [normal] at hn'
  | endNode => simp [State.goto, normal] at hn'
  | _ => simp [State.set, hn] at hn'

theorem Recovery.goes_master (h : Recovery job s) (hn : s.pc.normal = false)
    (hst : masterStep job s = some s') : s.Goes job s' := by
  have hpassed := h.passed
  cases hpc : s.pc with
  | cancel k =>
    simp only [masterStep, hpc, cancelStep] at hst
    split at hst <;> cases hst <;> exact goes_goto rfl
  | waitAll k b =>
    simp only [masterStep, hpc, waitForAllWorkers] at hst
    repeat' split at hst
    all_goals cases hst
    · exact goes_set rfl .look
    · exact goes_goto rfl
    · exact goes_goto rfl
  | cleanup k =>
    rw [hpc] at hpassed
    simp only [masterStep, hpc, cleanupStep] at hst
    split at hst
    next hk =>
      split at hst <;> cases hst
      · exact goes_set rfl (.cleanup (hpassed k hk))
      · exact goes_goto rfl
    next =>
      cases hst
      exact goes_goto rfl
  | recovered | fatal => simp [masterStep, hpc] at hst
  | _ => simp [hpc, normal] at hn

/-- Every event of the recovery. -/
theorem Recovery.goes (h : Recovery job s) (hn : s.pc.normal = false)
    (hst : step job s e = some s') : s.Goes job s' := by
  cases step_occurs hst with
  | master hst => exact h.goes_master hn hst
  | fetch hpc | endNode hpc => simp [hpc, normal] at hn
  | abort hst => simp [(abortStep_eq_some hst).1] at hn
  | worker hw => exact goes_set rfl (.worker hw)
  | fail hw => exact goes_set rfl (.fail hw)
  | interrupt _ hw => exact goes_set rfl (.interrupt hw)
  | fork hw => exact goes_set rfl (.fork hw)
  | deliverCancel => exact goes_goto rfl

/-- A worker that `waitForAllWorkers` does not wait for has no job in hand. -/
theorem Recovery.passes (h : Recovery job s) {k : Nat}
    (hno : ((s.slots k).counts && (s.slots k).state ≠ .canceled &&
      (s.slots k).state ≠ .ended) = false) : (s.slots k).state.atWork = false := by
  by_contra hwork
  simp only [Bool.not_eq_false] at hwork
  have hc : (s.slots k).counts = true := by
    simp [Slot.counts, h.listed k hwork, (h.records k).valid,
      WorkerState.ne_none_of_atWork hwork]
  cases hst : (s.slots k).state <;> simp [hc, hst, WorkerState.atWork] at hno hwork

section

variable (h : Recovery job s) (hgoes : s.Goes job s')
include h hgoes

/-- A step of the recovery.  The records follow by themselves; what is left is how far the master
has got. -/
theorem Recovery.follow
    (hpassed : ∀ i < s'.pc.cleared job.workersCnt,
      i < s.pc.cleared job.workersCnt ∨ (s.slots i).state.atWork = false)
    (hcleaned : ∀ i < s'.pc.cleaned job.workersCnt,
      i < s.pc.cleaned job.workersCnt ∨ (s'.slots i).inJobsList = false)
    (hasked : ∀ i < s'.pc.asked job.workersCnt,
      (s.slots i).Spared ∨ (s'.slots i).Spared ∨ i ∈ s'.toCancel ∨ i ∈ s'.cancelPending) :
    Recovery job s' where
  records i := (h.records i).goes (hgoes i)
  listed i := (hgoes i).listed (h.records i) (h.listed i)
  passed i hi := (hgoes i).atWork (h.records i) ((hpassed i hi).elim (h.passed i) id)
  cleaned i hi := (hcleaned i hi).elim (fun hi => (hgoes i).unlisted.1 (h.cleaned i hi)) id
  asked i hi := (hasked i hi).elim (fun hs => .inl (hs.goes (h.records i) (hgoes i))) id

theorem Recovery.cancel {k : Nat} (hpc : s.pc = .cancel k)
    (hst : cancelStep job s k = some s') : Recovery job s' := by
  have hasked := h.asked
  rw [hpc] at hasked
  simp only [cancelStep] at hst
  split at hst <;> cases hst <;>
    refine h.follow hgoes (fun i hi => absurd hi (Nat.not_lt_zero i))
      (fun i hi => absurd hi (Nat.not_lt_zero i)) fun i hi => ?_
  next hk =>
    by_cases hik : i = k
    · subst hik
      by_cases hc : (s.slots i).counts = true
      · exact .inr (.inr (.inl (by simp [hc])))
      refine .inl ?_
      have hv := (h.records i).valid
      simp only [Slot.counts, Bool.and_eq_true, not_and] at hc
      by_cases hl : (s.slots i).inWorkersList = true
      · refine .inr (.inl ?_)
        simpa [hc hl] using hv
      · exact .inl (by simpa using hl)
    rcases hasked i (by simp only [MasterPc.asked] at hi ⊢; omega) with hs | hm | hm
    · exact .inl hs
    · refine .inr (.inr (.inl ?_))
      split
      · exact List.mem_append_left _ hm
      · exact hm
    · exact .inr (.inr (.inr hm))
  next hk => exact (hasked i (lt_of_lt_of_le hi (not_lt.mp hk))).imp id .inr

theorem Recovery.waitAll {k : Nat} {b : Bool} (hpc : s.pc = .waitAll k b)
    (hst : waitForAllWorkers job s k b = some s') : Recovery job s' := by
  have hasked := h.asked
  rw [hpc] at hasked
  simp only [waitForAllWorkers] at hst
  repeat' split at hst
  all_goals cases hst
  all_goals
    refine h.follow hgoes (fun i hi => ?_) (fun i hi => absurd hi (Nat.not_lt_zero i))
      fun i hi => (hasked i hi).imp id .inr
    rw [hpc]
  · simp only [State.goto] at hi
    generalize hno : (b || _) = no at hi
    cases no with
    | true => exact absurd hi (Nat.not_lt_zero i)
    | false =>
      obtain ⟨rfl, hno⟩ := Bool.or_eq_false_iff.mp hno
      by_cases hik : i = k
      · rw [hik]
        exact .inr (h.passes hno)
      · exact .inl (by simp only [MasterPc.cleared] at hi ⊢; omega)
  · exact absurd hi (Nat.not_lt_zero i)
  · rename_i hk hb
    simp only [Bool.not_eq_true] at hb
    subst hb
    exact .inl (lt_of_lt_of_le hi (not_lt.mp hk))

theorem Recovery.cleanup {k : Nat} (hpc : s.pc = .cleanup k)
    (hst : cleanupStep job s k = some s') : Recovery job s' := by
  have hasked := h.asked
  rw [hpc] at hasked
  simp only [cleanupStep] at hst
  repeat' split at hst
  all_goals cases hst
  all_goals
    refine h.follow hgoes (fun i hi => .inl (by rwa [hpc])) (fun i hi => ?_)
      fun i hi => (hasked i hi).imp id .inr
    rw [hpc]
  · by_cases hik : i = k
    · exact .inr (by simp [State.set, Slot.unlist, hik])
    · exact .inl (by simp only [MasterPc.cleaned] at hi ⊢; omega)
  · rename_i hl
    by_cases hik : i = k
    · refine .inr ?_
      by_contra hj
      exact hl ((h.records k).lists (by simpa [State.goto, hik] using hj))
    · exact .inl (by simp only [MasterPc.cleaned, State.goto] at hi ⊢; omega)
  · rename_i hk
    exact .inl (lt_of_lt_of_le hi (not_lt.mp hk))

/-- Somebody else moves: no list changes, and a request is served or stays. -/
theorem Recovery.other (hpc : s'.pc = s.pc)
    (hreq : ∀ i, i ∈ s.toCancel ∨ i ∈ s.cancelPending →
      (s'.slots i).Spared ∨ i ∈ s'.toCancel ∨ i ∈ s'.cancelPending) : Recovery job s' := by
  refine h.follow hgoes ?_ ?_ fun i hi => ?_ <;> rw [hpc] at *
  · exact fun i => .inl
  · exact fun i => .inl
  · exact (h.asked i hi).imp id (hreq i)

end

/-- A step of the master within the recovery. -/
theorem Recovery.master (h : Recovery job s) (hn : s.pc.normal = false)
    (hst : masterStep job s = some s') : Recovery job s' := by
  have hgoes := h.goes_master hn hst
  cases hpc : s.pc with
  | cancel k => exact h.cancel hgoes hpc (by simpa only [masterStep, hpc] using hst)
  | waitAll k b => exact h.waitAll hgoes hpc (by simpa only [masterStep, hpc] using hst)
  | cleanup k => exact h.cleanup hgoes hpc (by simpa only [masterStep, hpc] using hst)
  | recovered | fatal => simp [masterStep, hpc] at hst
  | _ => simp [hpc, MasterPc.normal] at hn

theorem Recovery.event (h : s.pc.normal = false → Recovery job s) (hinv : Inv true job s)
    (hst : step job s e = some s') (hn' : s'.pc.normal = false) : Recovery job s' := by
  cases hn : s.pc.normal with
  | true =>
    obtain ⟨hpc, hkept⟩ := recovery_enters hinv hn hn' hst
    refine ⟨fun i => (hkept i).1, fun i => (hkept i).2, fun i hi => ?_, fun i hi => ?_,
      fun i hi => ?_⟩
    · rcases hpc with hpc | hpc <;> simp [hpc, MasterPc.cleared] at hi
    · rcases hpc with hpc | hpc <;> simp [hpc, MasterPc.cleaned] at hi
    · rcases hpc with hpc | hpc <;> simp [hpc, MasterPc.asked] at hi
  | false =>
    have h := h hn
    have hgoes := h.goes hn hst
    cases step_occurs hst with
    | master hst => exact h.master hn hst
    | fetch hpc | endNode hpc => simp [hpc, MasterPc.normal] at hn
    | abort hst => simp [(abortStep_eq_some hst).1] at hn
    | @interrupt i w _ hw =>
      refine h.other hgoes rfl fun j hm => ?_
      by_cases hji : j = i
      · subst hji
        refine .inl (.inr (.inr (.inr (.inl ?_))))
        simp [State.set, slaveInterrupt_eq_some hw]
      · exact .inr (hm.imp id fun hp => List.mem_filter.mpr ⟨hp, by simpa using hji⟩)
    | deliverCancel =>
      refine h.other hgoes rfl fun j hm => .inr (.inr ?_)
      exact List.mem_append.mpr hm.symm
    | _ => exact h.other hgoes rfl fun _ hm => .inr hm

/-- The spinlock that an error left held stays held. -/
theorem recovery_holds (hn : s.pc.normal = false) (hst : step job s e = some s') (i : Nat) :
    s'.holds i = s.holds i := by
  have hholds : ∀ {u : State α}, u.pc.normal = false → u.holds i = decide (u.left = some i) := by
    intro u hu
    cases hpc : u.pc <;> simp [State.holds, MasterPc.holds, hpc, normal] at hu ⊢
  have hleft : s'.left = s.left := by
    cases step_occurs hst with
    | master hst =>
      cases hpc : s.pc with
      | cancel k | waitAll k b | cleanup k =>
        simp only [masterStep, hpc, cancelStep, waitForAllWorkers, cleanupStep] at hst
        repeat' split at hst
        all_goals
          cases hst
          try rfl
      | recovered | fatal => simp [masterStep, hpc] at hst
      | _ => simp [hpc, normal] at hn
    | abort hst => simp [(abortStep_eq_some hst).1] at hn
    | _ => rfl
  rw [hholds (recovery_stays hn hst), hholds hn, hleft]

/-- What a record keeps through every change of the recovery, it keeps in every run. -/
theorem Recovery.keeps (h : Recovery job s) (hinv : Inv true job s) (hq : 0 < job.queueSize)
    (hn : s.pc.normal = false) {i : Nat} {P : Slot α → Prop}
    (hP : ∀ v v', Recorded job v → P v →
      v.Goes (job.localSort i) job.rows (s.holds i) v' → P v')
    (hs : P (s.slots i)) {t : State α} (hrun : Run.Steps (step job) (fun _ _ => True) s t) :
    P (t.slots i) := by
  have hall := hrun.invariant (I := fun u => Inv true job u ∧ Recovery job u ∧
      u.pc.normal = false ∧ u.holds i = s.holds i ∧ P (u.slots i))
    ⟨hinv, h, hn, rfl, hs⟩ fun u e v hu _ hst => by
      obtain ⟨huinv, hurec, hun, huholds, hus⟩ := hu
      have hgoes := hurec.goes hun hst i
      rw [huholds] at hgoes
      have hvn := recovery_stays hun hst
      exact ⟨huinv.event hq (by simp) hst, Recovery.event (fun _ => hurec) huinv hst hvn, hvn,
        (recovery_holds hun hst i).trans huholds, hP _ _ (hurec.records i) hus hgoes⟩
  exact hall.2.2.2.2

theorem Recovery.run (hq : 0 < job.queueSize) {freeSems : Nat}
    (h : Run.Steps (step job) (fun _ _ => True) (init job freeSems) s)
    (hn : s.pc.normal = false) : Inv true job s ∧ Recovery job s := by
  have hall := h.invariant (I := fun s => Inv true job s ∧ (s.pc.normal = false → Recovery job s))
    ⟨inv_init true job freeSems, fun hn => by simp [init, normal] at hn⟩
    fun u e v hu _ hst => ⟨hu.1.event hq (by simp) hst, Recovery.event hu.2 hu.1 hst⟩
  exact ⟨hall.1, hall.2 hn⟩

end PrlPg
