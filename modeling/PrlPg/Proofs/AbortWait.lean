/-
Which workers the abort wait can be left with.

`waitForAllWorkers(CANCELED)` goes on until every worker that is up is at `CANCELED` or at
`END`.  A cancel request gets a worker to `CANCELED` only where the worker looks for one:
at a semaphore, in a comparison, when it logs.  The loops of `waitForState` do not look,
and during the recovery the master writes no state.  So a worker that polls for `READY`
at `INITIAL`, or for `FINISHED_ACK` at `FINISHED`, stays there; a worker that has been given
the `END` job, or has taken it, goes to `DEAD` and to nothing else.  A worker that was told to
terminate is gone without a word, and one whose spinlock the master took with it cannot write
its state.  Everybody else gets to one of the two states.
-/
import PrlPg.Proofs.Recovery

namespace PrlPg

open Run Slot Bool

variable {α : Type*} {job : Job α} {s s' : State α} {w w' : Slot α} {i : Nat}

/-- One of the states `waitForAllWorkers(CANCELED)` waits for. -/
def WorkerState.awaited (st : WorkerState) : Bool := st = .canceled || st = .ended

/-- The worker is at an awaited state or gets there; `held` says whether the master left its
spinlock held. -/
def Slot.settles (held : Bool) (w : Slot α) : Bool :=
  match w.state, w.pc with
  | .canceled, _ | .ended, _ => true
  -- its process is gone
  | .ready, .exited | .finished, .exited | .finishedAck, .exited => false
  -- it polls
  | .finished, .waitAck _ => false
  | .ready, _ => !held && w.workType ≠ .ended
  | .finished, _ | .finishedAck, _ => !held
  | _, _ => false

/-! ### Workers that do not get there -/

/-- Where a worker is stuck, or can only die. -/
inductive Stuck : WorkType → WorkerState → WorkerPc α → Prop
  | initial {wt} : Stuck wt .initial .waitReady
  | waitAck {wt run} : Stuck wt .finished (.waitAck run)
  | endReady : Stuck .ended .ready .waitReady
  | endDispatch : Stuck .ended .ready .dispatch
  | endDead : Stuck .ended .ready .setDead
  | dead : Stuck .ended .dead .exited
  | gone {wt st} (h : st.atWork = true) : Stuck wt st .exited

theorem Stuck.not_awaited {wt : WorkType} {st : WorkerState} {pc : WorkerPc α}
    (h : Stuck wt st pc) : st.awaited = false := by
  cases h with
  | gone hwork => cases st <;> first | rfl | cases hwork
  | _ => rfl

theorem Stuck.goes (h : Stuck w.workType w.state w.pc) (hnew : w.new = false)
    {localSort : List α → List α} {rows : Option Nat → List α} {held : Bool}
    (hg : w.Goes localSort rows held w') :
    Stuck w'.workType w'.state w'.pc ∧ w'.new = false := by
  cases hg with
  | cleanup => exact ⟨h, hnew⟩
  | fork hst =>
    obtain ⟨-, hn, -⟩ := forkSlave_eq_some hst
    simp [hnew] at hn
  | fail hst =>
    cases w
    cases h <;> simp [slaveFail] at hst
  | interrupt hst =>
    cases w
    cases h <;> simp [slaveInterrupt] at hst
  | worker hst =>
    cases w
    cases h with
    | dead | gone => simp [slaveStep] at hst
    | endReady =>
      obtain rfl := waitForState_eq_some rfl (by simp) hst
      exact ⟨.endDispatch, hnew⟩
    | endDispatch =>
      cases hst
      exact ⟨.endDead, hnew⟩
    | endDead =>
      rw [announce_eq_some hst]
      exact ⟨.dead, hnew⟩
    | _ => simp [slaveStep, waitForState] at hst
  | _ => exact ⟨h, hnew⟩

/-- A worker that is up and does not settle, though nobody holds its spinlock, is stuck. -/
theorem Recorded.stuck (h : Recorded job w) (hv : w.valid = true)
    (hs : w.settles false = false) : Stuck w.workType w.state w.pc ∧ w.new = false := by
  have hp := h.point
  have hne := job_workType_ne_ended job
  have hnew : w.new = false := by
    by_contra hn
    have hpc := (h.new (by simpa using hn)).1
    rw [hpc] at hp
    simp [h.valid, hp.state_of_absent] at hv
  refine ⟨?_, hnew⟩
  rw [h.valid] at hv
  simp only [settles] at hs
  generalize w.workType = wt, w.state = st, w.pc = pc at hp hv hs ⊢
  cases hp with
  | initial => exact .initial
  | waitAck => exact .waitAck
  | endReady => exact .endReady
  | endDispatch => exact .endDispatch
  | endDead => exact .endDead
  | dead => exact .dead
  | absent | starting | neverUp => simp at hv
  | gone _ hwork => exact .gone hwork
  | ready ht | dispatch ht | recv ht | performsort ht | querySend ht | queryDone ht =>
    rw [← ht] at hne
    simp [hne] at hs
  | failing ht hwork =>
    rw [← ht] at hne
    cases st <;> simp [hne, WorkerState.atWork] at hs hwork
  | _ => simp at hs

/-- Whatever anybody does, a worker that does not settle does not get to an awaited state. -/
theorem Recovery.unsettled (h : Recovery job s) (hinv : Inv true job s) (hq : 0 < job.queueSize)
    (hn : s.pc.normal = false) (hv : (s.slots i).valid = true)
    (hs : (s.slots i).settles (s.holds i) = false) {t : State α}
    (hrun : Steps (step job) (fun _ _ => True) s t) : (t.slots i).state.awaited = false := by
  cases hheld : s.holds i with
  | false =>
    rw [hheld] at hs
    refine Stuck.not_awaited (h.keeps hinv hq hn (P := fun v =>
      Stuck v.workType v.state v.pc ∧ v.new = false) ?_ ((h.records i).stuck hv hs) hrun).1
    exact fun v v' _ hstuck hg => hstuck.1.goes hstuck.2 hg
  | true =>
    refine h.keeps hinv hq hn (P := fun v => v.state.awaited = false) ?_ ?_ hrun
    · intro v v' _ hno hg
      rw [hheld] at hg
      rwa [hg.state_of_held]
    · cases hst : (s.slots i).state <;> simp [Slot.settles, hst, WorkerState.awaited] at hs ⊢

/-! ### Workers that do -/

/-- Nobody fails by itself. -/
def Unfailing (_ : State α) (e : Event) : Prop := ∀ j fatal, e ≠ .fail j fatal

/-- Worker `i` can get to an awaited state. -/
def Arrives (job : Job α) (s : State α) (i : Nat) : Prop :=
  ∃ t, Run.Steps (step job) Unfailing s t ∧ (t.slots i).state.awaited = true

/-- Worker `i` has been sent a cancel request, or is about to be. -/
def Requested (s : State α) (i : Nat) : Prop := i ∈ s.toCancel ∨ i ∈ s.cancelPending

theorem Arrives.before (h : Arrives job s' i) {e : Event} (he : ∀ j fatal, e ≠ .fail j fatal)
    (hst : step job s e = some s') : Arrives job s i := by
  obtain ⟨t, hrun, ht⟩ := h
  exact ⟨t, Steps.head he hst hrun, ht⟩

section

variable (hheld : s.holds i = false)
include hheld

theorem Arrives.worker (hst : slaveStep (job.localSort i) job.rows false (s.slots i) = some w)
    (h : Arrives job (s.set i w) i) : Arrives job s i := by
  refine h.before (e := .worker i) (by simp) ?_
  simp only [step, hheld, hst, Option.map_some]

theorem arrives_of_last (hpc : (s.slots i).pc = .failing ∨ (s.slots i).pc = .setEnded) :
    Arrives job s i := by
  rcases hpc with hpc | hpc <;>
    refine Arrives.worker hheld (by simp only [slaveStep, hpc, announce]; rfl)
      ⟨_, Steps.refl, by simp [State.set, put, WorkerState.awaited]⟩

/-- A request that has been sent is served. -/
theorem arrives_of_pending (hreq : i ∈ s.cancelPending)
    (hint : (slaveInterrupt (s.slots i)).isSome = true) : Arrives job s i := by
  obtain ⟨w, hw⟩ := Option.isSome_iff_exists.mp hint
  have hst : step job s (.interrupt i) =
      some { s.set i w with cancelPending := s.cancelPending.filter (· ≠ i) } := by
    simp only [step, if_pos hreq, hw, Option.map_some]
  refine Arrives.before (e := .interrupt i) ?_ (by simp) hst
  refine arrives_of_last hheld (.inl ?_)
  simp [State.set, slaveInterrupt_eq_some hw]

section

variable (hreq : Requested s i)
include hreq

/-- A request that is about to be sent is sent and served. -/
theorem arrives_of_interrupt (hint : (slaveInterrupt (s.slots i)).isSome = true) :
    Arrives job s i := by
  rcases hreq with hto | hpend
  swap
  · exact arrives_of_pending hheld hpend hint
  have hne : s.toCancel ≠ [] := List.ne_nil_of_mem hto
  have hst : step job s .deliverCancel =
      some { s with toCancel := [], cancelPending := s.cancelPending ++ s.toCancel } := by
    simp only [step, if_neg hne]
  refine Arrives.before ?_ (by simp) hst
  exact arrives_of_pending hheld (List.mem_append_right _ hto) hint

theorem arrives_of_dispatch (hpc : (s.slots i).pc = .dispatch)
    (hwt : (s.slots i).workType ≠ .ended) : Arrives job s i := by
  cases hw : (s.slots i).workType with
  | ended => exact absurd hw hwt
  | _ =>
    refine Arrives.worker hheld (by simp only [slaveStep, hpc, hw]; rfl) ?_
    exact arrives_of_interrupt hheld hreq (by simp [State.set, slaveInterrupt])

theorem arrives_of_ready (hpc : (s.slots i).pc = .waitReady)
    (hst : (s.slots i).state = .ready) (hwt : (s.slots i).workType ≠ .ended) : Arrives job s i := by
  refine Arrives.worker hheld
    (by simp only [slaveStep, hpc, waitForState, hst, false_eq_true, if_false, if_true]; rfl) ?_
  exact arrives_of_dispatch hheld hreq (by simp [State.set]) (by simpa [State.set, look] using hwt)

theorem arrives_of_ack {run : List α} (hpc : (s.slots i).pc = .waitAck run)
    (hst : (s.slots i).state = .finishedAck) : Arrives job s i := by
  refine Arrives.worker hheld
    (by simp only [slaveStep, hpc, waitForState, hst, false_eq_true, if_false, if_true]; rfl) ?_
  exact arrives_of_interrupt hheld hreq (by simp [State.set, slaveInterrupt])

end

end

/-- A worker that settles can get there. -/
theorem Recovery.arrives (h : Recovery job s) (hi : i < s.pc.asked job.workersCnt)
    (hc : (s.slots i).counts = true) (hs : (s.slots i).settles (s.holds i) = true) :
    Arrives job s i := by
  have hp := (h.records i).point
  obtain ⟨hlist, -⟩ := and_eq_true_iff.mp hc
  have hreq : ¬ (s.slots i).Spared → Requested s i := (h.asked i hi).resolve_left
  have hne := job_workType_ne_ended job
  generalize hw : s.slots i = w at hp hs hlist hreq
  obtain ⟨valid, state, new, workType, subnode, bq, inW, inJ, pc, seen, log⟩ := w
  simp only at hlist
  have hnow : state.awaited = true → Arrives job s i := fun ha =>
    ⟨s, Steps.refl, by rw [hw]; exact ha⟩
  by_cases ha : state.awaited = true
  · exact hnow ha
  have hheld : s.holds i = false := by
    by_contra hheld
    simp only [Bool.not_eq_false] at hheld
    cases state <;> cases pc <;> simp [settles, hheld, WorkerState.awaited] at hs ha
  cases hp with
  | ended | canceled => exact hnow rfl
  | failing => exact arrives_of_last hheld (.inl (by rw [hw]))
  | sortDone | queryDone => exact arrives_of_last hheld (.inr (by rw [hw]))
  | ready ht =>
    exact arrives_of_ready hheld (hreq (by simp [Spared, hlist])) (by rw [hw]) (by rw [hw])
      (by rw [hw]; exact ht ▸ hne)
  | dispatch ht =>
    exact arrives_of_dispatch hheld (hreq (by simp [Spared, hlist])) (by rw [hw])
      (by rw [hw]; exact ht ▸ hne)
  | ack => exact arrives_of_ack hheld (hreq (by simp [Spared, hlist])) (by rw [hw]) (by rw [hw])
  | recv | performsort | finishedLog | ackLog | sortSend | querySend =>
    exact arrives_of_interrupt hheld (hreq (by simp [Spared, hlist])) (by simp [hw, slaveInterrupt])
  | gone _ hwork => cases state <;> simp [settles, WorkerState.atWork] at hs hwork
  | _ => simp [settles] at hs

/--
Take any run, errors included, up to a point at which the master is in
`waitForAllWorkers(CANCELED)`, and a worker of the list that is up.  The worker can still
get to `CANCELED` or to `END` exactly when it settles: it is at one of the two, or its process
is alive, the master has not left its spinlock held, and it is at `FINISHED_ACK`, at `READY`
with work other than `END`, or at `FINISHED` and not yet polling for the acknowledgement.  A
worker that settles gets there without failing by itself, by its own steps and the cancel
request.
-/
theorem abort_wait_left_iff {job : Job α} (hq : 0 < job.queueSize) {freeSems : Nat}
    {s : State α} (h : Run.Steps (step job) (fun _ _ => True) (init job freeSems) s) {k : Nat}
    {notEnd : Bool} (hpc : s.pc = .waitAll k notEnd) {i : Nat}
    (hc : (s.slots i).counts = true) :
    ((∃ t, Run.Steps (step job) (fun _ _ => True) s t ∧
        ((t.slots i).state = .canceled ∨ (t.slots i).state = .ended)) ↔
      (s.slots i).settles (s.holds i) = true) ∧
    ((s.slots i).settles (s.holds i) = true → ∃ t, Run.Steps (step job) Unfailing s t ∧
      ((t.slots i).state = .canceled ∨ (t.slots i).state = .ended)) := by
  have hn : s.pc.normal = false := by rw [hpc]; rfl
  obtain ⟨hinv, hrec⟩ := Recovery.run hq h hn
  have hi : i < job.workersCnt := by
    by_contra hge
    simp [hinv.beyond i (by omega), counts, unused] at hc
  have hgets : (s.slots i).settles (s.holds i) = true → ∃ t, Steps (step job) Unfailing s t ∧
      ((t.slots i).state = .canceled ∨ (t.slots i).state = .ended) := by
    intro hs
    obtain ⟨t, hrun, ht⟩ := hrec.arrives (by rw [hpc]; exact hi) hc hs
    exact ⟨t, hrun, by simpa [WorkerState.awaited] using ht⟩
  refine ⟨⟨?_, fun hs => ?_⟩, hgets⟩
  swap
  · obtain ⟨t, hrun, ht⟩ := hgets hs
    exact ⟨t, hrun.mono fun _ _ _ => trivial, ht⟩
  rintro ⟨t, hrun, ht⟩
  by_contra hs
  have hnot := hrec.unsettled hinv hq hn (and_eq_true_iff.mp hc).2 (by simpa using hs) hrun
  simp only [WorkerState.awaited, or_eq_false_iff, decide_eq_false_iff_not] at hnot
  exact ht.elim hnot.1 hnot.2

/-! ### Runs -/

/-- One worker that receives numbers when the master is interrupted. -/
def asked : State Nat :=
  Run.follow (step (sortNats [2, 1] 1 1)) (init (sortNats [2, 1] 1 1) 3)
    (inTurn 1 8 ++ [.abort, .master, .master])

theorem abort_wait_left_iff_asked : asked.pc = .waitAll 0 false ∧ (asked.slots 0).state = .ready ∧
      ∃ t, Run.Steps (step (sortNats [2, 1] 1 1)) Unfailing asked t ∧
        ((t.slots 0).state = .canceled ∨ (t.slots 0).state = .ended) := by
  have hpc : asked.pc = .waitAll 0 false := by decide +kernel
  exact ⟨hpc, by decide +kernel, (abort_wait_left_iff (by decide)
    (steps_of_follow _ fun _ _ _ => trivial) hpc (by decide +kernel)).2 (by decide +kernel)⟩

/-- The master is interrupted in `ExecEndSort`, in `waitForWorkers(..., DEAD)`. -/
def diedBefore : State Nat :=
  Run.follow (step (sortNats [1] 1 1)) (init (sortNats [1] 1 1) 3)
    (inTurn 1 25 ++ [.endNode] ++ inTurn 1 9 ++ [.abort, .master, .master])

/-- It waits for a worker that is at `DEAD` and stays there. -/
theorem diedBefore_waits_for_dead :
    Run.Steps (step (sortNats [1] 1 1)) (fun _ _ => True) (init (sortNats [1] 1 1) 3) diedBefore ∧
      diedBefore.pc = .waitAll 0 false ∧ (diedBefore.slots 0).counts = true ∧
      (diedBefore.slots 0).state = .dead ∧
      ∀ t, Run.Steps (step (sortNats [1] 1 1)) (fun _ _ => True) diedBefore t →
        (t.slots 0).state ≠ .canceled ∧ (t.slots 0).state ≠ .ended := by
  have hpc : diedBefore.pc = .waitAll 0 false := by decide +kernel
  have hrun : Steps (step (sortNats [1] 1 1)) (fun _ _ => True) (init (sortNats [1] 1 1) 3)
      diedBefore := steps_of_follow _ fun _ _ _ => trivial
  have hn : diedBefore.pc.normal = false := by rw [hpc]; rfl
  obtain ⟨hinv, hrec⟩ := Recovery.run (by decide) hrun hn
  refine ⟨hrun, hpc, by decide +kernel, by decide +kernel, fun t ht => ?_⟩
  have hno := hrec.unsettled (i := 0) hinv (by decide) hn (by decide +kernel) (by decide +kernel) ht
  simpa [WorkerState.awaited] using hno

end PrlPg
