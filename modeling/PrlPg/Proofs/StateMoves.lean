/-
How `worker->state` moves.

Both sides write the field, and some writes do not look at what they overwrite.  They are
safe all the same, and this file says in what sense: the field only moves along the
edges of `StateMove`, each of which belongs to one side, and a value is overwritten only
after the side it was meant for has read it.  `NONE` is the exception, the value the
record is created with before there is a worker to read it.

It follows that a barrier cannot be missed.  `INITIAL`, `FINISHED`, `END` and `DEAD` are
left by nobody but the master, and it is waiting, so the workers gather in the awaited
state and the next full pass of `waitForWorkers` counts all of them.
-/
import PrlPg.Proofs.Progress

namespace PrlPg

open Option Run Function

variable {α : Type*}

/-- The moves of `worker->state`, with the side that makes them, for a Sort or an Append
and a worker whose `WorkDef` asks for `workType`. -/
inductive StateMove (sort : Bool) (workType : WorkType) : Side → WorkerState → WorkerState → Prop
  | up : StateMove sort workType .worker .none .initial
  | start : StateMove sort workType .master .initial .ready
  | sorted (h : sort = true) (hw : workType ≠ .ended) :
      StateMove sort workType .worker .ready .finished
  | ack (h : sort = true) : StateMove sort workType .master .finished .finishedAck
  | sent (h : sort = true) : StateMove sort workType .worker .finishedAck .ended
  | queried (h : sort = false) (hw : workType ≠ .ended) :
      StateMove sort workType .worker .ready .ended
  | again : StateMove sort workType .master .ended .ready
  | dead (hw : workType = .ended) : StateMove sort workType .worker .ready .dead

/-- Who moves. -/
def Event.side : Event → Side
  | .worker _ | .fork _ | .fail .. | .interrupt _ => .worker
  | .master | .fetch | .endNode | .abort | .deliverCancel => .master

/-- `worker->state` is left alone, or moved along an edge after the value it had was
read. -/
def Moved (job : Job α) (side : Side) (w w' : Slot α) : Prop :=
  w'.state = w.state ∨ StateMove job.isSort w.workType side w.state w'.state ∧
      (w.state = .none ∨ w.seen = true)

variable {job : Job α} {s s' : State α} {side : Side} {cell : BufferQueueCell α} {s₁ : State α}
  {w w' : Slot α}

/-! ### The workers -/

theorem InStage.slaveStep_moved {g : Stage} {localSort : List α → List α}
    {rows : Option Nat → List α} {held : Bool} (hin : InStage job g w)
    (hst : PrlPg.slaveStep localSort rows held w = some w') : Moved job .worker w w' := by
  have hctl := hin.ctl
  have hkind := job_workType job
  cases w
  cases hctl with
  | unused | absent | dead | deadSeen | released => simp [PrlPg.slaveStep] at hst
  | starting =>
    simp only [PrlPg.slaveStep] at hst
    split_ifs at hst
    cases hst
    exact .inr ⟨.up, .inl rfl⟩
  | ready | endReady =>
    obtain rfl := waitForState_eq_some rfl (by simp) hst
    exact .inl rfl
  | dispatch | finishedLog | finishedLogSeen | endDispatch =>
    cases hst
    exact .inl rfl
  | recv =>
    obtain ⟨bq, pc, log, rfl, -⟩ := recvStep_eq_some hst
    exact .inl rfl
  | performsort ht =>
    rw [announce_eq_some hst]
    have hsort : job.isSort = true := by
      rcases hkind with ⟨hs, -⟩ | ⟨-, hq⟩
      · exact hs
      · simp [hq] at ht
    exact .inr ⟨.sorted hsort (by simp), .inr rfl⟩
  | endDead =>
    rw [announce_eq_some hst]
    exact .inr ⟨.dead rfl, .inr rfl⟩
  | sends hs hctl =>
    cases hctl with
    | ended => simp [PrlPg.slaveStep, waitForState] at hst
    | ack | queryReady =>
      obtain rfl := waitForState_eq_some rfl (by simp) hst
      exact .inl rfl
    | sortSend | querySend =>
      obtain ⟨bq, pc, log, rfl, -⟩ := sendStep_eq_some hst
      exact .inl rfl
    | sortDone ht =>
      rw [announce_eq_some hst]
      have hsort : job.isSort = true := by
        rcases hkind with ⟨hs, -⟩ | ⟨-, hq⟩
        · exact hs
        · simp [hq] at ht
      exact .inr ⟨.sent hsort, .inr rfl⟩
    | queryDone ht =>
      rw [announce_eq_some hst]
      have hquery : job.isSort = false := by
        rcases hkind with ⟨-, hs⟩ | ⟨hq, -⟩
        · simp [hs] at ht
        · exact hq
      exact .inr ⟨.queried hquery (by simp), .inr rfl⟩
    | _ =>
      cases hst
      exact .inl rfl
  | _ => simp [PrlPg.slaveStep, waitForState] at hst

/-! ### The master -/

theorem moved_set {k : Nat} {w : Slot α}
    (hslots : s'.slots = update s.slots k w) (hw : Moved job side (s.slots k) w) :
    ∀ i, Moved job side (s.slots i) (s'.slots i) := by
  intro i
  rw [hslots]
  by_cases hik : i = k
  · subst hik
    rwa [update_self]
  · rw [update_of_ne hik]
    exact .inl rfl

theorem moved_goto (hslots : s'.slots = s.slots) :
    ∀ i, Moved job side (s.slots i) (s'.slots i) := by
  intro i
  rw [hslots]
  exact .inl rfl

/-- What the master reads out of or puts into a queue is no business of the state. -/
theorem addTo_moved {i : Nat}
    (h : addTo s i cell = some s₁) (hslots : s'.slots = s₁.slots) :
    ∀ i, Moved job .master (s.slots i) (s'.slots i) := by
  obtain ⟨k, w, r, -, hadd, rfl⟩ := addTo_eq_some h
  obtain ⟨-, -, rfl⟩ := Slot.bufferQueueAdd_eq_some hadd
  exact moved_set hslots (.inl rfl)

theorem getFrom_moved {i : Nat}
    (h : getFrom s i = some (cell, s₁)) (hslots : s'.slots = s₁.slots) :
    ∀ i, Moved job .master (s.slots i) (s'.slots i) := by
  obtain ⟨k, w, -, hget, rfl⟩ := getFrom_eq_some h
  obtain ⟨rest, -, rfl⟩ := Slot.bufferQueueGet_eq_some hget
  exact moved_set hslots (.inl rfl)

theorem InStage.transition_moved {ho : HandOver} {w : Slot α}
    (hin : InStage job (match ho with | .start => .initialSeen | .ack => .finishedSeen) w) :
    Moved job .master w (if (w.look .master).counts && (w.look .master).state = ho.old then
        (w.look .master).put ho.new else w.look .master) := by
  split
  swap
  · exact .inl rfl
  rename_i hhit
  simp only [Bool.and_eq_true, decide_eq_true_eq] at hhit
  have hold : w.state = ho.old := hhit.2
  refine .inr ⟨?_, .inr ?_⟩
  swap
  · cases ho with
    | start => exact hin.ctl.of_initialSeen.2.2.2
    | ack => exact hin.ctl.of_finishedSeen.2.2.2.1
  simp only [Slot.put, hold]
  cases ho with
  | start => exact .start
  | ack =>
    have ht := hin.ctl.of_finishedSeen.1
    rcases job_workType job with ⟨hs, -⟩ | ⟨-, hq⟩
    · exact .ack hs
    · simp [hq] at ht

theorem InStage.endSeen_moved (hin : InStage job .endSeen w)
    (hst : w'.state = .ready) : Moved job .master w w' := by
  have hold := hin.ctl.of_endSeen.2.1
  refine .inr ⟨?_, .inr hin.ctl.of_endSeen.2.2.2⟩
  rw [hold, hst]
  exact .again

theorem Inv.master_moved (h : Inv false job s) (hst : masterStep job s = some s') :
    ∀ i, Moved job .master (s.slots i) (s'.slots i) := by
  cases hpc : s.pc with
  | create j =>
    simp only [masterStep, hpc, createStep] at hst
    by_cases hj : j < job.workersCnt
    swap
    · rw [if_neg hj] at hst
      cases hst
      exact moved_goto rfl
    have hin := h.inStage (by rw [hpc]; rfl) hj
    rw [hpc] at hin
    simp only [stage, lt_irrefl, if_false] at hin
    have hold := hin.ctl.of_unused.2
    rw [if_pos hj] at hst
    repeat' split at hst
    all_goals cases hst
    · exact moved_set rfl (.inl hold.symm)
    · exact moved_set rfl (.inl hold.symm)
    · exact moved_goto rfl
  | transition ho k =>
    simp only [masterStep, hpc, stateTransition] at hst
    by_cases hk : k < job.workersCnt
    · have hin := h.inStage (by rw [hpc]; rfl) hk
      rw [hpc] at hin
      rw [if_pos hk] at hst
      cases hst
      refine moved_set rfl (InStage.transition_moved ?_)
      cases ho <;> simpa [stage] using hin
    rw [if_neg hk] at hst
    cases hst
    exact moved_goto rfl
  | distribute | distributeLast j =>
    simp only [masterStep, hpc, distributeToWorker, PrlPg.distributeLast] at hst
    split at hst
    all_goals first
      | (cases hst; exact moved_goto rfl)
      | (obtain ⟨s₁, hs₁, rfl⟩ := map_eq_some_iff.mp hst; exact addTo_moved hs₁ rfl)
  | prepare cw =>
    simp only [masterStep, hpc, prepareForMerge] at hst
    split at hst
    · obtain ⟨⟨cell, s₁⟩, hs₁, rfl⟩ := map_eq_some_iff.mp hst
      exact getFrom_moved hs₁ rfl
    · cases hst
      exact moved_goto rfl
  | fetch stup =>
    simp only [masterStep, hpc, fetchNext] at hst
    obtain ⟨⟨cell, s₁⟩, hs₁, rfl⟩ := map_eq_some_iff.mp hst
    exact getFrom_moved hs₁ rfl
  | wait b k c | register k | getTuple | poll i | waitState i | stopScan k | stopGet k =>
    simp only [masterStep, hpc, waitForWorkers, registerWorkers, gettupleslotFromWorker, pollStep,
      waitForEnd, stopStep, stopGetStep] at hst
    repeat' split at hst
    all_goals cases hst
    all_goals first
      | exact moved_goto rfl
      | exact moved_set rfl (.inl rfl)
  | assign i =>
    obtain ⟨-, hworkers, -⟩ := h.located hpc rfl
    simp only [masterStep, hpc, assignPlan] at hst
    split at hst
    · cases hst
    rename_i k hk
    obtain ⟨rfl, hlt⟩ := workers_getElem? hworkers hk
    have hin := h.inStage (by rw [hpc]; rfl) hlt
    rw [hpc] at hin
    simp only [stage, if_true] at hin
    cases hst
    exact moved_set rfl (hin.endSeen_moved rfl)
  | destroyScan k =>
    simp only [masterStep, hpc, destroyStep] at hst
    by_cases hk : k < job.workersCnt
    swap
    · rw [if_neg hk] at hst
      cases hst
      exact moved_goto rfl
    have hin := h.inStage (by rw [hpc]; rfl) hk
    rw [hpc] at hin
    simp only [stage, lt_irrefl, if_false] at hin
    rw [if_pos hk] at hst
    split at hst <;> cases hst
    · exact moved_set rfl (hin.endSeen_moved rfl)
    · exact moved_goto rfl
  | releaseScan k =>
    simp only [masterStep, hpc, releaseStep] at hst
    split at hst <;> cases hst
    · refine moved_set rfl (.inl ?_)
      split <;> rfl
    · exact moved_goto rfl
  | cancel k | waitAll k b | cleanup k =>
    rcases h.path rfl with hn | hf
    · simp [hpc, MasterPc.normal] at hn
    · simp [hpc] at hf
  | _ => simp [masterStep, hpc] at hst

/-- Every event of a run without errors moves the states along the edges. -/
theorem Inv.event_moved (h : Inv false job s) (hfatal : s.pc ≠ .fatal) {e : Event}
    (he : e.quiet = true) (hst : step job s e = some s') :
    ∀ i, Moved job e.side (s.slots i) (s'.slots i) := by
  have hn : s.pc.normal = true := (h.path rfl).resolve_right hfatal
  have hin : ∀ i, s.slots i ≠ Slot.unused → InStage job (stage job s.pc i) (s.slots i) := by
    intro i hu
    refine h.inStage hn ?_
    by_contra hge
    exact hu (h.beyond i (by omega))
  cases step_occurs hst with
  | master hst => exact h.master_moved hst
  | fetch | endNode => exact moved_goto rfl
  | @worker i w hw =>
    refine moved_set rfl ((hin i fun hu => ?_).slaveStep_moved hw)
    simp [hu, Slot.unused, slaveStep] at hw
  | fork hw =>
    obtain ⟨-, -, rfl⟩ := forkSlave_eq_some hw
    exact moved_set rfl (.inl rfl)
  | _ => simp [Event.quiet] at he

/-! ### The barriers -/

/-- The states the workers gather in are left by the master only. -/
theorem StateMove.master_of_waiting {sort : Bool} {workType : WorkType}
    {old new : WorkerState} (h : StateMove sort workType side old new)
    (hold : old = .initial ∨ old = .finished ∨ old = .ended) : side = .master := by
  cases h with
  | start | ack | again => rfl
  | _ => simp at hold

/-- A barrier is left for the part of the program behind it. -/
theorem wait_leave {b : Barrier} {k c : Nat} (hpc : s.pc = .wait b k c) {e : Event}
    (he : e.drains = true) (hst : step job s e = some s')
    (hleft : ¬ ∃ k c, s'.pc = .wait b k c) : s'.pc = b.next := by
  cases step_occurs hst with
  | master hst =>
    simp only [masterStep, hpc, waitForWorkers] at hst
    split at hst
    · cases hst
      exact absurd ⟨_, _, rfl⟩ hleft
    split at hst <;> cases hst
    · rfl
    · exact absurd ⟨_, _, rfl⟩ hleft
  | fetch hidle => simp [hpc] at hidle
  | worker | fork => exact absurd ⟨k, c, hpc⟩ hleft
  | _ => simp [Event.drains] at he

/-- Whatever has happened before, a master that waits at a barrier gets past it. -/
theorem QuietInv.passes (h : QuietInv job s) (hq : 0 < job.queueSize) {b : Barrier} {k c : Nat}
    (hpc : s.pc = .wait b k c) : ∃ t, Steps (step job) Drain s t ∧ t.pc = b.next := by
  obtain ⟨t, hrun, ht⟩ := Steps.reach_of_measure (P := Drain) (measure job)
    (I := QuietInv job) (G := fun u => ¬ ∃ k c, u.pc = .wait b k c)
    (fun u e v hu he hst => hu.event hq he.quiet hst)
    (fun u hu hG => by
      obtain ⟨k, c, hpc⟩ := not_not.mp hG
      exact hu.inv.wait_getsOn hpc hu.data) s h
  obtain ⟨u, e, v, hrun', ⟨k', c', hu⟩, he, hst, hv⟩ :=
    hrun.leaves (A := fun u => ∃ k c, u.pc = .wait b k c) ⟨k, c, hpc⟩ ht
  exact ⟨v, (hrun'.mono fun _ _ h => h.1).tail he hst, wait_leave hu he hst hv⟩

/--
In every run of a Sort or an Append without errors, `worker->state` moves along the
edges of `StateMove` only.  `INITIAL`, `FINISHED` and `END` are left by the master's own
transitions, and no value but the `NONE` of a fresh record is overwritten before the
other side has read it.  Whenever the master waits at a barrier it can get past it, so
no worker has slipped through.
-/
theorem handshake_stable {job : Job α} (hq : 0 < job.queueSize) {freeSems : Nat} {s : State α}
    (h : Run.Steps (step job) Quiet (init job freeSems) s) (hfatal : s.pc ≠ .fatal) :
    (∀ (e : Event) (t : State α), e.quiet = true → step job s e = some t →
      ∀ i, (t.slots i).state ≠ (s.slots i).state →
        StateMove job.isSort (s.slots i).workType e.side (s.slots i).state (t.slots i).state ∧
          ((s.slots i).state = .initial ∨ (s.slots i).state = .finished ∨
            (s.slots i).state = .ended → e.side = .master) ∧
          ((s.slots i).state = .none ∨ (s.slots i).seen = true)) ∧
      ∀ (b : Barrier) (k readyCnt : Nat), s.pc = .wait b k readyCnt →
        ∃ t, Run.Steps (step job) Quiet s t ∧ t.pc = b.next := by
  have hs := QuietInv.run hq h
  refine ⟨?_, ?_⟩
  · intro e t he hst i hne
    obtain ⟨hmove, hseen⟩ := (hs.inv.event_moved hfatal he hst i).resolve_left hne
    exact ⟨hmove, hmove.master_of_waiting, hseen⟩
  intro b k readyCnt hpc
  obtain ⟨t, hrun, ht⟩ := hs.passes hq hpc
  exact ⟨t, hrun.mono fun _ _ he => he.quiet, ht⟩

/-! ### Runs -/

/-- The worker of a sort has been forked and is about to come up. -/
def forked : State Nat :=
  Run.follow (step (sortNats [1] 1 1)) (init (sortNats [1] 1 1) 3) [.master, .master, .fork 0]

/-- The master has written `NONE`, and the worker overwrites it without a look. -/
theorem forked_overwrites_none :
    Run.Steps (step (sortNats [1] 1 1)) Quiet (init (sortNats [1] 1 1) 3) forked ∧
      (forked.slots 0).state = .none ∧ WorkerState.none.writer = .master ∧
      (forked.slots 0).seen = false ∧
      ∃ t, step (sortNats [1] 1 1) forked (.worker 0) = some t ∧ (t.slots 0).state = .initial := by
  have hquiet : ∀ u : State Nat, ∀ e ∈ [.master, .master, .fork 0], Quiet u e := by
    intro u e he
    simp only [List.mem_cons, List.not_mem_nil, or_false] at he
    rcases he with rfl | rfl | rfl <;> rfl
  have hup : (step (sortNats [1] 1 1) forked (.worker 0)).map (fun t => (t.slots 0).state)
      = some .initial := by
    decide +kernel
  exact ⟨steps_of_follow _ hquiet, by decide +kernel, rfl, by decide +kernel,
    map_eq_some_iff.mp hup⟩

/-- Two workers sort two numbers; the master has found the first of them to be done. -/
def gathering : State Nat :=
  Run.follow (step (sortNats [2, 1] 2 1)) (init (sortNats [2, 1] 2 1) 6) (inTurn 2 19)

theorem handshake_stable_gathering : gathering.pc = .wait .finished 1 1 ∧
      ∃ t, Run.Steps (step (sortNats [2, 1] 2 1)) Quiet gathering t ∧ t.pc = .transition .ack 0 := by
  have hrun : Steps (step (sortNats [2, 1] 2 1)) Quiet (init (sortNats [2, 1] 2 1) 6)
      gathering := steps_of_follow _ (quiet_inTurn 2 19)
  have hpc : gathering.pc = .wait .finished 1 1 := by decide +kernel
  exact ⟨hpc, (handshake_stable (by decide) hrun (by simp [hpc])).2 _ _ _ hpc⟩

end PrlPg
