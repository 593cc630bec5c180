/-
A worker that fails goes unnoticed.

The error branch of `slaveBackendMain` sets the worker's state to `CANCELED` and leaves;
its comment says that it should cancel the master's query too, but nothing does.  The
master looks for `CANCELED` in `waitForState` only, which a Sort does not call.  At a
barrier it waits for a count that the failed worker is missing from for ever.  On the
semaphore of the failed worker's queue it waits for somebody who has gone.  So wherever
a parallel sort waits for a worker that has failed, it waits until it is interrupted
from outside.

Only a worker that fails after it was counted at `FINISHED` is not waited for at that
barrier.  But every parallel sort can get to such a wait: when all its workers fail before
they have taken a tuple, the master stops at the first full queue, or else at that barrier.
-/
import PrlPg.Proofs.Progress

namespace PrlPg

open Run Function

variable {α : Type*} {job : Job α} {s s' : State α} {f : Nat} {i : Nat}

/-- The master waits, for everybody or for worker `f`. -/
inductive WaitsFor (f : Nat) (s : State α) : Prop
  /-- in `waitForWorkers`, in a pass that has not counted the worker -/
  | barrier (b : Barrier) (k readyCnt : Nat) (hpc : s.pc = .wait b k readyCnt)
      (hmiss : k ≤ f ∨ readyCnt < k)
  /-- in `bufferQueueAdd`, with a tuple for the worker's full queue -/
  | tuple (hpc : s.pc = .distribute) (hinput : s.input ≠ [])
      (hf : s.workers[nextWorker s.lastWorker s.workers.length]? = some f)
      (hfull : (s.slots f).bufferQueue.initSize ≤ (s.slots f).bufferQueue.cells.length)
  /-- in `bufferQueueAdd`, with the end marker for its full queue -/
  | last (i : Nat) (hpc : s.pc = .distributeLast i) (hf : s.workers[i]? = some f)
      (hfull : (s.slots f).bufferQueue.initSize ≤ (s.slots f).bufferQueue.cells.length)
  /-- in `bufferQueueGet`, for its first tuple -/
  | first (cw : Nat) (hpc : s.pc = .prepare cw) (hf : s.workers[cw]? = some f)
      (hempty : (s.slots f).bufferQueue.cells = [])
  /-- in `bufferQueueGet`, for its next tuple -/
  | next (stup : SortTuple α) (hpc : s.pc = .fetch stup) (hf : s.workers[stup.tupindex]? = some f)
      (hempty : (s.slots f).bufferQueue.cells = [])

/-- The master is where it was, or in another pass of the same `waitForWorkers`. -/
def SameWait (pc pc' : MasterPc α) : Prop :=
  pc' = pc ∨ ∃ b k c k' c', pc = .wait b k c ∧ pc' = .wait b k' c'

theorem SameWait.trans {pc pc' pc'' : MasterPc α} (h : SameWait pc pc') (h' : SameWait pc' pc'') :
    SameWait pc pc'' := by
  rcases h with rfl | ⟨b, k, c, k', c', rfl, rfl⟩
  · exact h'
  rcases h' with rfl | ⟨b', _, _, k'', c'', hb, rfl⟩
  · exact .inr ⟨b, k, c, k', c', rfl, rfl⟩
  obtain ⟨rfl, -, -⟩ := hb
  exact .inr ⟨b, k, c, k'', c'', rfl, rfl⟩

theorem WaitsFor.normal (h : WaitsFor f s) : s.pc.normal = true := by
  cases h with
  | barrier b k c hpc _ => rw [hpc]; rfl
  | tuple hpc => rw [hpc]; rfl
  | last i hpc => rw [hpc]; rfl
  | first cw hpc => rw [hpc]; rfl
  | next stup hpc => rw [hpc]; rfl

/-! ### The worker has gone -/

theorem Admits.not_canceled {t wt : WorkType} {g : Stage} {st : WorkerState} {pc : WorkerPc α}
    {seen : Bool} (h : Admits t g wt st pc seen) : st ≠ .canceled := by
  cases h with
  | sends _ h => exact h.not_canceled
  | _ => simp

/-- A worker that has failed does nothing any more. -/
theorem Inv.gone (h : Inv true job s) (hn : s.pc.normal = true) (hf : f < job.workersCnt)
    (hst : (s.slots f).state = .canceled) :
    (s.slots f).pc = .exited ∧ (s.slots f).new = false := by
  rcases h.stages hn f hf with hin | ⟨-, -, hbr⟩
  · exact absurd hst hin.ctl.not_canceled
  refine ⟨?_, hbr.new⟩
  have hctl := hbr.ctl
  rw [hst] at hctl
  generalize (s.slots f).pc = pc at hctl
  cases hctl with
  | failing hwork => cases hwork
  | gone | canceled => rfl

/-! ### The master waits on -/

/-- Another record changes. -/
theorem WaitsFor.set (h : WaitsFor f s) {w : Slot α} (hi : i ≠ f) :
    WaitsFor f (s.set i w) := by
  have hslot : (s.set i w).slots f = s.slots f := update_of_ne (Ne.symm hi) _ _
  cases h with
  | barrier b k c hpc hmiss => exact .barrier b k c hpc hmiss
  | tuple hpc hinput hf hfull => exact .tuple hpc hinput hf (by rw [hslot]; exact hfull)
  | last i hpc hf hfull => exact .last i hpc hf (by rw [hslot]; exact hfull)
  | first cw hpc hf hempty => exact .first cw hpc hf (by rw [hslot]; exact hempty)
  | next stup hpc hf hempty => exact .next stup hpc hf (by rw [hslot]; exact hempty)

theorem addTo_full {cell : BufferQueueCell α} (hw : s.workers[i]? = some f)
    (hfull : (s.slots f).bufferQueue.initSize ≤ (s.slots f).bufferQueue.cells.length) :
    addTo s i cell = none := by
  simp [addTo, hw, Slot.bufferQueueAdd, bufferQueueAdd, not_lt.mpr hfull]

theorem getFrom_empty (hw : s.workers[i]? = some f)
    (hempty : (s.slots f).bufferQueue.cells = []) : getFrom s i = none := by
  simp [getFrom, hw, Slot.bufferQueueGet, bufferQueueGet, hempty]

section

variable (h : WaitsFor f s) (hinv : Inv true job s) (hf : f < job.workersCnt)
  (hst : (s.slots f).state = .canceled)
include h hinv hf hst

theorem WaitsFor.master (hstep : masterStep job s = some s') :
    (s'.slots f).state = .canceled ∧ WaitsFor f s' ∧ SameWait s.pc s'.pc := by
  cases h with
  | barrier b k c hpc hmiss =>
    have hle : c ≤ k ∧ k ≤ job.workersCnt := by have := hinv.bounded; rwa [hpc] at this
    simp only [masterStep, hpc, waitForWorkers] at hstep
    split at hstep
    · cases hstep
      refine ⟨?_, .barrier b _ _ rfl ?_, .inr ⟨b, k, c, _, _, hpc, rfl⟩⟩
      · by_cases hkf : f = k
        · subst hkf
          simpa [State.goto, State.set, Slot.look] using hst
        · simpa [State.goto, State.set, hkf] using hst
      -- a pass that comes to the worker does not count it
      by_cases hkf : f = k
      · subst hkf
        have hne : b.state ≠ .canceled := by cases b <;> simp [Barrier.state]
        rw [hst, if_neg (by simp [hne.symm])]
        omega
      · split <;> omega
    next hk =>
      rw [if_neg (by omega)] at hstep
      cases hstep
      exact ⟨hst, .barrier b 0 0 rfl (.inl (Nat.zero_le f)), .inr ⟨b, k, c, 0, 0, hpc, rfl⟩⟩
  | tuple hpc hinput hw hfull =>
    obtain ⟨t, rest, hcons⟩ := List.exists_cons_of_ne_nil hinput
    simp only [masterStep, hpc, distributeToWorker, hcons, addTo_full hw hfull] at hstep
    cases hstep
  | last i hpc hw hfull =>
    have hi : i < s.workers.length := (List.getElem?_eq_some_iff.mp hw).1
    simp only [masterStep, hpc, distributeLast, if_pos hi, addTo_full hw hfull] at hstep
    cases hstep
  | first cw hpc hw hempty =>
    have hi : cw < s.workers.length := (List.getElem?_eq_some_iff.mp hw).1
    simp only [masterStep, hpc, prepareForMerge, if_pos hi, getFrom_empty hw hempty] at hstep
    cases hstep
  | next stup hpc hw hempty =>
    simp only [masterStep, hpc, fetchNext, getFrom_empty hw hempty] at hstep
    cases hstep

/-- Nothing but an interrupt from outside ends the wait. -/
theorem WaitsFor.event {e : Event} (he : e ≠ .abort) (hstep : step job s e = some s') :
    (s'.slots f).state = .canceled ∧ WaitsFor f s' ∧ SameWait s.pc s'.pc := by
  obtain ⟨hgone, hnew⟩ := hinv.gone h.normal hf hst
  have hcalm := hinv.calm h.normal
  -- a step of a worker is a step of another worker
  have hother : ∀ {i : Nat} {w : Slot α}, i ≠ f →
      ((s.set i w).slots f).state = .canceled ∧ WaitsFor f (s.set i w) ∧
        SameWait s.pc (s.set i w).pc := by
    intro i w hi
    have hslot : (s.set i w).slots f = s.slots f := update_of_ne (Ne.symm hi) _ _
    exact ⟨by rw [hslot]; exact hst, h.set hi, .inl rfl⟩
  cases step_occurs hstep with
  | master hstep => exact h.master hinv hf hst hstep
  | fetch hpc | endNode hpc => cases h <;> simp_all
  | abort => cases he rfl
  | worker hw =>
    refine hother ?_
    rintro rfl
    simp [slaveStep, hgone] at hw
  | fail hw =>
    refine hother ?_
    rintro rfl
    simp [slaveFail, hgone] at hw
  | fork hw =>
    refine hother ?_
    rintro rfl
    simp [forkSlave, hnew] at hw
  | interrupt hp => simp [hcalm.2.1] at hp
  | deliverCancel hne => exact absurd hcalm.1 hne

end

/-- What a run that nobody interrupts comes to. -/
theorem WaitsFor.run (h : WaitsFor f s) (hq : 0 < job.queueSize) (hinv : Inv true job s)
    (hf : f < job.workersCnt) (hst : (s.slots f).state = .canceled) {t : State α}
    (hrun : Steps (step job) (fun _ e => e ≠ .abort) s t) :
    (t.slots f).state = .canceled ∧ SameWait s.pc t.pc := by
  have hall := hrun.invariant
    (I := fun u => Inv true job u ∧ (u.slots f).state = .canceled ∧ WaitsFor f u ∧
      SameWait s.pc u.pc)
    ⟨hinv, hst, h, .inl rfl⟩ fun u e v hu he hstep => by
      obtain ⟨huinv, hust, huwait, husame⟩ := hu
      obtain ⟨hvst, hvwait, hvsame⟩ := huwait.event huinv hf hust he hstep
      exact ⟨huinv.event hq (by simp) hstep, hvst, hvwait, husame.trans hvsame⟩
  exact ⟨hall.2.1, hall.2.2.2⟩

/-! ### Every sort can get there -/

/-- Before the workers are given their work. -/
def MasterPc.setsUp : MasterPc α → Bool
  | .create _ | .wait .initial _ _ | .register _ => true
  | _ => false

variable {freeSems : Nat} {k : Nat}

/-- Every job can be set up. -/
theorem setUp_reached (hq : 0 < job.queueSize) (hsem : 3 * job.workersCnt ≤ freeSems) :
    ∃ s, Steps (step job) Drain (init job freeSems) s ∧ s.pc = .transition .start 0 := by
  let I : State α → Prop := fun u => QuietInv job u ∧ Supplied job u
  have hstep : ∀ u e v, I u → Drain u e → step job u e = some v → I v := by
    rintro u e v ⟨hu, hsup⟩ he hst
    have hv := hu.event hq he.quiet hst
    exact ⟨hv, hsup.event hv.inv he hst⟩
  have hinit : I (init job freeSems) :=
    ⟨QuietInv.run hq Steps.refl, supplied_init hsem⟩
  have hprog : ∀ u, I u → ¬ ¬ u.pc.setsUp = true → GetsOn job u := by
    rintro u ⟨hu, hsup⟩ hG
    cases hpc : u.pc with
    | create i =>
      refine hu.inv.create_getsOn hpc fun hi => ?_
      rcases hsup with hw | ⟨j, hj, hsem⟩
      · simp [hpc, MasterPc.working] at hw
      · rw [hpc, MasterPc.create.injEq] at hj
        omega
    | wait b k c => exact hu.inv.wait_getsOn hpc hu.data
    | register k => exact hu.inv.register_getsOn hpc
    | _ => simp [hpc, MasterPc.setsUp] at hG
  obtain ⟨t, hrun, ht⟩ := Steps.reach_of_measure (measure job) hstep hprog _ hinit
  -- the step that ends the set-up is the last of `registerWorkers`
  obtain ⟨u, e, v, hrun', hu, he, hst, hv⟩ := hrun.leaves (A := fun u => u.pc.setsUp = true) rfl ht
  have hrun'' := (hrun'.mono fun _ _ h => h.1).tail he hst
  have hsup := (hrun''.invariant hinit hstep).2
  refine ⟨v, hrun'', ?_⟩
  cases step_occurs hst with
  | master hst =>
    have hnext := masterStep_next hst
    revert hnext hu hv hsup
    unfold Supplied
    generalize u.pc = pc, v.pc = pc'
    intro hu hv hsup hnext
    cases hnext with
    | registered => rfl
    | dry => simp [MasterPc.working] at hsup
    | @pass b | @count b => cases b <;> simp [MasterPc.setsUp, Barrier.next] at hu hv
    | _ => simp [MasterPc.setsUp] at hu hv
  | fetch hpc => simp [hpc, MasterPc.setsUp] at hu
  | worker | fork => exact absurd hu hv
  | _ => simp [Drain, Event.drains] at he

/-- A worker that has been given its work can fail before it has done any of it. -/
theorem fails_at_once (job : Job α) (hheld : s.holds k = false) (hpc : (s.slots k).pc = .waitReady)
    (hst : (s.slots k).state = .ready) (hwt : (s.slots k).workType ≠ .ended) :
    ∃ w, Steps (step job) (fun _ _ => True) s (s.set k w) ∧ w.state = .canceled := by
  have htake : step job s (.worker k) =
      some (s.set k { (s.slots k).look .worker with pc := .dispatch }) := by
    simp [step, hheld, slaveStep, hpc, waitForState, hst]
  have hfail : step job (s.set k { (s.slots k).look .worker with pc := .dispatch })
      (.fail k false) = some (s.set k { (s.slots k).look .worker with pc := .failing }) := by
    simp [step, State.set, slaveFail, Slot.look, hwt]
  have hend : step job (s.set k { (s.slots k).look .worker with pc := .failing }) (.worker k) =
      some (s.set k { ((s.slots k).look .worker).put .canceled with pc := .exited }) := by
    have hheld' : ∀ w, (s.set k w).holds k = false := fun _ => hheld
    simp only [step, hheld']
    simp [State.set, slaveStep, announce, Slot.put]
  exact ⟨_, ((Steps.single trivial htake).tail trivial hfail).tail trivial hend, rfl⟩

/-- The master waits for a worker that has failed. -/
def Deserted (job : Job α) (freeSems : Nat) : Prop :=
  ∃ s f, Run.Steps (step job) (fun _ _ => True) (init job freeSems) s ∧ f < job.workersCnt ∧
    (s.slots f).state = .canceled ∧ WaitsFor f s

theorem canceled_set {n : Nat} {w : Slot α} (hw : w.state = .canceled)
    (hall : ∀ i < n, i ≠ k → (s.slots i).state = .canceled) :
    ∀ i < n, ((s.set k w).slots i).state = .canceled := by
  intro i hi
  by_cases hik : i = k
  · simpa [State.set, hik] using hw
  · simpa [State.set, hik] using hall i hi hik

section

variable (hq : 0 < job.queueSize) (hcnt : 0 < job.workersCnt)
  (hrun : Steps (step job) (fun _ _ => True) (init job freeSems) s)
include hq hrun

theorem inv_of_run : Inv true job s := Inv.run hq (by simp) hrun

/-- All workers fail as soon as they are given their work. -/
theorem all_fail (hpc : s.pc = .transition .start k)
    (hall : ∀ i < k, (s.slots i).state = .canceled) :
    ∃ t, Steps (step job) (fun _ _ => True) (init job freeSems) t ∧
      t.pc = .transition .start job.workersCnt ∧
      ∀ i < job.workersCnt, (t.slots i).state = .canceled := by
  induction hm : job.workersCnt - k generalizing s k with
  | zero =>
    have hle := (inv_of_run hq hrun).bounded
    rw [hpc] at hle
    obtain rfl : k = job.workersCnt := le_antisymm hle (by omega)
    exact ⟨s, hrun, hpc, hall⟩
  | succ m ih =>
    have hk : k < job.workersCnt := by omega
    have hin := ((inv_of_run hq hrun).inStageOf (by rw [hpc]; rfl) hk (g := .initialSeen)
      (by simp [hpc, stage]) rfl).look .master
    obtain ⟨hwt, hst, hpcw, -⟩ := hin.ctl.of_initialSeen
    have hc := hin.counts rfl (by simp [hst])
    have hgive : step job s .master = some ((s.set k (((s.slots k).look .master).put .ready)).goto
        (.transition .start (k + 1))) := by
      simp [step, masterStep, hpc, stateTransition, hk, HandOver.old, HandOver.new, hc, hst]
    have hrun₁ := hrun.tail trivial hgive
    have hheld := (inv_of_run hq hrun₁).holds rfl k
    obtain ⟨w, hfail, hw⟩ := fails_at_once job hheld
      (by simpa [State.goto, State.set, Slot.put] using hpcw)
      (by simp [State.goto, State.set, Slot.put])
      (by simpa [State.goto, State.set, Slot.put, hwt] using job_workType_ne_ended job)
    refine ih (hrun₁.trans hfail) rfl (canceled_set hw fun i hi hik => ?_) (by omega)
    simpa [State.goto, State.set, hik] using hall i (by omega)

include hcnt in
/-- The end markers: the master stops at a full queue or gets to the barrier. -/
theorem deserted_last (hpc : s.pc = .distributeLast k)
    (hall : ∀ i < job.workersCnt, (s.slots i).state = .canceled) : Deserted job freeSems := by
  induction hm : job.workersCnt - k generalizing s k with
  | zero =>
    have hworkers := ((inv_of_run hq hrun).located hpc rfl).2.1
    have hst : step job s .master = some (s.goto (.wait .finished 0 0)) := by
      simp only [step, masterStep, hpc, distributeLast, hworkers, List.length_range, registered]
      rw [if_neg (by omega)]
    exact ⟨_, 0, hrun.tail trivial hst, hcnt, hall 0 hcnt,
      .barrier .finished 0 0 rfl (.inl le_rfl)⟩
  | succ m ih =>
    have hk : k < job.workersCnt := by omega
    have hworkers := ((inv_of_run hq hrun).located hpc rfl).2.1
    have hlt : k < s.workers.length := by rwa [hworkers, List.length_range]
    have hget : s.workers[k]? = some k := by rw [hworkers]; exact List.getElem?_range hk
    by_cases hroom : (s.slots k).bufferQueue.cells.length < (s.slots k).bufferQueue.initSize
    swap
    · exact ⟨s, k, hrun, hk, hall k hk, .last k hpc hget (not_lt.mp hroom)⟩
    obtain ⟨w, hadd, -, hw⟩ := addTo_of_room hworkers hk .last hroom
    have hst : step job s .master = some ((s.set k w).goto (.distributeLast (k + 1))) := by
      simp only [step, masterStep, hpc, distributeLast, if_pos hlt, hadd, Option.map_some]
    exact ih (hrun.tail trivial hst) rfl
      (canceled_set (hw.trans (hall k hk)) fun i hi _ => hall i hi) (by omega)

include hcnt in
/-- The tuples: the master stops at a full queue or goes on to the end markers. -/
theorem deserted_deal (hpc : s.pc = .distribute)
    (hall : ∀ i < job.workersCnt, (s.slots i).state = .canceled) : Deserted job freeSems := by
  induction hin : s.input generalizing s with
  | nil =>
    have hst : step job s .master = some (s.goto (.distributeLast 0)) := by
      simp only [step, masterStep, hpc, distributeToWorker, hin]
    exact deserted_last hq hcnt (hrun.tail trivial hst) rfl hall
  | cons t rest ih =>
    have hworkers := ((inv_of_run hq hrun).located hpc rfl).2.1
    have hlen : s.workers.length = job.workersCnt := by rw [hworkers]; exact List.length_range
    have hnow := nextWorker_lt s.lastWorker hcnt
    have hget : s.workers[nextWorker s.lastWorker job.workersCnt]? =
        some (nextWorker s.lastWorker job.workersCnt) := by
      rw [hworkers]
      exact List.getElem?_range hnow
    by_cases hroom : (s.slots (nextWorker s.lastWorker job.workersCnt)).bufferQueue.cells.length <
        (s.slots (nextWorker s.lastWorker job.workersCnt)).bufferQueue.initSize
    swap
    · exact ⟨s, _, hrun, hnow, hall _ hnow,
        .tuple hpc (by simp [hin]) (by rw [hlen]; exact hget) (not_lt.mp hroom)⟩
    obtain ⟨w, hadd, -, hw⟩ := addTo_of_room hworkers hnow (.tuple t) hroom
    have hst : step job s .master =
        some { s.set (nextWorker s.lastWorker job.workersCnt) w with
          input := rest, lastWorker := nextWorker s.lastWorker job.workersCnt } := by
      simp only [step, masterStep, hpc, distributeToWorker, hin, hlen, hadd, Option.map_some]
    exact ih (hrun.tail trivial hst) hpc
      (canceled_set (hw.trans (hall _ hnow)) fun i hi _ => hall i hi) rfl

end

/--
Every parallel sort with at least one worker can get to a state in which a worker has failed
and the master waits for it, at a barrier that has not counted it or on its queue.  And in
every such state that is reachable, errors included: as long as nobody interrupts the master
from outside, nothing that any process does takes it out of that wait, and the failure stays
where it is.
-/
theorem failed_worker_goes_unnoticed {job : Job α} (hsort : job.isSort = true)
    (hcnt : 0 < job.workersCnt) (hq : 0 < job.queueSize) {freeSems : Nat}
    (hsem : 3 * job.workersCnt ≤ freeSems) :
    (∃ s f, Run.Steps (step job) (fun _ _ => True) (init job freeSems) s ∧ f < job.workersCnt ∧
      (s.slots f).state = .canceled ∧ WaitsFor f s) ∧
    ∀ s f, Run.Steps (step job) (fun _ _ => True) (init job freeSems) s → f < job.workersCnt →
      (s.slots f).state = .canceled → WaitsFor f s →
      ∀ t, Run.Steps (step job) (fun _ e => e ≠ .abort) s t →
        (t.slots f).state = .canceled ∧ SameWait s.pc t.pc := by
  refine ⟨?_, fun s f h hf hst hw t hrun => hw.run hq (Inv.run hq (by simp) h) hf hst hrun⟩
  obtain ⟨s, hrun, hpc⟩ := setUp_reached hq hsem
  obtain ⟨t, hrun, hpc, hall⟩ := all_fail hq (hrun.mono fun _ _ _ => trivial) hpc (by simp)
  have hst : step job t .master = some (t.goto .distribute) := by
    simp [step, masterStep, hpc, stateTransition, HandOver.next, hsort]
  exact deserted_deal hq hcnt (hrun.tail trivial hst) rfl hall

/-! ### A run -/

/-- One worker, with two numbers to sort, fails while it sorts them.  The master has sent
it everything and waits for it to finish. -/
def deserted : State Nat :=
  Run.follow (step (sortNats [2, 1] 1 1)) (init (sortNats [2, 1] 1 1) 3)
    (inTurn 1 12 ++ [.fail 0 false, .worker 0, .master, .master])

theorem deserted_run :
    Steps (step (sortNats [2, 1] 1 1)) (fun _ _ => True) (init (sortNats [2, 1] 1 1) 3)
      deserted := steps_of_follow _ fun _ _ _ => trivial

theorem deserted_waits_for_ever :
    Run.Steps (step (sortNats [2, 1] 1 1)) (fun _ _ => True) (init (sortNats [2, 1] 1 1) 3)
        deserted ∧
      (deserted.slots 0).state = .canceled ∧ deserted.pc = .wait .finished 1 0 ∧
      ∀ t, Run.Steps (step (sortNats [2, 1] 1 1)) (fun _ e => e ≠ .abort) deserted t →
        ∃ k readyCnt, t.pc = .wait .finished k readyCnt := by
  have hst : (deserted.slots 0).state = .canceled := by decide +kernel
  have hpc : deserted.pc = .wait .finished 1 0 := by decide +kernel
  refine ⟨deserted_run, hst, hpc, fun t ht => ?_⟩
  have hinv : Inv true (sortNats [2, 1] 1 1) deserted := Inv.run (by decide) (by simp) deserted_run
  obtain ⟨-, hsame⟩ := (WaitsFor.barrier (f := 0) _ _ _ hpc (.inr one_pos)).run (by decide) hinv
    (by decide) hst ht
  rcases hsame with hsame | ⟨b, k, c, k', c', hb, hsame⟩
  · exact ⟨1, 0, hsame.trans hpc⟩
  rw [hpc, MasterPc.wait.injEq] at hb
  obtain ⟨rfl, -, -⟩ := hb
  exact ⟨k', c', hsame⟩

theorem failed_worker_goes_unnoticed_deserted :
    ((Run.follow (step (sortNats [2, 1] 1 1)) deserted (inTurn 1 9)).slots 0).state = .canceled ∧
      SameWait deserted.pc (Run.follow (step (sortNats [2, 1] 1 1)) deserted (inTurn 1 9)).pc := by
  refine (failed_worker_goes_unnoticed rfl (by decide) (by decide) (by decide)).2 deserted 0
    deserted_run (by decide) (by decide +kernel)
    (.barrier .finished 1 0 (by decide +kernel) (.inr one_pos)) _
    (steps_of_follow _ fun u e he => ?_)
  have := drain_inTurn 1 9 u e he
  rintro rfl
  simp [Drain, Event.drains] at this

end PrlPg
