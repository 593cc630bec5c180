/-
Ending a node early does not get stuck.

When the node is ended before it is drained, workers may be anywhere in their send
loops, some of them asleep on the semaphore of a full queue.  The stop loop sets the
stop flag of every queue and, when the flag was not set before, takes one cell out.
That is enough.  A worker the loop has passed has sent its last cell, or it finds room
for one more, sees the flag after that and leaves its loop.
-/
import PrlPg.Proofs.Progress

namespace PrlPg

open Run MasterPc

variable {α : Type*} {job : Job α} {s s' : State α}

/-- The node is being ended, and the master has not got past `waitForWorkers(END)`. -/
def MasterPc.stops : MasterPc α → Bool
  | .stopScan _ | .stopGet _ | .wait .ended _ _ => true
  | _ => false

/-- The stop loop has dealt with worker `i`. -/
def MasterPc.passed (i : Nat) : MasterPc α → Bool
  | .stopScan k | .stopGet k => decide (i < k)
  | .wait .ended _ _ => true
  | _ => false

theorem MasterPc.normal_of_passed {pc : MasterPc α} {i : Nat} (h : pc.passed i = true) :
    pc.normal = true ∧ pc.holds i = false := by
  cases pc with
  | stopScan k => exact ⟨rfl, rfl⟩
  | stopGet k =>
    have hlt : i < k := by simpa [passed] using h
    refine ⟨rfl, ?_⟩
    simp only [holds, beq_eq_false_iff_ne]
    omega
  | wait b k c => exact ⟨rfl, rfl⟩
  | _ => simp [passed] at h

section

variable {i : Nat} (h : Inv false job s) (hi : i < job.workersCnt) (hpassed : s.pc.passed i = true)
include h hi hpassed

theorem Inv.inStage_stopping : InStage job .stopping (s.slots i) := by
  have hin := h.inStage (normal_of_passed hpassed).1 hi
  cases hpc : s.pc with
  | stopScan k | stopGet k =>
    have hlt : i < k := by simpa [hpc, passed] using hpassed
    rw [hpc] at hin
    simpa only [stage, if_pos hlt] using hin
  | wait b k c =>
    have hb : b = .ended := by cases b <;> simp [hpc, passed] at hpassed; rfl
    subst hb
    exact h.wait_inStage hpc hi
  | _ => simp [hpc, passed] at hpassed

/-- A worker the stop loop has dealt with is never asleep on a full queue. -/
theorem Inv.stopping_enabled (hne : (s.slots i).state ≠ .ended) :
    Enabled (step job) s (.worker i) := by
  have hin := h.inStage_stopping hi hpassed
  have hheld := (normal_of_passed hpassed).2
  have hmove : (s.slots i).CanMove (job.localSort i) job.rows :=
    hin.canMove_stopping.resolve_right hne
  rcases hmove with hm | hm
  · obtain ⟨w, hw⟩ := Option.isSome_iff_exists.mp hm
    refine ⟨s.set i w, ?_⟩
    simp only [step, h.holds (normal_of_passed hpassed).1, hheld, hw, Option.map_some]
  · have hnew : (s.slots i).new = false := by simpa using hin.new
    simp [forkSlave, hnew] at hm

end

/-- The stop loop itself never waits. -/
theorem stopScan_enabled (hpc : (∃ k, s.pc = .stopScan k) ∨ ∃ k, s.pc = .stopGet k) :
    Enabled (step job) s .master := by
  rcases hpc with ⟨k, hpc⟩ | ⟨k, hpc⟩
  · simp only [Enabled, step, masterStep, hpc, stopStep]
    split
    · split <;> exact ⟨_, rfl⟩
    · exact ⟨_, rfl⟩
  · simp only [Enabled, step, masterStep, hpc, stopGetStep]
    exact ⟨_, rfl⟩

theorem QuietInv.stops_getsOn (h : QuietInv job s) (hpc : s.pc.stops = true) : GetsOn job s := by
  cases hp : s.pc with
  | stopScan k => exact h.inv.stopScan_getsOn hp
  | stopGet k => exact h.inv.stopGet_getsOn hp
  | wait b k c => exact h.inv.wait_getsOn hp h.data
  | _ => simp [hp, stops] at hpc

/-- The master leaves this part of its program for the loop that prepares the ending
task. -/
theorem stops_leave (hpc : s.pc.stops = true) {e : Event} (he : e.drains = true)
    (hst : step job s e = some s') (hleft : ¬ s'.pc.stops = true) : s'.pc = .destroyScan 0 := by
  cases step_occurs hst with
  | master hst =>
    cases hp : s.pc with
    | stopScan k =>
      simp only [masterStep, hp, stopStep] at hst
      split at hst
      · split at hst <;> cases hst
        · simp only [State.goto] at hleft
          split at hleft <;> cases hleft rfl
        · cases hleft rfl
      · cases hst
        cases hleft rfl
    | stopGet k =>
      simp only [masterStep, hp, stopGetStep] at hst
      cases hst
      cases hleft rfl
    | wait b k c =>
      have hb : b = .ended := by cases b <;> simp [hp, stops] at hpc; rfl
      subst hb
      simp only [masterStep, hp, waitForWorkers] at hst
      split at hst
      · cases hst
        cases hleft rfl
      split at hst <;> cases hst
      · rfl
      · cases hleft rfl
    | _ => simp [hp, stops] at hpc
  | fetch hidle => simp [hidle, stops] at hpc
  | worker | fork => exact absurd hpc hleft
  | _ => simp [Event.drains] at he

/-- From anywhere in this part everybody can get to `END`. -/
theorem QuietInv.all_ended (h : QuietInv job s) (hq : 0 < job.queueSize) (hpc : s.pc.stops = true) :
    ∃ t, Steps (step job) Drain s t ∧ ∀ j < job.workersCnt, (t.slots j).state = .ended := by
  obtain ⟨t, hrun, ht⟩ := Steps.reach_of_measure (P := Drain) (measure job)
    (I := QuietInv job) (G := fun u => ¬ u.pc.stops = true)
    (fun u e v hu he hst => hu.event hq he.quiet hst)
    (fun u hu hG => hu.stops_getsOn (not_not.mp hG)) s h
  obtain ⟨u, e, v, hrun', hu, he, hst, hv⟩ := hrun.leaves (A := fun u => u.pc.stops = true) hpc ht
  have hrun'' := (hrun'.mono fun _ _ h => h.1).tail he hst
  have hvpc := stops_leave hu he hst hv
  have hvinv : QuietInv job v := hrun''.invariant h fun _ _ _ hx hy hz => hx.event hq hy.quiet hz
  refine ⟨v, hrun'', fun j hj => ?_⟩
  have hin := hvinv.inv.inStage (by rw [hvpc]; rfl) hj
  rw [hvpc] at hin
  exact hin.ctl.of_endSeen.2.1

/--
Take any run without errors, with any number of workers and any queue size, in which the
node is ended after any number of tuples, drained or not, and let the master be anywhere
between the start of the stop loop and the end of `waitForWorkers(END)`.  Then a worker
that has not ended and that the loop has dealt with has a step; in the loop the master
has one; and the run can be continued until every worker has ended.
-/
theorem early_shutdown_never_stuck {job : Job α} (hq : 0 < job.queueSize) {freeSems : Nat}
    {s : State α} (h : Run.Steps (step job) Quiet (init job freeSems) s)
    (hpc : s.pc.stops = true) {i : Nat} (hi : i < job.workersCnt)
    (hne : (s.slots i).state ≠ .ended) :
    (s.pc.passed i = true → Run.Enabled (step job) s (.worker i)) ∧
      ((∃ k, s.pc = .stopScan k) ∨ (∃ k, s.pc = .stopGet k) → Run.Enabled (step job) s .master) ∧
      (Run.Enabled (step job) s (.worker i) ∨ Run.Enabled (step job) s .master) ∧
      ∃ t, Run.Steps (step job) Quiet s t ∧ ∀ j < job.workersCnt, (t.slots j).state = .ended := by
  have hs := QuietInv.run hq h
  have hworker : s.pc.passed i = true → Enabled (step job) s (.worker i) :=
    fun hpassed => hs.inv.stopping_enabled hi hpassed hne
  refine ⟨hworker, stopScan_enabled, ?_, ?_⟩
  swap
  · obtain ⟨t, hrun, ht⟩ := hs.all_ended hq hpc
    exact ⟨t, hrun.mono fun _ _ he => he.quiet, ht⟩
  cases hp : s.pc with
  | stopScan k => exact .inr (stopScan_enabled (.inl ⟨k, hp⟩))
  | stopGet k => exact .inr (stopScan_enabled (.inr ⟨k, hp⟩))
  | wait b k c =>
    refine .inl (hworker ?_)
    cases b <;> simp_all [stops, passed]
  | _ => simp [hp, stops] at hpc

/-! ### A run -/

/-- One worker sorts three numbers.  The node is ended while the worker, with its end
marker to send, sleeps on its full queue, and the master has set the stop flag. -/
def asleep : State Nat :=
  Run.follow (step (sortNats [2, 1, 3] 1 1)) (init (sortNats [2, 1, 3] 1 1) 3)
    (inTurn 1 40 ++ [.endNode, .master])

theorem early_shutdown_never_stuck_asleep :
    asleep.pc = .stopGet 0 ∧ (asleep.slots 0).pc = .send [] ∧
      (asleep.slots 0).bufferQueue.cells = [.tuple 3] ∧
      Run.Enabled (step (sortNats [2, 1, 3] 1 1)) asleep .master ∧
      ∃ t, Run.Steps (step (sortNats [2, 1, 3] 1 1)) Quiet asleep t ∧
        ∀ j < 1, (t.slots j).state = .ended := by
  have hrun : Steps (step (sortNats [2, 1, 3] 1 1)) Quiet (init (sortNats [2, 1, 3] 1 1) 3)
      asleep := by
    refine steps_of_follow _ fun u e he => ?_
    rcases List.mem_append.mp he with he | he
    · exact quiet_inTurn 1 40 u e he
    · simp only [List.mem_cons, List.not_mem_nil, or_false] at he
      rcases he with rfl | rfl <;> rfl
  have hpc : asleep.pc = .stopGet 0 := by decide +kernel
  have hstuck := early_shutdown_never_stuck (by decide) hrun (by rw [hpc]; rfl) (i := 0) (by decide)
    (by decide +kernel)
  exact ⟨hpc, by decide +kernel, by decide +kernel, hstuck.2.1 (.inr ⟨0, hpc⟩), hstuck.2.2.2⟩

end PrlPg
