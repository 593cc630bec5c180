/-
The master and its workers go through the job in step.

`stage` reads off the master's point the stage every worker is in, and `Inv` says that
every worker is there, in every state any run of the system reaches, errors included.
A worker keeps to its stage by `Proofs/Stages.lean`, so what is left is the master: each
of its steps touches the record of at most one worker and takes that worker from its
stage to the next, while the stages of the others do not change.

The barriers are the delicate part.  `waitForWorkers` counts in a pass that other
processes move in, and the count alone says nothing.  What does is a pass that has
found every worker so far: none of those can leave the awaited state, so when the pass
ends with the right count all of them are there at once.
-/
import PrlPg.Proofs.Handshake

namespace PrlPg

open Function Option List Slot MasterPc
open Nat (lt_succ_self zero_le)

variable {α : Type*}

/-! ### The stages of a point -/

/-- The stage of worker `i` when the master is at a point. -/
def stage (job : Job α) (pc : MasterPc α) (i : Nat) : Stage :=
  match pc with
  | .create j => if i < j then .startup else .unused
  | .wait b k readyCnt => if i < k ∧ readyCnt = k then b.after else b.before
  | .register _ => .initialSeen
  | .transition .start k => if i < k then job.workStage else .initialSeen
  | .transition .ack k => if i < k then .sending else .finishedSeen
  | .distribute | .distributeLast _ => .running
  | .prepare _ | .getTuple | .fetch _ | .idle | .poll _ | .waitState _ => .sending
  | .assign j => if i = j then .endSeen else .sending
  | .stopScan k => if i < k then .stopping else .sending
  | .stopGet k => if i < k then .stopping else if i = k then .stopHeld else .sending
  | .destroyScan k => if i < k then .ending else .endSeen
  | .releaseScan k => if i < k then .released else .deadSeen
  | .closed => .released
  | .cancel _ | .waitAll .. | .cleanup _ | .recovered | .fatal => .unused

/-- The points of the node's own program; the others are the recovery from an error. -/
def MasterPc.normal : MasterPc α → Bool
  | .cancel _ | .waitAll .. | .cleanup _ | .recovered | .fatal => false
  | _ => true

/-- Loops over `n` workers stay within them, and a pass counts no more than it has seen. -/
def MasterPc.Bounded (n : Nat) : MasterPc α → Prop
  | .wait _ k readyCnt => readyCnt ≤ k ∧ k ≤ n
  | .create k | .register k | .transition _ k | .distributeLast k | .prepare k | .stopScan k | .destroyScan k
  | .releaseScan k | .cancel k | .waitAll k _ | .cleanup k => k ≤ n
  | .stopGet k | .waitState k | .assign k => k < n
  | _ => True

/-- Some points belong to a Sort, some to an Append. -/
def MasterPc.Fits (job : Job α) : MasterPc α → Prop
  | .wait .finished _ _ | .transition .ack _ | .distribute | .distributeLast _ | .prepare _
  | .getTuple | .fetch _ => job.isSort = true
  | .poll _ | .waitState _ | .assign _ => job.isSort = false
  | _ => True

/-- How many workers are in the master's array. -/
def registered (n : Nat) : MasterPc α → Nat
  | .create _ | .wait .initial _ _ => 0
  | .register k => k
  | _ => n

/-- What holds in every reachable state; `err` says whether the run has errors. -/
structure Inv (err : Bool) (job : Job α) (s : State α) : Prop where
  stages : s.pc.normal = true → ∀ i < job.workersCnt, Holds err job (stage job s.pc i) (s.slots i)
  beyond : ∀ i, job.workersCnt ≤ i → s.slots i = Slot.unused
  bounded : s.pc.Bounded job.workersCnt
  fits : s.pc.Fits job
  workers : s.pc.normal = true → s.workers = List.range (registered job.workersCnt s.pc)
  calm : s.pc.normal = true → s.toCancel = [] ∧ s.cancelPending = [] ∧ s.left = none
  path : err = false → s.pc.normal = true ∨ s.pc = .fatal

variable {err : Bool} {job : Job α} {s s' : State α}
variable {k n : Nat} {w : Slot α} {slots : Nat → Slot α}

/-- What the invariant says at a point of the node's own program. -/
theorem Inv.located (h : Inv err job s) {pc : MasterPc α} (hpc : s.pc = pc)
    (hn : pc.normal = true) :
    s.pc.normal = true ∧ s.workers = range (registered job.workersCnt pc) ∧ pc.Fits job ∧
      pc.Bounded job.workersCnt := by
  subst hpc
  exact ⟨hn, h.workers hn, h.fits, h.bounded⟩

/-- One record changes and the others stay in, or get to, their stages. -/
theorem stages_set {pc pc' : MasterPc α}
    (h : ∀ i < n, Holds err job (stage job pc i) (slots i)) (hk : Holds err job (stage job pc' k) w)
    (hoff : ∀ i < n, i ≠ k → Holds err job (stage job pc i) (slots i) →
      Holds err job (stage job pc' i) (slots i)) :
    ∀ i < n, Holds err job (stage job pc' i) (update slots k w i) := by
  intro i hi
  by_cases hik : i = k
  · subst hik
    rwa [update_self]
  · rw [update_of_ne hik]
    exact hoff i hi hik (h i hi)

theorem beyond_set (h : ∀ i, n ≤ i → slots i = unused) (hk : k < n) :
    ∀ i, n ≤ i → update slots k w i = unused := by
  intro i hi
  rw [update_of_ne (by omega)]
  exact h i hi

/-- A step of the node's own program on which nothing is cancelled. -/
abbrev Calm (s s' : State α) : Prop :=
  s'.toCancel = s.toCancel ∧ s'.cancelPending = s.cancelPending ∧ s'.left = s.left ∧
    s'.pc.normal = true

section

variable (h : Inv err job s) (hn : s.pc.normal = true) (hcalm : Calm s s')
include h hn hcalm

/-- The next state of the node's own program, when nothing was cancelled meanwhile. -/
theorem Inv.move (hstages : ∀ i < job.workersCnt, Holds err job (stage job s'.pc i) (s'.slots i))
    (hbeyond : ∀ i, job.workersCnt ≤ i → s'.slots i = unused)
    (hbounded : s'.pc.Bounded job.workersCnt) (hfits : s'.pc.Fits job)
    (hworkers : s'.workers = range (registered job.workersCnt s'.pc)) : Inv err job s' := by
  refine ⟨fun _ => hstages, hbeyond, hbounded, hfits, fun _ => hworkers, fun _ => ?_,
    fun _ => .inl hcalm.2.2.2⟩
  rw [hcalm.1, hcalm.2.1, hcalm.2.2.1]
  exact h.calm hn

/-- The same when no record is touched and no worker changes its stage. -/
theorem Inv.goto (hslots : s'.slots = s.slots)
    (hstage : ∀ i < job.workersCnt, stage job s'.pc i = stage job s.pc i)
    (hbounded : s'.pc.Bounded job.workersCnt) (hfits : s'.pc.Fits job)
    (hworkers : s'.workers = range (registered job.workersCnt s'.pc)) : Inv err job s' := by
  refine h.move hn hcalm (fun i hi => ?_) (fun i hi => ?_) hbounded hfits hworkers
  · rw [hstage i hi, hslots]; exact h.stages hn i hi
  · rw [hslots]; exact h.beyond i hi

/-- The same when one record is touched. -/
theorem Inv.set (hk : k < job.workersCnt) (hslots : s'.slots = update s.slots k w)
    (hw : Holds err job (stage job s'.pc k) w)
    (hoff : ∀ i < job.workersCnt, i ≠ k → stage job s'.pc i = stage job s.pc i)
    (hbounded : s'.pc.Bounded job.workersCnt) (hfits : s'.pc.Fits job)
    (hworkers : s'.workers = range (registered job.workersCnt s'.pc)) : Inv err job s' := by
  refine h.move hn hcalm ?_ ?_ hbounded hfits hworkers
  · rw [hslots]
    exact stages_set (h.stages hn) hw fun i hi hik hold => by rwa [hoff i hi hik]
  · rw [hslots]
    exact beyond_set h.beyond hk

end

/-- Outside the node's own program only the bounds are left to show. -/
theorem Inv.leave (h : Inv err job s) (hslots : s'.slots = s.slots) (hn : s'.pc.normal = false)
    (hpath : err = false → s'.pc = .fatal) (hbounded : s'.pc.Bounded job.workersCnt)
    (hfits : s'.pc.Fits job) : Inv err job s' := by
  refine ⟨fun hn' => ?_, by rw [hslots]; exact h.beyond, hbounded, hfits, fun hn' => ?_,
    fun hn' => ?_, fun he => .inr (hpath he)⟩
  all_goals simp [hn] at hn'

/-- The same when one record is touched on the way. -/
theorem Inv.recover (h : Inv err job s) (hslots : ∃ k < job.workersCnt, ∃ w,
      s'.slots = update s.slots k w) (hn : s'.pc.normal = false) (he : err = true)
    (hbounded : s'.pc.Bounded job.workersCnt) (hfits : s'.pc.Fits job) : Inv err job s' := by
  obtain ⟨k, hk, w, hslots⟩ := hslots
  refine ⟨fun hn' => ?_, by rw [hslots]; exact beyond_set h.beyond hk, hbounded, hfits,
    fun hn' => ?_, fun hn' => ?_, fun he' => by simp [he] at he'⟩
  all_goals simp [hn] at hn'

/-- In the node's own program no spinlock was left held. -/
theorem Inv.holds (h : Inv err job s) (hn : s.pc.normal = true) (i : Nat) :
    s.holds i = s.pc.holds i := by
  simp [State.holds, (h.calm hn).2.2]

theorem Inv.inStageOf (h : Inv err job s) (hn : s.pc.normal = true) {g : Stage}
    (hk : k < job.workersCnt) (hg : stage job s.pc k = g) (hsafe : g.mayFail = false) :
    InStage job g (s.slots k) := by
  obtain hin | ⟨-, hbad, -⟩ := h.stages hn k hk
  · rwa [hg] at hin
  · rw [hg, hsafe] at hbad
    cases hbad

/-! ### Setting up -/

variable {i : Nat}

theorem Inv.create (h : Inv err job s) (hpc : s.pc = .create i)
    (hst : createStep job s i = some s') : Inv err job s' := by
  obtain ⟨hn, hworkers, -, (hle : i ≤ job.workersCnt)⟩ := h.located hpc rfl
  have hnew : ∀ subnode, Holds err job (stage job (.create (i + 1)) i)
      (Slot.create job.workType subnode job.queueSize) := by
    intro subnode
    rw [show stage job (.create (i + 1)) i = .startup by simp [stage]]
    exact (inStage_create job subnode).holds
  have hoff : ∀ j < job.workersCnt, j ≠ i → stage job (.create (i + 1)) j = stage job s.pc j := by
    intro j _ hj
    rw [hpc]
    simp only [stage]
    congr 1
    exact propext (by omega)
  simp only [createStep] at hst
  split_ifs at hst with hi hsem hsort
  all_goals
    cases hst
  · have hw := hnew none
    rw [show job.workType = .sort by simp [Job.workType, hsort]] at hw
    exact h.set hn ⟨rfl, rfl, rfl, rfl⟩ hi rfl hw hoff hi trivial hworkers
  · have hw := hnew (walkPlans i (range job.subplans.length) s.planCounter).1
    rw [show job.workType = .query by simp [Job.workType, hsort]] at hw
    exact h.set hn ⟨rfl, rfl, rfl, rfl⟩ hi rfl hw hoff hi trivial hworkers
  · exact h.leave rfl rfl (fun _ => rfl) trivial trivial
  refine h.goto hn ⟨rfl, rfl, rfl, rfl⟩ rfl (fun j hj => ?_) ⟨le_rfl, zero_le _⟩ trivial hworkers
  simp [hpc, State.goto, stage, Barrier.before]
  omega

theorem Inv.register (h : Inv err job s) (hpc : s.pc = .register k)
    (hst : registerWorkers job s k = some s') : Inv err job s' := by
  obtain ⟨hn, hworkers, -, (hle : k ≤ job.workersCnt)⟩ := h.located hpc rfl
  simp only [registerWorkers] at hst
  split at hst
  next hk =>
    cases hst
    have hin := h.inStageOf hn hk (g := .initialSeen) (by rw [hpc]; rfl) rfl
    have hst := hin.ctl.of_initialSeen.2.1
    have hc := hin.counts rfl (by simp [hst])
    refine h.set hn ⟨rfl, rfl, rfl, rfl⟩ hk rfl (hin.look .master).holds (fun i _ _ => by rw [hpc]; rfl) hk
      trivial ?_
    simp only [hc, hst, hworkers, registered, decide_true, Bool.and_self, if_true]
    exact range_succ.symm
  next hk =>
    cases hst
    have hkn : k = job.workersCnt := by omega
    refine h.goto hn ⟨rfl, rfl, rfl, rfl⟩ rfl (fun i _ => by rw [hpc]; simp [stage]) (zero_le _) trivial ?_
    rw [hworkers, hkn]
    rfl

/-! ### The barriers -/

variable {b : Barrier} {cell : BufferQueueCell α} {e : Event} {readyCnt : Nat} {freeSems : Nat}
  {k' c c' : Nat}

theorem Holds.unseen (h : Holds err job b.after w) : Holds err job b.before w := by
  rcases h with h | ⟨he, hbad, hbr⟩
  · exact h.unseen.holds
  · refine .inr ⟨he, ?_, hbr⟩
    cases b with
    | finished => rfl
    | _ => cases hbad

/-- What waiting at a barrier knows of a worker, whatever the pass has counted. -/
theorem stage_wait_before (h : Holds err job (stage job (.wait b k readyCnt) i) w) :
    Holds err job b.before w := by
  simp only [stage] at h
  split at h
  · exact h.unseen
  · exact h

theorem fits_wait (h : (wait b k c).Fits job) : (wait b k' c').Fits job := by
  cases b <;> exact h

theorem registered_wait :
    registered n (.wait b k c : MasterPc α) = registered n (.wait b k' c' : MasterPc α) := by
  cases b <;> rfl

theorem Inv.wait (h : Inv err job s) (hpc : s.pc = .wait b k readyCnt)
    (hst : waitForWorkers job s b k readyCnt = some s') : Inv err job s' := by
  obtain ⟨hn, hworkers, hfits, hcnt, hle⟩ := h.located hpc rfl
  have hstages := h.stages hn
  rw [hpc] at hstages
  simp only [waitForWorkers] at hst
  by_cases hk : k < job.workersCnt
  · -- one worker of the pass
    rw [if_pos hk] at hst
    cases hst
    have hbefore := stage_wait_before (hstages k hk)
    refine h.move hn ⟨rfl, rfl, rfl, rfl⟩ ?_ (beyond_set h.beyond hk) ⟨?_, hk⟩ (fits_wait hfits)
      (hworkers.trans (congrArg range registered_wait))
    swap
    · split <;> omega
    refine stages_set hstages ?_ ?_
    · simp only [State.goto, stage]
      by_cases hfull : (if (s.slots k).counts && (s.slots k).state = b.state then readyCnt + 1
          else readyCnt) = k + 1
      · rw [if_pos ⟨lt_succ_self k, hfull⟩]
        split_ifs at hfull with hhit
        · simp only [Bool.and_eq_true, decide_eq_true_eq] at hhit
          exact hbefore.found hhit.2
        · omega
      · rw [if_neg (fun hc => hfull hc.2)]
        exact hbefore.look .master
    intro i hi hik hold
    simp only [State.goto, stage]
    by_cases hfull : (if (s.slots k).counts && (s.slots k).state = b.state then readyCnt + 1
        else readyCnt) = k + 1
    swap
    · rw [if_neg (fun hc => hfull hc.2)]
      exact stage_wait_before hold
    -- the pass has found everybody so far, this worker included
    have hc : readyCnt = k := by split_ifs at hfull <;> omega
    simp only [stage] at hold
    rw [hfull]
    by_cases hik' : i < k
    · rw [if_pos ⟨hik', hc⟩] at hold
      rwa [if_pos ⟨by omega, rfl⟩]
    · rw [if_neg (fun hx => hik' hx.1)] at hold
      rwa [if_neg (fun hx => by omega)]
  rw [if_neg hk] at hst
  by_cases hdone : readyCnt = job.workersCnt
  · -- the pass has found everybody
    rw [if_pos hdone] at hst
    cases hst
    have hafter : ∀ i < job.workersCnt, Holds err job b.after (s.slots i) := by
      intro i hi
      have := hstages i hi
      simp only [stage] at this
      rwa [if_pos ⟨by omega, by omega⟩] at this
    cases b with
    | initial => exact h.move hn ⟨rfl, rfl, rfl, rfl⟩ hafter h.beyond (zero_le _) trivial hworkers
    | _ =>
      refine h.move hn ⟨rfl, rfl, rfl, rfl⟩ (fun i hi => ?_) h.beyond (zero_le _) hfits hworkers
      simpa [State.goto, Barrier.next, Barrier.after, stage] using hafter i hi
  -- another pass
  rw [if_neg hdone] at hst
  cases hst
  refine h.move hn ⟨rfl, rfl, rfl, rfl⟩ (fun i hi => ?_) h.beyond ⟨le_rfl, zero_le _⟩
    (fits_wait hfits) (hworkers.trans (congrArg range registered_wait))
  exact stage_wait_before (hstages i hi)

theorem Inv.transition (h : Inv err job s) {ho : HandOver} (hpc : s.pc = .transition ho k)
    (hst : stateTransition job s ho k = some s') : Inv err job s' := by
  obtain ⟨hn, hworkers, hfits, (hle : k ≤ job.workersCnt)⟩ := h.located hpc rfl
  simp only [stateTransition] at hst
  split at hst
  next hk =>
    cases hst
    have hoff : ∀ i < job.workersCnt, i ≠ k →
        stage job (.transition ho (k + 1)) i = stage job s.pc i := by
      intro i _ hik
      have hiff : i < k + 1 ↔ i < k := by omega
      rw [hpc]
      cases ho <;> simp only [stage, hiff]
    cases ho with
    | start =>
      have hin := (h.inStageOf hn hk (g := .initialSeen) (by simp [hpc, stage]) rfl).look .master
      have hst := hin.ctl.of_initialSeen.2.1
      have hc := hin.counts rfl (by simp [hst])
      refine h.set hn ⟨rfl, rfl, rfl, rfl⟩ hk rfl ?_ hoff hk trivial hworkers
      simp only [HandOver.old, HandOver.new, hc, hst, decide_true, Bool.and_self, if_true,
        State.goto, stage, lt_succ_self]
      exact hin.start.holds
    | ack =>
      have hw := (h.stages hn k hk).look .master
      rw [hpc] at hw
      simp only [stage, lt_irrefl, if_false] at hw
      refine h.set hn ⟨rfl, rfl, rfl, rfl⟩ hk rfl ?_ hoff hk hfits hworkers
      simp only [State.goto, stage, lt_succ_self, if_true]
      exact hw.ack
  next hk =>
    cases hst
    have hkn : k = job.workersCnt := by omega
    cases ho with
    | start =>
      have hstage : ∀ i < job.workersCnt, job.workStage = stage job s.pc i := by
        intro i hi
        rw [hpc]
        simp [stage, hkn, hi]
      cases hs : job.isSort
      all_goals
        simp only [Job.workStage, HandOver.next, hs, Bool.false_eq_true, if_true, if_false]
          at hstage ⊢
        exact h.goto hn ⟨rfl, rfl, rfl, rfl⟩ rfl hstage trivial hs hworkers
    | ack =>
      refine h.goto hn ⟨rfl, rfl, rfl, rfl⟩ rfl (fun i hi => ?_) (zero_le _) hfits hworkers
      rw [hpc]
      simp [State.goto, HandOver.next, stage, hkn, hi]

/-! ### Queues and plans -/

theorem addTo_eq_some (h : addTo s i cell = some s') :
    ∃ k w r, s.workers[i]? = some k ∧ (s.slots k).bufferQueueAdd cell false = some (w, r) ∧
      s' = s.set k w := by
  simp only [addTo] at h
  split at h
  · cases h
  rename_i k hk
  obtain ⟨⟨w, r⟩, hadd, rfl⟩ := map_eq_some_iff.mp h
  exact ⟨k, w, r, hk, hadd, rfl⟩

theorem getFrom_eq_some (h : getFrom s i = some (cell, s')) :
    ∃ k w, s.workers[i]? = some k ∧ (s.slots k).bufferQueueGet = some (cell, w) ∧
      s' = s.set k w := by
  simp only [getFrom] at h
  split at h
  · cases h
  rename_i k hk
  obtain ⟨⟨c, w⟩, hget, heq⟩ := map_eq_some_iff.mp h
  obtain ⟨rfl, rfl⟩ := heq
  exact ⟨k, w, hk, hget, rfl⟩

theorem workers_getElem? {l : List Nat} (hl : l = List.range n) (h : l[i]? = some k) :
    k = i ∧ i < n := by
  subst hl
  obtain ⟨hi, rfl⟩ := List.getElem?_eq_some_iff.mp h
  simp only [List.length_range] at hi
  exact ⟨by simp, hi⟩

section

variable (h : Inv err job s)
include h

/-- The points between the first transition and the end, at which every worker is in the
same stage. -/
theorem Inv.queue (hn : s.pc.normal = true) {g : Stage} (hg : ∀ i, stage job s.pc i = g)
    (hk : k < job.workersCnt) (hw : Holds err job g (s.slots k) → Holds err job g w)
    (hslots : s'.slots = update s.slots k w)
    (hcalm : Calm s s')
    (hg' : ∀ i, stage job s'.pc i = g) (hbounded : s'.pc.Bounded job.workersCnt)
    (hfits : s'.pc.Fits job)
    (hworkers : s'.workers = range (registered job.workersCnt s'.pc)) : Inv err job s' := by
  refine h.set hn hcalm hk hslots ?_ (fun i _ _ => by rw [hg, hg']) hbounded hfits hworkers
  rw [hg']
  apply hw
  rw [← hg k]
  exact h.stages hn k hk

theorem Inv.distribute (hpc : s.pc = .distribute) (hst : distributeToWorker s = some s') :
    Inv err job s' := by
  obtain ⟨hn, hworkers, hfits, -⟩ := h.located hpc rfl
  simp only [distributeToWorker] at hst
  split at hst
  · cases hst
    exact h.goto hn ⟨rfl, rfl, rfl, rfl⟩ rfl (fun i _ => by rw [hpc]; rfl) (zero_le _) hfits hworkers
  obtain ⟨s₁, hs₁, rfl⟩ := map_eq_some_iff.mp hst
  obtain ⟨k, w, r, hk, hadd, rfl⟩ := addTo_eq_some hs₁
  obtain ⟨rfl, hlt⟩ := workers_getElem? hworkers hk
  have hpc' : (s.set (nextWorker s.lastWorker s.workers.length) w).pc = .distribute := hpc
  exact h.queue hn (g := .running) (fun _ => by rw [hpc]; rfl) hlt (fun hw => hw.add hadd) rfl
    ⟨rfl, rfl, rfl, by simp only [hpc']; rfl⟩ (fun _ => by simp only [hpc']; rfl)
    (by simp only [hpc']; trivial) (by simp only [hpc']; exact hfits) (by simp only [hpc']; exact hworkers)

theorem Inv.distributeLast (hpc : s.pc = .distributeLast i) (hst : distributeLast s i = some s') :
    Inv err job s' := by
  obtain ⟨hn, hworkers, hfits, -⟩ := h.located hpc rfl
  simp only [PrlPg.distributeLast] at hst
  split at hst
  · obtain ⟨s₁, hs₁, rfl⟩ := map_eq_some_iff.mp hst
    obtain ⟨k, w, r, hk, hadd, rfl⟩ := addTo_eq_some hs₁
    obtain ⟨rfl, hlt⟩ := workers_getElem? hworkers hk
    exact h.queue hn (g := .running) (fun _ => by rw [hpc]; rfl) hlt (fun hw => hw.add hadd) rfl
      ⟨rfl, rfl, rfl, rfl⟩ (fun _ => rfl) hlt hfits hworkers
  cases hst
  exact h.goto hn ⟨rfl, rfl, rfl, rfl⟩ rfl (fun i _ => by rw [hpc]; simp [State.goto, stage, Barrier.before])
    ⟨le_rfl, zero_le _⟩ hfits hworkers

theorem Inv.prepare {cw : Nat} (hpc : s.pc = .prepare cw)
    (hst : prepareForMerge job s cw = some s') : Inv err job s' := by
  obtain ⟨hn, hworkers, hfits, -⟩ := h.located hpc rfl
  simp only [prepareForMerge] at hst
  split at hst
  · obtain ⟨⟨cell, s₁⟩, hs₁, rfl⟩ := map_eq_some_iff.mp hst
    obtain ⟨k, w, hk, hget, rfl⟩ := getFrom_eq_some hs₁
    obtain ⟨rfl, hlt⟩ := workers_getElem? hworkers hk
    exact h.queue hn (g := .sending) (fun _ => by rw [hpc]; rfl) hlt (fun hw => hw.get hget) rfl
      ⟨rfl, rfl, rfl, rfl⟩ (fun _ => rfl) hlt hfits hworkers
  · cases hst
    exact h.goto hn ⟨rfl, rfl, rfl, rfl⟩ rfl (fun i _ => by rw [hpc]; rfl) trivial hfits hworkers

theorem Inv.getTuple (hpc : s.pc = .getTuple) (hst : gettupleslotFromWorker job s = some s') :
    Inv err job s' := by
  obtain ⟨hn, hworkers, hfits, -⟩ := h.located hpc rfl
  have hstage : ∀ i < job.workersCnt, Stage.sending = stage job s.pc i := by
    intro i _; rw [hpc]; rfl
  simp only [gettupleslotFromWorker] at hst
  split at hst
  · cases hst
    exact h.goto hn ⟨rfl, rfl, rfl, rfl⟩ rfl hstage trivial trivial hworkers
  split at hst
  · cases hst
  split at hst
  all_goals
    cases hst
  · exact h.goto hn ⟨rfl, rfl, rfl, rfl⟩ rfl hstage trivial trivial hworkers
  · exact h.goto hn ⟨rfl, rfl, rfl, rfl⟩ rfl hstage trivial hfits hworkers

theorem Inv.fetch {stup : SortTuple α} (hpc : s.pc = .fetch stup)
    (hst : fetchNext job s stup = some s') : Inv err job s' := by
  obtain ⟨hn, hworkers, -⟩ := h.located hpc rfl
  obtain ⟨⟨cell, s₁⟩, hs₁, rfl⟩ := map_eq_some_iff.mp hst
  obtain ⟨k, w, hk, hget, rfl⟩ := getFrom_eq_some hs₁
  obtain ⟨rfl, hlt⟩ := workers_getElem? hworkers hk
  exact h.queue hn (g := .sending) (fun _ => by rw [hpc]; rfl) hlt (fun hw => hw.get hget) rfl
    ⟨rfl, rfl, rfl, rfl⟩ (fun _ => rfl) trivial trivial hworkers

theorem Inv.poll {i : Int} (hpc : s.pc = .poll i) (hst : pollStep job s i = some s') :
    Inv err job s' := by
  obtain ⟨hn, hworkers, hfits, -⟩ := h.located hpc rfl
  have hstage : ∀ i < job.workersCnt, Stage.sending = stage job s.pc i := by
    intro i _; rw [hpc]; rfl
  simp only [pollStep] at hst
  split at hst
  · cases hst
    exact h.goto hn ⟨rfl, rfl, rfl, rfl⟩ rfl hstage trivial trivial hworkers
  split at hst
  · cases hst
    exact h.goto hn ⟨rfl, rfl, rfl, rfl⟩ rfl hstage trivial hfits hworkers
  split at hst
  · cases hst
  rename_i k hk
  obtain ⟨rfl, hlt⟩ := workers_getElem? hworkers hk
  have hset {s₁ : State α} (hslots : s₁.slots = update s.slots (nextWorker i s.workers.length)
        (s.slots (nextWorker i s.workers.length)).bufferQueueGetNoWait.2)
      (hcalm : Calm s s₁)
      (hstage : ∀ i, stage job s₁.pc i = .sending) (hbounded : s₁.pc.Bounded job.workersCnt)
      (hfits : s₁.pc.Fits job)
      (hworkers : s₁.workers = range (registered job.workersCnt s₁.pc)) : Inv err job s₁ :=
    h.queue hn (g := .sending) (fun _ => by rw [hpc]; rfl) hlt (fun hw => hw.getNoWait) hslots
      hcalm hstage hbounded hfits hworkers
  split at hst
  · cases hst
    exact hset rfl ⟨rfl, rfl, rfl, rfl⟩ (fun _ => rfl) trivial hfits hworkers
  · split at hst
    all_goals
      cases hst
    · exact hset rfl ⟨rfl, rfl, rfl, rfl⟩ (fun _ => rfl) hlt hfits hworkers
    · exact hset rfl ⟨rfl, rfl, rfl, rfl⟩ (fun _ => rfl) trivial hfits hworkers
  · cases hst
    exact hset rfl ⟨rfl, rfl, rfl, rfl⟩ (fun _ => rfl) trivial trivial hworkers

theorem Inv.waitState (hpc : s.pc = .waitState i) (hst : waitForEnd s i = some s') :
    Inv err job s' := by
  obtain ⟨hn, hworkers, hfits, -⟩ := h.located hpc rfl
  simp only [waitForEnd] at hst
  split at hst
  · cases hst
  rename_i k hk
  obtain ⟨rfl, hlt⟩ := workers_getElem? hworkers hk
  have hw := h.stages hn k hlt
  rw [hpc] at hw
  split at hst
  next hend =>
    cases hst
    have hin : InStage job .sending (s.slots k) := by
      rcases hw with hw | ⟨-, -, hw⟩
      · exact hw
      have hf := hw.ctl.states
      simp [hend, WorkerState.atWork] at hf
    refine h.set hn ⟨rfl, rfl, rfl, rfl⟩ hlt rfl ?_ (fun j _ hj => ?_) hlt hfits hworkers
    · rw [look_of_worker (by rw [hend]; rfl)]
      simp only [State.goto, stage, if_true]
      exact (hin.endSeen .sending hend).holds
    · rw [hpc]
      simp [State.goto, stage, hj]
  · split at hst
    next hcan =>
      cases hst
      refine h.recover ⟨k, hlt, _, rfl⟩ rfl ?_ (zero_le _) trivial
      rcases hw with hin | ⟨he, -⟩
      · have hs := hin.ctl.of_sends .sending
        rw [hcan] at hs
        cases hs.not_canceled rfl
      · exact he
    · cases hst

theorem Inv.assign (hpc : s.pc = .assign i) (hst : assignPlan job s i = some s') :
    Inv err job s' := by
  obtain ⟨hn, hworkers, hfits, -⟩ := h.located hpc rfl
  have hquery : job.workType = .query := by
    rcases job_workType job with ⟨hs, -⟩ | ⟨-, ht⟩
    · exact absurd (hs.symm.trans hfits) (by simp)
    · exact ht
  simp only [assignPlan] at hst
  split at hst
  · cases hst
  rename_i k hk
  obtain ⟨rfl, hlt⟩ := workers_getElem? hworkers hk
  cases hst
  have hin := h.inStageOf hn hlt (g := .endSeen) (by simp [hpc, stage]) rfl
  refine h.set hn ⟨rfl, rfl, rfl, rfl⟩ hlt rfl
    (hin.assign hquery _).holds (fun j _ hj => ?_) trivial hfits hworkers
  rw [hpc]
  simp [stage, hj]

/-! ### Ending the node -/

theorem Inv.stopScan (hpc : s.pc = .stopScan k) (hst : stopStep job s k = some s') :
    Inv err job s' := by
  obtain ⟨hn, hworkers, -, (hle : k ≤ job.workersCnt)⟩ := h.located hpc rfl
  simp only [stopStep] at hst
  split at hst
  next hk =>
    have hw := (h.stages hn k hk).look .master
    have hoff : ∀ i < job.workersCnt, i ≠ k →
        stage job (.stopScan (k + 1)) i = stage job s.pc i := by
      intro i _ hik
      have hiff : i < k + 1 ↔ i < k := by omega
      rw [hpc]
      simp only [stage, hiff]
    rw [hpc] at hw
    simp only [stage, lt_irrefl, if_false] at hw
    split at hst
    · have hset := hw.setStop
      rw [show (((s.slots k).look .master).bufferQueueSetStop true).2
        = ((s.slots k).look .master).bufferQueue.stop from rfl] at hst
      split at hst
      all_goals
        rename_i hstop
        simp only [hstop, Bool.false_eq_true, if_true, if_false] at hset
        cases hst
      · refine h.set hn ⟨rfl, rfl, rfl, rfl⟩ hk rfl ?_ hoff hk trivial hworkers
        simpa [State.goto, stage] using hset
      refine h.set hn ⟨rfl, rfl, rfl, rfl⟩ hk rfl ?_ (fun i _ hik => ?_) hk trivial hworkers
      · simpa [State.goto, stage] using hset
      · rw [hpc]
        simp [State.goto, stage, hik]
    rename_i hskip
    cases hst
    refine h.set hn ⟨rfl, rfl, rfl, rfl⟩ hk rfl ?_ hoff hk trivial hworkers
    simp only [State.goto, stage, lt_succ_self, if_true]
    -- not counted and not ended: the worker never came up
    rcases hw with hin | ⟨he, -, hbr⟩
    · refine hin.holds.stopping_of_ended ?_
      by_contra hne
      apply hskip
      have hup := (hin.ctl.of_sends .sending).up
      simp [hin.counts rfl hup, hne]
    · exact .inr ⟨he, rfl, hbr⟩
  next hk =>
    cases hst
    refine h.goto hn ⟨rfl, rfl, rfl, rfl⟩ rfl (fun i hi => ?_) ⟨le_rfl, zero_le _⟩ trivial hworkers
    simp [hpc, State.goto, stage, Barrier.before]
    omega

theorem Inv.stopGet (hq : 0 < job.queueSize) (hpc : s.pc = .stopGet k)
    (hst : stopGetStep s k = some s') : Inv err job s' := by
  obtain ⟨hn, hworkers, -, (hk : k < job.workersCnt)⟩ := h.located hpc rfl
  have hw := h.stages hn k hk
  rw [hpc] at hw
  simp only [stage, lt_irrefl, if_false, if_true] at hw
  cases hst
  refine h.set hn ⟨rfl, rfl, rfl, rfl⟩ hk rfl ?_ (fun i _ hik => ?_) hk trivial hworkers
  · simp only [State.goto, stage, lt_succ_self, if_true]
    exact hw.makeRoom hq
  have hiff : i < k + 1 ↔ i < k := by omega
  rw [hpc]
  simp only [State.goto, stage, hiff, hik, if_false]

theorem Inv.destroyScan (hpc : s.pc = .destroyScan k) (hst : destroyStep job s k = some s') :
    Inv err job s' := by
  obtain ⟨hn, hworkers, -, (hle : k ≤ job.workersCnt)⟩ := h.located hpc rfl
  simp only [destroyStep] at hst
  split at hst
  next hk =>
    have hin := h.inStageOf hn hk (g := .endSeen) (by simp [hpc, stage]) rfl
    have hc := hin.counts rfl (by simp [hin.ctl.of_endSeen.2.1])
    rw [if_pos hc] at hst
    cases hst
    refine h.set hn ⟨rfl, rfl, rfl, rfl⟩ hk rfl ?_ (fun i _ hik => ?_) hk trivial hworkers
    · simp only [stage, lt_succ_self, if_true]
      exact hin.destroy.holds
    have hiff : i < k + 1 ↔ i < k := by omega
    rw [hpc]
    simp only [stage, hiff]
  next hk =>
    cases hst
    refine h.goto hn ⟨rfl, rfl, rfl, rfl⟩ rfl (fun i hi => ?_) ⟨le_rfl, zero_le _⟩ trivial hworkers
    simp [hpc, State.goto, stage, Barrier.before]
    omega

theorem Inv.releaseScan (hpc : s.pc = .releaseScan k) (hst : releaseStep job s k = some s') :
    Inv err job s' := by
  obtain ⟨hn, hworkers, -, (hle : k ≤ job.workersCnt)⟩ := h.located hpc rfl
  simp only [releaseStep] at hst
  split at hst
  next hk =>
    cases hst
    have hin := h.inStageOf hn hk (g := .deadSeen) (by simp [hpc, stage]) rfl
    have hc := hin.counts rfl (by simp [hin.ctl.of_deadSeen.2.1])
    refine h.set hn ⟨rfl, rfl, rfl, rfl⟩ hk rfl ?_ (fun i _ hik => ?_) hk trivial hworkers
    · rw [if_pos hc]
      simp only [State.goto, stage, lt_succ_self, if_true]
      exact hin.release.holds
    have hiff : i < k + 1 ↔ i < k := by omega
    rw [hpc]
    simp only [State.goto, stage, hiff]
  next hk =>
    cases hst
    refine h.goto hn ⟨rfl, rfl, rfl, rfl⟩ rfl (fun i hi => ?_) trivial trivial hworkers
    rw [hpc]
    simp only [State.goto, stage]
    rw [if_pos (by omega)]

/-! ### Recovery -/

theorem Inv.recovery (hn : s.pc.normal = false) (hst : masterStep job s = some s') :
    Inv err job s' := by
  have he : s.pc ≠ .fatal → err = true := by
    intro hf
    by_contra hne
    rcases h.path (by simpa using hne) with hn' | hf'
    · simp [hn] at hn'
    · exact hf hf'
  cases hpc : s.pc with
  | cancel k =>
    have he := he (by simp [hpc])
    simp only [masterStep, hpc, cancelStep] at hst
    split at hst <;> cases hst
    · rename_i hk
      exact h.leave rfl rfl (by simp [he]) hk trivial
    · exact h.leave rfl rfl (by simp [he]) (zero_le _) trivial
  | waitAll k notEnd =>
    have he := he (by simp [hpc])
    simp only [masterStep, hpc, waitForAllWorkers] at hst
    split at hst
    · rename_i hk
      split at hst <;> cases hst
      exact h.recover ⟨k, hk, _, rfl⟩ rfl he hk trivial
    split at hst <;> cases hst
    · exact h.leave rfl rfl (by simp [he]) (zero_le _) trivial
    · exact h.leave rfl rfl (by simp [he]) (zero_le _) trivial
  | cleanup k =>
    have he := he (by simp [hpc])
    simp only [masterStep, hpc, cleanupStep] at hst
    split at hst
    · rename_i hk
      split at hst <;> cases hst
      · exact h.recover ⟨k, hk, _, rfl⟩ rfl he hk trivial
      · exact h.leave rfl rfl (by simp [he]) hk trivial
    · cases hst
      exact h.leave rfl rfl (by simp [he]) trivial trivial
  | recovered | fatal => simp [masterStep, hpc] at hst
  | _ => simp [hpc, normal] at hn

/-! ### Every event -/

theorem Inv.master (hq : 0 < job.queueSize) (hst : masterStep job s = some s') :
    Inv err job s' := by
  cases hn : s.pc.normal with
  | false => exact h.recovery hn hst
  | true =>
    rw [masterStep] at hst
    revert hst
    cases hpc : s.pc with
    | create i => exact h.create hpc
    | wait b k c => exact h.wait hpc
    | register k => exact h.register hpc
    | transition ho k => exact h.transition hpc
    | distribute => exact h.distribute hpc
    | distributeLast i => exact h.distributeLast hpc
    | prepare cw => exact h.prepare hpc
    | getTuple => exact h.getTuple hpc
    | fetch stup => exact h.fetch hpc
    | poll i => exact h.poll hpc
    | waitState i => exact h.waitState hpc
    | assign i => exact h.assign hpc
    | stopScan k => exact h.stopScan hpc
    | stopGet k => exact h.stopGet hq hpc
    | destroyScan k => exact h.destroyScan hpc
    | releaseScan k => exact h.releaseScan hpc
    | idle | closed => simp
    | _ => simp [hpc, normal] at hn

theorem Inv.slot (hw : ∀ g, Holds err job g (s.slots i) → Holds err job g w)
    (hunused : s.slots i ≠ unused) : Inv err job (s.set i w) := by
  have hi : i < job.workersCnt := by
    by_contra hge
    exact hunused (h.beyond i (by omega))
  refine ⟨fun hn => ?_, beyond_set h.beyond hi, h.bounded, h.fits, h.workers, h.calm, h.path⟩
  exact stages_set (h.stages hn) (hw _ (h.stages hn i hi)) fun _ _ _ hold => hold

end

/-- What each event does. -/
inductive Occurs (job : Job α) (s : State α) : Event → State α → Prop
  | master {s' : State α} (h : masterStep job s = some s') : Occurs job s .master s'
  | fetch (hpc : s.pc = .idle) :
    Occurs job s .fetch (s.goto (if job.isSort then .getTuple else .poll s.lastWorker))
  | endNode (hpc : s.pc = .idle) : Occurs job s .endNode (s.goto (.stopScan 0))
  | abort {s' : State α} (h : abortStep job s = some s') : Occurs job s .abort s'
  | worker {i : Nat} {w : Slot α}
    (h : slaveStep (job.localSort i) job.rows (s.holds i) (s.slots i) = some w) :
    Occurs job s (.worker i) (s.set i w)
  | fail {i : Nat} {fatal : Bool} {w : Slot α} (h : slaveFail fatal (s.slots i) = some w) :
    Occurs job s (.fail i fatal) (s.set i w)
  | interrupt {i : Nat} {w : Slot α} (hp : i ∈ s.cancelPending)
    (h : slaveInterrupt (s.slots i) = some w) : Occurs job s (.interrupt i)
      { s.set i w with cancelPending := s.cancelPending.filter (· ≠ i) }
  | fork {i : Nat} {w : Slot α} (h : forkSlave (s.slots i) = some w) :
    Occurs job s (.fork i) (s.set i w)
  | deliverCancel (hne : s.toCancel ≠ []) : Occurs job s .deliverCancel
      { s with toCancel := [], cancelPending := s.cancelPending ++ s.toCancel }

theorem step_occurs (hst : step job s e = some s') : Occurs job s e s' := by
  cases e with
  | master => exact .master hst
  | abort => exact .abort hst
  | worker i =>
    obtain ⟨w, hw, rfl⟩ := map_eq_some_iff.mp hst
    exact .worker hw
  | fail i fatal =>
    obtain ⟨w, hw, rfl⟩ := map_eq_some_iff.mp hst
    exact .fail hw
  | interrupt i =>
    simp only [step] at hst
    split_ifs at hst with hp
    obtain ⟨w, hw, rfl⟩ := map_eq_some_iff.mp hst
    exact .interrupt hp hw
  | fork i =>
    obtain ⟨w, hw, rfl⟩ := map_eq_some_iff.mp hst
    exact .fork hw
  | deliverCancel =>
    simp only [step] at hst
    split_ifs at hst with hne
    cases hst
    exact .deliverCancel hne
  | _ =>
    simp only [step] at hst
    split at hst
    · next hpc =>
      cases hst
      first | exact .fetch hpc | exact .endNode hpc
    · cases hst

/-- An event of a run without errors. -/
def Event.quiet : Event → Bool
  | .master | .fetch | .endNode | .worker _ | .fork _ => true
  | .abort | .fail .. | .interrupt _ | .deliverCancel => false

/-- An error in the master starts the recovery.  No record changes but that of a worker which was
being given its next plan. -/
theorem abortStep_eq_some (hst : abortStep job s = some s') :
    s.pc.normal = true ∧ s'.pc = .cancel 0 ∧ s'.returned = s.returned ∧
      (s'.slots = s.slots ∨ ∃ i k subnode, s.pc = .assign i ∧ s.workers[i]? = some k ∧
        s'.slots = update s.slots k { (s.slots k).put .ready with subnode := subnode }) := by
  cases hpc : s.pc with
  | assign i =>
    simp only [abortStep, hpc] at hst
    split at hst
    · cases hst
    rename_i k hk
    cases hst
    exact ⟨rfl, rfl, rfl, .inr ⟨i, k, _, rfl, hk, rfl⟩⟩
  | stopScan k | stopGet k =>
    simp only [abortStep, hpc] at hst
    split_ifs at hst
    cases hst
    exact ⟨rfl, rfl, rfl, .inl rfl⟩
  | create _ | wait _ _ _ | distribute | distributeLast _ | prepare _ | fetch _ | idle | poll _ =>
    simp only [abortStep, hpc] at hst
    split_ifs at hst
    cases hst
    exact ⟨rfl, rfl, rfl, .inl rfl⟩
  | _ => simp [abortStep, hpc, canAbort] at hst

theorem Inv.abort (h : Inv err job s) (he : err = true) (hst : abortStep job s = some s') :
    Inv err job s' := by
  obtain ⟨hn, hpc', -, hslots | ⟨i, k, subnode, hpc, hk, hslots⟩⟩ := abortStep_eq_some hst
  · exact h.leave hslots (by rw [hpc']; rfl) (by simp [he]) (by rw [hpc']; exact zero_le _)
      (by rw [hpc']; trivial)
  · obtain ⟨rfl, hlt⟩ := workers_getElem? (h.located hpc rfl).2.1 hk
    exact h.recover ⟨k, hlt, _, hslots⟩ (by rw [hpc']; rfl) he (by rw [hpc']; exact zero_le _)
      (by rw [hpc']; trivial)

theorem Inv.event (h : Inv err job s) (hq : 0 < job.queueSize)
    (he : err = false → e.quiet = true) (hst : step job s e = some s') : Inv err job s' := by
  have he : e.quiet = false → err = true := fun hq' => by
    by_contra hne
    simp [he (by simpa using hne)] at hq'
  cases step_occurs hst with
  | master hst => exact h.master hq hst
  | fetch hpc =>
    have hn : s.pc.normal = true := by rw [hpc]; rfl
    have hworkers := h.workers hn
    rw [hpc] at hworkers
    cases hs : job.isSort
    · exact h.goto hn ⟨rfl, rfl, rfl, rfl⟩ rfl (fun i _ => by rw [hpc]; rfl) trivial hs hworkers
    · exact h.goto hn ⟨rfl, rfl, rfl, rfl⟩ rfl (fun i _ => by rw [hpc]; rfl) trivial hs hworkers
  | endNode hpc =>
    have hn : s.pc.normal = true := by rw [hpc]; rfl
    have hworkers := h.workers hn
    rw [hpc] at hworkers
    exact h.goto hn ⟨rfl, rfl, rfl, rfl⟩ rfl (fun i _ => by rw [hpc]; simp [State.goto, stage])
      (zero_le _) trivial hworkers
  | abort hst => exact h.abort (he rfl) hst
  | worker hw =>
    refine h.slot (fun g hg => hg.slaveStep hw) fun hu => ?_
    simp [hu, unused, slaveStep] at hw
  | fail hw =>
    refine h.slot (fun g hg => hg.slaveFail (he rfl) hw) fun hu => ?_
    simp [hu, unused, slaveFail] at hw
  | fork hw =>
    refine h.slot (fun g hg => hg.forkSlave hw) fun hu => ?_
    simp [hu, unused, forkSlave] at hw
  | @interrupt i w hp hw =>
    have hn : s.pc.normal ≠ true := by
      intro hn
      simp [(h.calm hn).2.1] at hp
    have hi : i < job.workersCnt := by
      by_contra hge
      simp [h.beyond i (by omega), unused, slaveInterrupt] at hw
    exact ⟨fun hn' => absurd hn' hn, beyond_set h.beyond hi, h.bounded, h.fits,
      fun hn' => absurd hn' hn, fun hn' => absurd hn' hn, h.path⟩
  | deliverCancel hne =>
    have hn : s.pc.normal ≠ true := fun hn => hne (h.calm hn).1
    exact ⟨fun hn' => absurd hn' hn, h.beyond, h.bounded, h.fits,
      fun hn' => absurd hn' hn, fun hn' => absurd hn' hn, h.path⟩

theorem inv_init (err : Bool) (job : Job α) (freeSems : Nat) : Inv err job (init job freeSems) := by
  refine ⟨fun _ i hi => ?_, fun _ _ => rfl, zero_le _, trivial, fun _ => rfl,
    fun _ => ⟨rfl, rfl, rfl⟩, fun _ => .inl rfl⟩
  simpa [init, stage] using (inStage_unused job).holds

/-- Every run keeps the master and its workers in step. -/
theorem Inv.run (hq : 0 < job.queueSize) {P : State α → Event → Prop}
    (hP : ∀ u e, P u e → err = false → e.quiet = true)
    (h : Run.Steps (step job) P (init job freeSems) s) : Inv err job s :=
  h.invariant (inv_init err job freeSems) fun _ _ _ hu he hst => hu.event hq (hP _ _ he) hst

/-- The runs without errors. -/
def Quiet (_ : State α) (e : Event) : Prop := e.quiet = true

theorem Inv.quiet (hq : 0 < job.queueSize)
    (h : Run.Steps (step job) Quiet (init job freeSems) s) : Inv false job s :=
  Inv.run hq (fun _ _ he _ => he) h

theorem Inv.inStage (h : Inv false job s) (hn : s.pc.normal = true) (hi : i < job.workersCnt) :
    InStage job (stage job s.pc i) (s.slots i) := by
  rcases h.stages hn i hi with hin | ⟨hbad, -⟩
  · exact hin
  · cases hbad

/-- An event of a run without errors in which the node is not ended. -/
def Event.drains : Event → Bool
  | .master | .fetch | .worker _ | .fork _ => true
  | _ => false

/-- The runs without errors in which the node is not ended. -/
def Drain (_ : State α) (e : Event) : Prop := e.drains = true

theorem Drain.quiet (h : Drain s e) : Quiet s e := by
  cases e <;> simp_all [Drain, Quiet, Event.drains, Event.quiet]

/-! ### Jobs and schedules to evaluate -/

/-- The comparison of numbers. -/
def compareNat (a b : Nat) : Int := (a : Int) - b

/-- A Sort of some numbers. -/
def sortNats (outer : List Nat) (level queueSize : Nat) : Job Nat :=
  { node := .sort outer, level := level, queueSize := queueSize,
    localSort := fun _ l => l.insertionSort (· ≤ ·), comparetup := compareNat }

/-- Everybody in turn, `rounds` times. -/
def inTurn (workers rounds : Nat) : List Event :=
  (List.replicate rounds
    (.master :: (List.range workers).flatMap fun i => [.fork i, .worker i])).flatten

theorem drain_inTurn (workers rounds : Nat) (s : State α) :
    ∀ e ∈ inTurn workers rounds, Drain s e := by
  intro e he
  simp only [inTurn, mem_flatten, mem_replicate] at he
  obtain ⟨l, ⟨-, rfl⟩, he⟩ := he
  simp only [mem_cons, mem_flatMap, not_mem_nil, or_false] at he
  rcases he with rfl | ⟨i, -, rfl | rfl⟩ <;> rfl

theorem quiet_inTurn (workers rounds : Nat) (s : State α) :
    ∀ e ∈ inTurn workers rounds, Quiet s e := fun e he => (drain_inTurn _ _ s e he).quiet

end PrlPg
