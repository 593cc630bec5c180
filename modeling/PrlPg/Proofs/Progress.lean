/-
Getting on.

Without errors, and with enough semaphores, the master and its workers can always get
on: unless the node has returned to its caller, some process has a step that brings the
node closer to doing so.  `measure` says how far there is to go.  Its first component is
the part of the master's program still ahead; the second one is what the master and the
workers have left to do before the master gets to the next part.

A polling master complicates this, since its steps alone need not lead anywhere.  A
barrier is crossed by a run of the master that starts when all workers have reached the
awaited state: it finishes the pass it is in, and if that pass had missed somebody the
next one does not.
-/
import PrlPg.Proofs.ControlFlow
import PrlPg.Proofs.SortData
import PrlPg.Proofs.Work

namespace PrlPg

open List Option Run MasterPc State Bool Function

variable {α : Type*}

/-! ### The measure -/

variable {n : Nat}

/-- The workers receive. -/
def Phase.deals : Phase α → Bool
  | .dealing | .closing _ => true
  | _ => false

/-- What is left to do for a worker when the master is at a point. -/
def slotWork (job : Job α) (pc : MasterPc α) (w : Slot α) : Nat :=
  if job.isSort && (pc.phase job.workersCnt).deals then w.recvWork else w.sendWork job.rows

/-- How much of the master's program is ahead.  A part that is a loop over the workers, or
two steps for each of them, takes up to `2 * n + 4`. -/
def rank (job : Job α) (s : State α) : Nat :=
  let n := job.workersCnt
  let unit := 2 * n + 4
  match s.pc with
  | .create i => job.subplans.length + 12 * unit + (n - i)
  | .wait .initial _ _ => job.subplans.length + 11 * unit
  | .register k => job.subplans.length + 10 * unit + (n - k)
  | .transition .start k => job.subplans.length + 9 * unit + (n - k)
  | .distribute => job.subplans.length + 8 * unit
  | .distributeLast _ => job.subplans.length + 7 * unit
  | .wait .finished _ _ => job.subplans.length + 6 * unit
  | .transition .ack k => job.subplans.length + 5 * unit + (n - k)
  | .prepare _ => job.subplans.length + 4 * unit
  | .getTuple | .fetch _ | .idle | .poll _ | .waitState _ | .assign _ =>
    (job.subplans.length - s.worksDone) + 3 * unit
  | .stopScan k => 2 * unit + 2 * (n - k)
  | .stopGet k => 2 * unit + 2 * (n - k) - 1
  | .wait .ended _ _ => unit + n + 1
  | .destroyScan k => unit + (n - k)
  | .wait .dead _ _ => n + 2
  | .releaseScan k => n - k + 1
  | _ => 0

/-- What the master has left to do in a part in which it moves tuples. -/
def loopWork (n : Nat) (s : State α) : Nat :=
  match s.pc with
  | .distribute => 2 * s.input.length
  | .distributeLast k => 2 * (n - k)
  | .idle => if s.eof then 0 else 3
  | .getTuple | .poll _ => 2
  | .fetch _ | .waitState _ => 1
  | _ => 0

theorem loopWork_idle {s : State α} (hpc : s.pc = .idle) : loopWork n s ≤ 3 := by
  simp only [loopWork, hpc]
  split <;> omega

/-- How far there is to go. -/
def measure (job : Job α) (s : State α) : ℕ ×ₗ ℕ :=
  toLex (rank job s, loopWork job.workersCnt s +
    ∑ i ∈ Finset.range job.workersCnt, slotWork job s.pc (s.slots i))

variable {job : Job α} {whole : Multiset α} {s s' : State α}
variable {k : Nat} {w : Slot α}

theorem measure_of_rank (h : rank job s' < rank job s) : measure job s' < measure job s :=
  Prod.Lex.toLex_lt_toLex.mpr (.inl h)

/-- Within a part of the program the work left decides. -/
theorem measure_of_work (hrank : rank job s' = rank job s) (h : loopWork job.workersCnt s' +
        ∑ i ∈ Finset.range job.workersCnt, slotWork job s'.pc (s'.slots i) <
      loopWork job.workersCnt s +
        ∑ i ∈ Finset.range job.workersCnt, slotWork job s.pc (s.slots i)) :
    measure job s' < measure job s :=
  Prod.Lex.toLex_lt_toLex.mpr (.inr ⟨hrank, h⟩)

/-- The record of worker `k` changes, and the master gets on in its loop. -/
theorem measure_set (hk : k < job.workersCnt) (hslots : s'.slots = update s.slots k w)
    (hrank : rank job s' = rank job s)
    (hphase : (s'.pc.phase job.workersCnt).deals = (s.pc.phase job.workersCnt).deals)
    (h : loopWork job.workersCnt s' + slotWork job s.pc w <
      loopWork job.workersCnt s + slotWork job s.pc (s.slots k)) :
    measure job s' < measure job s := by
  refine measure_of_work hrank ?_
  have hwork : slotWork job s'.pc = slotWork job s.pc := by
    funext v
    simp only [slotWork, hphase]
  have hsum := sum_update (slotWork job s.pc) s.slots w (Finset.mem_range.mpr hk)
  rw [hwork, hslots]
  omega

/-- No record changes, and the master gets on in its loop. -/
theorem measure_goto (hslots : s'.slots = s.slots) (hrank : rank job s' = rank job s)
    (hphase : (s'.pc.phase job.workersCnt).deals = (s.pc.phase job.workersCnt).deals)
    (h : loopWork job.workersCnt s' < loopWork job.workersCnt s) :
    measure job s' < measure job s := by
  refine measure_of_work hrank ?_
  have hwork : slotWork job s'.pc = slotWork job s.pc := by
    funext v
    simp only [slotWork, hphase]
  rw [hwork, hslots]
  omega

/-- There is a way on. -/
def GetsOn (job : Job α) (s : State α) : Prop :=
  ∃ t, Run.Steps (step job) Drain s t ∧ measure job t < measure job s

theorem GetsOn.to (t : State α) (hst : masterStep job s = some t)
    (h : measure job t < measure job s) : GetsOn job s :=
  ⟨t, Steps.single (e := .master) rfl hst, h⟩

/-! ### The workers -/

variable {pc : MasterPc α} {i : Nat} {w' : Slot α}

/-- The workers of a sort receive until every one of them has sorted. -/
theorem stage_receives (hsort : job.isSort = true) (h : (pc.phase n).deals = true) (i : Nat) :
    (stage job pc i).Receives := by
  have hst := phase_stages hsort pc n i
  cases hph : pc.phase n <;> simp only [hph, Phase.deals, false_eq_true] at h hst <;> exact hst

theorem stage_gives (h : (pc.phase n).deals = false) (i : Nat) : stage job pc i ≠ .running := by
  cases pc with
  | wait b k c =>
    simp only [stage]
    cases b with
    | ended | dead => split <;> simp [Barrier.before, Barrier.after]
    | _ => simp [phase, Phase.deals] at h
  | transition ho k =>
    simp only [stage]
    cases ho with
    | start => simp [phase, Phase.deals] at h
    | ack => dsimp only; split <;> simp
  | create j | register k | distribute | distributeLast j => simp [phase, Phase.deals] at h
  | assign j | stopScan j | destroyScan j | releaseScan j =>
    simp only [stage]
    split <;> simp
  | stopGet j =>
    simp only [stage]
    split
    · simp
    · split <;> simp
  | _ => simp [stage]

theorem slotWork_slaveStep {held : Bool} (hin : InStage job (stage job pc i) w)
    (hst : slaveStep (job.localSort i) job.rows held w = some w') :
    slotWork job pc w' < slotWork job pc w := by
  simp only [slotWork]
  split
  · rename_i hd
    rw [and_eq_true] at hd
    exact (recv_slaveStep hin (stage_receives hd.1 hd.2 i) hst).1
  rename_i hd
  refine sendWork_slaveStep hin ?_ hst
  rcases job_workType job with ⟨hs, -⟩ | ⟨-, ht⟩
  · exact .inr (stage_gives (by simpa [hs] using hd) i)
  · exact .inl ht

theorem slotWork_forkSlave (hin : InStage job (stage job pc i) w)
    (hst : forkSlave w = some w') : slotWork job pc w' < slotWork job pc w := by
  simp only [slotWork]
  split
  · exact recvWork_forkSlave hin hst
  · exact sendWork_forkSlave hin hst

/-- A worker that has a step takes it. -/
theorem Inv.slot_getsOn (h : Inv false job s) (hn : s.pc.normal = true) (hi : i < job.workersCnt)
    (hheld : s.pc.holds i = false) (hmove : (s.slots i).CanMove (job.localSort i) job.rows) :
    GetsOn job s := by
  have hin := h.inStage hn hi
  rcases hmove with hmove | hmove <;> obtain ⟨w, hw⟩ := isSome_iff_exists.mp hmove
  · refine ⟨s.set i w, Steps.single (e := .worker i) rfl ?_,
      measure_set hi rfl rfl rfl (Nat.add_lt_add_left (slotWork_slaveStep hin hw) _)⟩
    simp only [step, h.holds hn, hheld, hw, map_some]
  refine ⟨s.set i w, Steps.single (e := .fork i) rfl ?_,
    measure_set hi rfl rfl rfl (Nat.add_lt_add_left (slotWork_forkSlave hin hw) _)⟩
  simp only [step, hw, map_some]

/-! ### Barriers -/

variable {c : Nat} {l : List α}

/-- Everybody has reached the state the master waits for. -/
def Barrier.Reached (b : Barrier) (n : Nat) (s : State α) : Prop :=
  ∀ i < n, (s.slots i).counts = true ∧ (s.slots i).state = b.state

/-- The master counts the rest of its workers. -/
theorem wait_pass (b : Barrier) :
    ∀ (d : Nat) {s : State α} {k c : Nat}, k + d = job.workersCnt → s.pc = .wait b k c →
      b.Reached job.workersCnt s → ∃ t, Steps (step job) Drain s t ∧
        t.pc = .wait b job.workersCnt (c + d) ∧ b.Reached job.workersCnt t := by
  intro d
  induction d with
  | zero =>
    intro s k c hk hpc hall
    exact ⟨s, Steps.refl, by rw [hpc, ← hk]; rfl, hall⟩
  | succ d ih =>
    intro s k c hk hpc hall
    have hlt : k < job.workersCnt := by omega
    obtain ⟨hcnt, hst⟩ := hall k hlt
    let s₁ := (s.set k ((s.slots k).look .master)).goto (.wait b (k + 1) (c + 1))
    have hs₁ : step job s .master = some s₁ := by
      simp only [step, masterStep, hpc, waitForWorkers, if_pos hlt, hcnt, hst, decide_true,
        Bool.and_self, if_true, s₁]
    have hall₁ : b.Reached job.workersCnt s₁ := by
      intro i hi
      by_cases hik : i = k
      · subst hik
        simp only [s₁, State.goto, State.set, update_self]
        exact hall i hi
      · simp only [s₁, State.goto, State.set, update_of_ne hik]
        exact hall i hi
    obtain ⟨t, hrun, htpc, htall⟩ := ih (by omega) rfl hall₁
    exact ⟨t, Steps.head (e := .master) rfl hs₁ hrun, by rw [htpc]; congr 1; omega, htall⟩

variable {b : Barrier}

section

variable (hpc : s.pc = .wait b k c) (hk : k ≤ job.workersCnt) (hall : b.Reached job.workersCnt s)
include hpc hk hall

/-- When everybody is there the master finds out. -/
theorem wait_full : ∃ t, Steps (step job) Drain s t ∧
      t.pc = .wait b job.workersCnt job.workersCnt ∧ b.Reached job.workersCnt t := by
  obtain ⟨t, hrun, htpc, htall⟩ := wait_pass b (job.workersCnt - k) (by omega) hpc hall
  by_cases hfull : c + (job.workersCnt - k) = job.workersCnt
  · exact ⟨t, hrun, by rw [htpc, hfull], htall⟩
  -- the pass had missed somebody; the next one does not
  have hnext : step job t .master = some (t.goto (.wait b 0 0)) := by
    simp only [step, masterStep, htpc, waitForWorkers, lt_irrefl, if_false, if_neg hfull]
  obtain ⟨t', hrun', htpc', htall'⟩ := wait_pass b job.workersCnt (s := t.goto (.wait b 0 0))
    (zero_add _) rfl htall
  exact ⟨t', (hrun.tail (e := Event.master) rfl hnext).trans hrun', by rw [htpc', zero_add], htall'⟩

theorem wait_exit : ∃ t, Steps (step job) Drain s t ∧ t.pc = b.next := by
  obtain ⟨t, hrun, htpc, -⟩ := wait_full hpc hk hall
  refine ⟨t.goto b.next, hrun.tail (e := Event.master) rfl ?_, rfl⟩
  simp only [step, masterStep, htpc, waitForWorkers, lt_irrefl, if_false, if_true]

end

variable {localSort : List α → List α} {freeSems : Nat}

/-- A worker that has been sent its end marker is not kept waiting for it. -/
theorem Received.not_starved {got : List α}
    (h : Received localSort w (sentTo l true)) (hpc : w.pc = .recv got) :
    w.bufferQueue.cells ≠ [] := by
  intro hcells
  simp only [Received, hpc, hcells, append_nil, sentTo, if_true] at h
  have hlast : (BufferQueueCell.last : BufferQueueCell α) ∈ got.map .tuple := by rw [h]; simp
  simp at hlast

/-- A worker that has not been sent its end marker has not finished. -/
theorem Received.not_finished (h : Received localSort w (sentTo l false))
    (hin : InStage job .running w) :
    w.state ≠ .finished := by
  intro hst
  have hcell : ∃ got : List α, got.map BufferQueueCell.tuple ++ .last :: w.bufferQueue.cells
      = l.map .tuple := by
    have hctl := hin.ctl
    cases w
    cases hst
    cases hctl with
    | sends hs => cases hs
    | _ =>
      obtain ⟨got, hgot, -⟩ := h
      exact ⟨got, by simpa [sentTo] using hgot⟩
  obtain ⟨got, hgot⟩ := hcell
  have hlast : (BufferQueueCell.last : BufferQueueCell α) ∈ l.map .tuple := by rw [← hgot]; simp
  simp at hlast

theorem Barrier.state_ne_none (b : Barrier) : b.state ≠ .none := by cases b <;> simp [Barrier.state]

theorem Barrier.before_listed (b : Barrier) : b.before.listed = true := by cases b <;> rfl

section

variable (h : Inv false job s)
include h

section

variable (hpc : s.pc = .wait b k c)
include hpc

theorem Inv.wait_inStage (hi : i < job.workersCnt) : InStage job b.before (s.slots i) := by
  have hw := h.stages (by rw [hpc]; rfl) i hi
  rw [hpc] at hw
  rcases stage_wait_before hw with hin | ⟨hbad, -⟩
  · exact hin
  · cases hbad

/-- A worker the master waits for has reached the awaited state or has a step. -/
theorem Inv.wait_canMove (hdata : job.isSort = true → SortOk job s) (hi : i < job.workersCnt) :
    (s.slots i).CanMove (job.localSort i) job.rows ∨ (s.slots i).state = b.state := by
  have hin := h.wait_inStage hpc hi
  cases b with
  | initial => exact hin.canMove_startup
  | finished =>
    have hsort : job.isSort = true := by have := h.fits; rwa [hpc] at this
    obtain ⟨-, given, hd⟩ : SortData job s (.closing job.workersCnt) := by
      have := hdata hsort
      rwa [SortOk, hpc] at this
    have hsent := hd.sent i hi
    simp only [hi, decide_true] at hsent
    rcases hin.canMove_running with hm | hst | ⟨got, hgot, hcells⟩
    · exact .inl hm
    · exact .inr hst
    · exact absurd hcells (hsent.not_starved hgot)
  | ended => exact hin.canMove_stopping
  | dead => exact hin.canMove_ending

theorem Inv.wait_reached (hall : ∀ i < job.workersCnt, (s.slots i).state = b.state) :
    b.Reached job.workersCnt s := fun i hi =>
  ⟨(h.wait_inStage hpc hi).counts b.before_listed (by rw [hall i hi]; exact b.state_ne_none),
    hall i hi⟩

theorem Inv.wait_getsOn (hdata : job.isSort = true → SortOk job s) : GetsOn job s := by
  by_cases hall : ∀ i < job.workersCnt, (s.slots i).state = b.state
  · have hk : k ≤ job.workersCnt := by have := h.bounded; rw [hpc] at this; exact this.2
    obtain ⟨t, hrun, htpc⟩ := wait_exit hpc hk (h.wait_reached hpc hall)
    refine ⟨t, hrun, measure_of_rank ?_⟩
    cases b <;> simp only [rank, htpc, hpc, Barrier.next] <;> omega
  push Not at hall
  obtain ⟨i, hi, hne⟩ := hall
  exact h.slot_getsOn (by rw [hpc]; rfl) hi (by rw [hpc]; rfl)
    ((h.wait_canMove hpc hdata hi).resolve_right hne)

end

/-! ### Setting up -/

theorem Inv.create_getsOn (hpc : s.pc = .create i) (hsem : i < job.workersCnt → 3 ≤ s.freeSems) :
    GetsOn job s := by
  have hle : i ≤ job.workersCnt := by have := h.bounded; rwa [hpc] at this
  by_cases hi : i < job.workersCnt
  · have hst : ∃ t, masterStep job s = some t ∧ t.pc = .create (i + 1) := by
      simp only [masterStep, hpc, createStep, if_pos hi, if_pos (hsem hi)]
      split <;> exact ⟨_, rfl, rfl⟩
    obtain ⟨t, hst, htpc⟩ := hst
    refine GetsOn.to _ hst (measure_of_rank ?_)
    simp only [rank, htpc, hpc]
    omega
  refine GetsOn.to (s.goto (.wait .initial 0 0)) ?_ (measure_of_rank ?_)
  · simp only [masterStep, hpc, createStep, if_neg hi]
  · simp only [rank, hpc, State.goto]
    omega

theorem Inv.register_getsOn (hpc : s.pc = .register k) : GetsOn job s := by
  have hle : k ≤ job.workersCnt := by have := h.bounded; rwa [hpc] at this
  by_cases hk : k < job.workersCnt
  all_goals
    refine GetsOn.to _ (by simp only [masterStep, hpc, registerWorkers, hk, if_true, if_false]; rfl)
      (measure_of_rank ?_)
    simp only [rank, hpc]
    omega

theorem Inv.transition_getsOn {ho : HandOver} (hpc : s.pc = .transition ho k) : GetsOn job s := by
  have hle : k ≤ job.workersCnt := by have := h.bounded; rwa [hpc] at this
  by_cases hk : k < job.workersCnt
  · refine GetsOn.to _ (by simp only [masterStep, hpc, stateTransition, if_pos hk]; rfl)
      (measure_of_rank ?_)
    cases ho <;> simp only [rank, hpc, State.goto] <;> omega
  refine GetsOn.to _ (by simp only [masterStep, hpc, stateTransition, if_neg hk]; rfl)
    (measure_of_rank ?_)
  cases ho with
  | start =>
    simp only [HandOver.next]
    split <;> simp only [rank, hpc, State.goto] <;> omega
  | ack =>
    simp only [rank, hpc, State.goto, HandOver.next]
    omega

/-! ### Dealing -/

/-- A worker of a sort that has not got its end marker: there is room in its queue, or it
makes some. -/
theorem Inv.deal_getsOn (hq : 0 < job.queueSize)
    (hpc : s.pc = .distribute ∨ ∃ j, s.pc = .distributeLast j) (hi : i < job.workersCnt)
    (hsent : Received (job.localSort i) (s.slots i) (sentTo l false)) :
    GetsOn job s ∨ (s.slots i).bufferQueue.cells.length < (s.slots i).bufferQueue.initSize := by
  have hn : s.pc.normal = true := by rcases hpc with hpc | ⟨j, hpc⟩ <;> rw [hpc] <;> rfl
  have hheld : s.pc.holds i = false := by rcases hpc with hpc | ⟨j, hpc⟩ <;> rw [hpc] <;> rfl
  have hin : InStage job .running (s.slots i) := by
    have := h.inStage hn hi
    rcases hpc with hpc | ⟨j, hpc⟩ <;> rwa [hpc] at this
  obtain ⟨hsize, -⟩ := hin.sized (by simp)
  rcases hin.canMove_running with hm | hst | ⟨got, -, hcells⟩
  · exact .inl (h.slot_getsOn hn hi hheld hm)
  · exact absurd hst (hsent.not_finished hin)
  refine .inr ?_
  rw [hcells, hsize]
  exact hq

end

theorem nextWorker_lt (i : Int) (hn : 0 < n) : nextWorker i n < n := by
  have h₂ := Int.emod_lt_of_pos (i + 1) (b := (n : Int)) (by omega)
  simp only [nextWorker]
  omega

/-- The master puts a cell into a queue with room. -/
theorem addTo_of_room (hworkers : s.workers = range n) (hi : i < n) (cell : BufferQueueCell α)
    (hroom : (s.slots i).bufferQueue.cells.length < (s.slots i).bufferQueue.initSize) :
    ∃ w, addTo s i cell = some (s.set i w) ∧ w.recvWork = (s.slots i).recvWork + 1 ∧
      w.state = (s.slots i).state := by
  have hget : s.workers[i]? = some i := by rw [hworkers, getElem?_range hi]
  simp only [addTo, hget, Slot.bufferQueueAdd, bufferQueueAdd, if_pos hroom, map_some]
  refine ⟨_, rfl, ?_, rfl⟩
  simp only [Slot.recvWork, length_append, length_singleton]
  omega

theorem slotWork_deals (hsort : job.isSort = true) (hd : (pc.phase job.workersCnt).deals = true)
    (w : Slot α) : slotWork job pc w = w.recvWork := by
  simp [slotWork, hsort, hd]

theorem getFrom_of_cells (hworkers : s.workers = range n) (hi : i < n)
    (hcells : (s.slots i).bufferQueue.cells ≠ []) :
    ∃ cell w, getFrom s i = some (cell, s.set i w) ∧
      ∀ rows, w.sendWork rows + 3 = (s.slots i).sendWork rows := by
  have hget : s.workers[i]? = some i := by rw [hworkers, getElem?_range hi]
  obtain ⟨cell, rest, hc⟩ := exists_cons_of_ne_nil hcells
  have hqget := bufferQueueGet_of_cells hc
  exact ⟨cell, _, by simp only [getFrom, hget, hqget, map_some], fun _ => sendWork_get hqget⟩

theorem slotWork_sends (hd : (pc.phase job.workersCnt).deals = false) (w : Slot α) :
    slotWork job pc w = w.sendWork job.rows := by
  simp [slotWork, hd]

section

variable (h : Inv false job s) (hq : 0 < job.queueSize)
include h hq

theorem Inv.distribute_getsOn (hlevel : 0 < job.workersCnt) (hdata : SortOk job s)
    (hpc : s.pc = .distribute) : GetsOn job s := by
  obtain ⟨-, (hworkers : s.workers = range job.workersCnt), hsort, -⟩ := h.located hpc rfl
  rw [SortOk, hpc] at hdata
  obtain ⟨given, hd⟩ := hdata
  cases hinput : s.input with
  | nil =>
    refine GetsOn.to (s.goto (.distributeLast 0)) ?_ (measure_of_rank ?_)
    · simp only [masterStep, hpc, distributeToWorker, hinput]
    · simp [rank, hpc, State.goto]
  | cons t rest =>
    have hnow : nextWorker s.lastWorker s.workers.length < job.workersCnt := by
      rw [hworkers, length_range]
      exact nextWorker_lt _ hlevel
    rcases h.deal_getsOn hq (.inl hpc) hnow (hd.sent _ hnow) with hget | hroom
    · exact hget
    obtain ⟨w, hadd, hwork, -⟩ := addTo_of_room hworkers hnow (.tuple t) hroom
    have hst : masterStep job s = some
        { s.set (nextWorker s.lastWorker s.workers.length) w with
          input := rest, lastWorker := nextWorker s.lastWorker s.workers.length } := by
      simp only [masterStep, hpc, distributeToWorker, hinput, hadd, map_some]
    refine GetsOn.to _ hst ?_
    refine measure_set hnow rfl (by simp [rank, hpc, State.set]) (by simp [hpc, State.set]) ?_
    rw [slotWork_deals hsort (by rw [hpc]; rfl), slotWork_deals hsort (by rw [hpc]; rfl), hwork]
    simp only [loopWork, hpc, State.set, hinput, length_cons]
    omega

theorem Inv.distributeLast_getsOn (hdata : SortOk job s) {j : Nat}
    (hpc : s.pc = .distributeLast j) : GetsOn job s := by
  obtain ⟨-, (hworkers : s.workers = range job.workersCnt), hsort, -⟩ := h.located hpc rfl
  rw [SortOk, hpc] at hdata
  obtain ⟨-, given, hd⟩ := hdata
  by_cases hj : j < job.workersCnt
  · have hlt : j < s.workers.length := by rw [hworkers, length_range]; exact hj
    have hsent := hd.sent j hj
    simp only [lt_irrefl, decide_false] at hsent
    rcases h.deal_getsOn hq (.inr ⟨j, hpc⟩) hj hsent with hget | hroom
    · exact hget
    obtain ⟨w, hadd, hwork, -⟩ := addTo_of_room hworkers hj .last hroom
    have hst : masterStep job s = some ((s.set j w).goto (.distributeLast (j + 1))) := by
      simp only [masterStep, hpc, PrlPg.distributeLast, if_pos hlt, hadd, map_some]
    refine GetsOn.to _ hst ?_
    refine measure_set hj rfl (by simp [rank, hpc, State.goto])
      (by simp [hpc, State.goto, phase, Phase.deals]) ?_
    rw [slotWork_deals hsort (by rw [hpc]; rfl), slotWork_deals hsort (by rw [hpc]; rfl), hwork]
    simp only [loopWork, hpc, State.goto]
    omega
  have hge : ¬ j < s.workers.length := by rw [hworkers, length_range]; exact hj
  refine GetsOn.to (s.goto (.wait .finished 0 0)) ?_ (measure_of_rank ?_)
  · simp only [masterStep, hpc, PrlPg.distributeLast, if_neg hge]
  · simp [rank, hpc, State.goto]

/-! ### Merging -/

/-- A worker that has something to send: there is a cell in its queue, or it puts one
there. -/
theorem Inv.send_getsOn (hi : i < job.workersCnt) (hn : s.pc.normal = true)
    (hheld : s.pc.holds i = false) (hstage : stage job s.pc i = .sending)
    (hout : (s.slots i).outgoing job.rows ≠ []) :
    GetsOn job s ∨ (s.slots i).bufferQueue.cells ≠ [] := by
  have hin := h.inStage hn hi
  rw [hstage] at hin
  exact (hin.canMove_sending hq hout).imp (fun hm => h.slot_getsOn hn hi hheld hm) id

theorem Inv.prepare_getsOn (hw : MergesWell job whole) (hdata : SortOk job s)
    {cw : Nat} (hpc : s.pc = .prepare cw) : GetsOn job s := by
  obtain ⟨hn, (hworkers : s.workers = range job.workersCnt), -, (hle : cw ≤ job.workersCnt)⟩ :=
    h.located hpc rfl
  rw [SortOk, hpc] at hdata
  obtain ⟨-, -, left, hm⟩ := hdata hw
  by_cases hcw : cw < job.workersCnt
  · have hlt : cw < s.workers.length := by rw [hworkers, length_range]; exact hcw
    have hout : (s.slots cw).outgoing job.rows ≠ [] := by
      have hrun : ¬ s.merge.workersFinished cw = true := fun hf => lt_irrefl _ (hm.done cw hf).1
      rw [hm.outgoing cw hcw, if_neg hrun]
      exact message_ne_nil _
    rcases h.send_getsOn hq hcw hn (by rw [hpc]; rfl) (by rw [hpc]; rfl) hout with hget | hcells
    · exact hget
    obtain ⟨cell, w, hget, hwork⟩ := getFrom_of_cells hworkers hcw hcells
    have hst : masterStep job s = some { s.set cw w with
        merge := s.merge.prepare job.comparetup cw cell, pc := .prepare (cw + 1) } := by
      simp only [masterStep, hpc, prepareForMerge, if_pos hlt, hget, map_some]
      rfl
    refine GetsOn.to _ hst (measure_set hcw rfl (by simp only [rank, hpc]) (by rw [hpc]; rfl) ?_)
    rw [slotWork_sends (by rw [hpc]; rfl), slotWork_sends (by rw [hpc]; rfl), ← hwork]
    simp only [loopWork, hpc]
    omega
  have hge : ¬ cw < s.workers.length := by rw [hworkers, length_range]; exact hcw
  refine GetsOn.to _ (by simp only [masterStep, hpc, prepareForMerge, if_neg hge]; rfl)
    (measure_of_rank ?_)
  simp only [rank, hpc]
  omega

theorem Inv.fetch_getsOn (hw : MergesWell job whole) (hdata : SortOk job s)
    {stup : SortTuple α} (hpc : s.pc = .fetch stup) : GetsOn job s := by
  obtain ⟨hn, (hworkers : s.workers = range job.workersCnt), -⟩ := h.located hpc rfl
  rw [SortOk, hpc] at hdata
  obtain ⟨-, left, hm⟩ := hdata hw
  obtain ⟨hlt, hrun⟩ := hm.running stup (by simp)
  have hout : (s.slots stup.tupindex).outgoing job.rows ≠ [] := by
    rw [hm.outgoing _ hlt, hrun]
    exact message_ne_nil _
  rcases h.send_getsOn hq hlt hn (by rw [hpc]; rfl) (by rw [hpc]; rfl) hout with hget | hcells
  · exact hget
  obtain ⟨cell, w, hget, hwork⟩ := getFrom_of_cells hworkers hlt hcells
  have hst : masterStep job s = some ({ s.set stup.tupindex w with
      merge := s.merge.refill job.comparetup stup.tupindex cell }.yield stup.tuple) := by
    simp only [masterStep, hpc, fetchNext, hget, map_some]
    rfl
  refine GetsOn.to _ hst
    (measure_set hlt rfl (by simp only [rank, hpc, State.yield, State.set]) (by rw [hpc]; rfl) ?_)
  rw [slotWork_sends (by rw [hpc]; rfl), slotWork_sends (by rw [hpc]; rfl), ← hwork]
  refine lt_of_le_of_lt (Nat.add_le_add_right (loopWork_idle rfl) _) ?_
  simp only [loopWork, hpc]
  omega

end

theorem Inv.getTuple_getsOn (hw : MergesWell job whole) (hdata : SortOk job s)
    (hpc : s.pc = .getTuple) : GetsOn job s := by
  rw [SortOk, hpc] at hdata
  obtain ⟨hend, left, hm⟩ := hdata hw
  by_cases hover : s.merge.isParallelEnded = true
  · have hst : masterStep job s = some { s with eof := true, pc := .idle } := by
      simp only [masterStep, hpc, gettupleslotFromWorker, hover, if_true]
    refine GetsOn.to _ hst (measure_goto rfl (by simp only [rank, hpc]) (by rw [hpc]; rfl) ?_)
    simp only [loopWork, hpc]
    decide
  cases hmem : s.merge.memtuples with
  | nil => exact absurd (hend.mpr ⟨rfl, hmem⟩) hover
  | cons stup m =>
    have hrun := (hm.running stup (by simp [hmem])).2
    have hst : masterStep job s = some
        ({ s with merge := s.merge.takeRoot job.comparetup }.goto (.fetch stup)) := by
      simp only [masterStep, hpc, gettupleslotFromWorker, if_neg hover, hmem, hrun,
        false_eq_true, if_false]
    refine GetsOn.to _ hst
      (measure_goto rfl (by simp only [rank, hpc, State.goto]) (by rw [hpc]; rfl) ?_)
    simp only [loopWork, hpc, State.goto]
    decide

theorem idle_getsOn (hpc : s.pc = .idle) (heof : s.eof = false) : GetsOn job s := by
  refine ⟨s.goto (if job.isSort then .getTuple else .poll s.lastWorker),
    Steps.single (e := .fetch) rfl (by simp only [step, hpc]), ?_⟩
  cases hsort : job.isSort
  all_goals
    refine measure_goto rfl (by simp [rank, hpc, goto]) (by rw [hpc]; rfl) ?_
    simp [loopWork, hpc, goto, heof]

/-! ### Ending the node -/

theorem Inv.stopScan_getsOn (h : Inv false job s) (hpc : s.pc = .stopScan k) : GetsOn job s := by
  have hle : k ≤ job.workersCnt := by have := h.bounded; rwa [hpc] at this
  have hst : ∃ t, masterStep job s = some t ∧
      ((k < job.workersCnt ∧ (t.pc = .stopScan (k + 1) ∨ t.pc = .stopGet k)) ∨
        t.pc = .wait .ended 0 0) := by
    simp only [masterStep, hpc, stopStep]
    split
    next hk =>
      split
      · refine ⟨_, rfl, .inl ⟨hk, ?_⟩⟩
        split
        · exact .inl rfl
        · exact .inr rfl
      · exact ⟨_, rfl, .inl ⟨hk, .inl rfl⟩⟩
    · exact ⟨_, rfl, .inr rfl⟩
  obtain ⟨t, hst, htpc⟩ := hst
  refine GetsOn.to _ hst (measure_of_rank ?_)
  rcases htpc with ⟨hk, htpc | htpc⟩ | htpc <;> simp only [rank, hpc, htpc] <;> omega

theorem Inv.stopGet_getsOn (h : Inv false job s) (hpc : s.pc = .stopGet k) : GetsOn job s := by
  have hk : k < job.workersCnt := by have := h.bounded; rwa [hpc] at this
  refine GetsOn.to _ (by simp only [masterStep, hpc, stopGetStep]; rfl) (measure_of_rank ?_)
  simp only [rank, hpc, State.goto]
  omega

/-! ### Runs in which the node is not ended -/

/-- Between setting up and ending the node. -/
def MasterPc.working : MasterPc α → Bool
  | .wait .initial _ _ | .wait .finished _ _ | .register _ | .transition .. | .distribute
  | .distributeLast _ | .prepare _ | .getTuple | .fetch _ | .idle | .poll _ | .waitState _
  | .assign _ => true
  | _ => false

theorem working_master (hinv' : Inv false job s') (h : s.pc.working = true)
    (hst : masterStep job s = some s') : s'.pc.working = true := by
  have hnext := masterStep_next hst
  have hpath := hinv'.path rfl
  revert hnext h hpath
  generalize s.pc = pc, s'.pc = pc'
  intro h hnext hpath
  cases hnext with
  | canceled =>
    -- without errors no worker is cancelled
    rcases hpath with hn | hf
    · simp [normal] at hn
    · cases hf
  | @pass b | @count b => cases b <;> first | rfl | simp [working] at h
  | _ => first | rfl | simp [working] at h

/-- The master works, or is setting up with enough semaphores left. -/
def Supplied (job : Job α) (s : State α) : Prop :=
  s.pc.working = true ∨ ∃ i, s.pc = .create i ∧ 3 * job.workersCnt ≤ s.freeSems + 3 * i

theorem Supplied.event (h : Supplied job s) (hinv' : Inv false job s') {e : Event}
    (he : e.drains = true) (hst : step job s e = some s') : Supplied job s' := by
  cases step_occurs hst with
  | master hst =>
    rcases h with h | ⟨i, hpc, hsem⟩
    · exact .inl (working_master hinv' h hst)
    simp only [masterStep, hpc, createStep] at hst
    split at hst
    next hi =>
      rw [if_pos (by omega)] at hst
      refine .inr ⟨i + 1, ?_⟩
      split at hst <;> cases hst
      · exact ⟨rfl, by simp only; omega⟩
      · exact ⟨rfl, by simp only; omega⟩
    · cases hst
      exact .inl rfl
  | fetch =>
    refine .inl ?_
    split <;> rfl
  | worker | fork => exact h
  | _ => simp [Event.drains] at he

theorem supplied_init (h : 3 * job.workersCnt ≤ freeSems) :
    Supplied job (init job freeSems) :=
  .inr ⟨0, rfl, by simpa [init] using h⟩

/-! ### Runs without errors -/

/-- What holds in runs without errors. -/
structure QuietInv (job : Job α) (s : State α) : Prop where
  inv : Inv false job s
  data : job.isSort = true → SortOk job s

theorem QuietInv.event (h : QuietInv job s) (hq : 0 < job.queueSize) {e : Event}
    (he : e.quiet = true) (hst : step job s e = some s') : QuietInv job s' := by
  have hinv' := h.inv.event hq (fun _ => he) hst
  exact ⟨hinv', fun hsort => (h.data hsort).event h.inv hinv' hsort he hst⟩

theorem QuietInv.run (hq : 0 < job.queueSize)
    (h : Steps (step job) Quiet (init job freeSems) s) : QuietInv job s :=
  h.invariant ⟨inv_init false job freeSems, fun _ => sortOk_init job freeSems⟩
    fun _ _ _ hu he hst => hu.event hq he hst

end PrlPg
