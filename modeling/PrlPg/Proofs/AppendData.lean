/-
Where the tuples of a parallel append are.

Every plan that was given to a worker is with that worker until its end marker has been
read, so what has been returned and what the workers have still to send make up what the
given plans return.  Which plans these are is a matter of two counters.  `worksDone`
hands out the plans that are left one after the other.  The counter of the set-up loop
is not reset for each worker, so the walk over the plan list starts at the count the
worker before left it at: every worker after the second finds the second plan.
-/
import PrlPg.Proofs.Progress

namespace PrlPg

open Function List Option Slot State

variable {α : Type*} {job : Job α} {s s' : State α}

/-! ### The plans -/

variable {i : Nat}

/-- The plan the set-up loop gives to worker `i`. -/
def initialPlan (i : Nat) : Nat := min i 1

/-- The walk finds the plan as far into the list as the counter is short of `i`. -/
theorem walkPlans_range' : ∀ (m a j : Nat), j ≤ i → i - j < m →
      walkPlans i (range' a m) j = (some (a + (i - j)), i) := by
  intro m
  induction m with
  | zero => intro a j _ hlt; omega
  | succ m ih =>
    intro a j hle hlt
    rw [range'_succ, walkPlans]
    split_ifs with hji
    · rw [hji]
      simp
    rw [ih (a + 1) (j + 1) (by omega) (by omega)]
    congr 2
    omega

theorem walkPlans_range {j p : Nat} (hle : j ≤ i) (hlt : i - j < p) :
    walkPlans i (range p) j = (some (i - j), i) := by
  rw [range_eq_range', walkPlans_range' p 0 j hle hlt, zero_add]

theorem walkPlans_setup {p : Nat} (hp : i < p) :
    walkPlans i (range p) (i - 1) = (some (initialPlan i), i) := by
  rw [walkPlans_range (by omega) (by omega)]
  simp only [initialPlan]
  congr 2
  omega

theorem workersCnt_le_subplans (happ : job.isSort = false) :
    job.workersCnt ≤ job.subplans.length := by
  cases hnode : job.node with
  | sort outer => simp [Job.isSort, hnode] at happ
  | append l =>
    simp only [Job.workersCnt, Job.subplans, hnode]
    split <;> omega

/-! ### What holds of the data -/

/-- The first `i` workers have been set up. -/
structure SetUp (job : Job α) (s : State α) (i : Nat) : Prop where
  given : s.given = (List.range i).map initialPlan
  counter : s.planCounter = i - 1
  fresh : s.merge = Merge.begin ∧ s.returned = [] ∧ s.eof = false ∧ s.worksDone = job.workersCnt
  outgoing : ∀ j < i, (s.slots j).outgoing job.rows = message (job.rows (some (initialPlan j)))

/-- What the given plans return together. -/
def givenRows (job : Job α) (given : List Nat) : List α := given.flatMap fun p => job.rows (some p)

/-- The tuples are being fetched.  Worker `j` has `left j` to send; the worker in `busy`
has sent everything and is about to be given another plan. -/
structure Draining (job : Job α) (s : State α) (busy : Option Nat) (left : Nat → List α) :
    Prop where
  outgoing : ∀ j < job.workersCnt, (s.slots j).outgoing job.rows =
    if s.merge.workersFinished j = true ∨ busy = some j then [] else message (left j)
  done : ∀ j, s.merge.workersFinished j = true → left j = [] ∧ job.subplans.length ≤ s.worksDone
  busy : ∀ j, busy = some j →
    s.merge.workersFinished j = false ∧ left j = [] ∧ s.worksDone < job.subplans.length
  works : job.workersCnt ≤ s.worksDone ∧ s.worksDone ≤ job.subplans.length
  given : s.given = (List.range job.workersCnt).map initialPlan ++
    List.range' job.workersCnt (s.worksDone - job.workersCnt)
  total : (s.returned : Multiset α) + ∑ j ∈ Finset.range job.workersCnt, (left j : Multiset α)
    = (givenRows job s.given : Multiset α)
  eof : s.eof = true → ∀ j < job.workersCnt, s.merge.workersFinished j = true

/-- How far an append is. -/
inductive AppendPhase
  | setUp (i : Nat)
  | draining (busy : Option Nat)
  /-- the node is being ended, or was given up -/
  | past

/-- How far an append with `n` workers is when the master is at a point. -/
def MasterPc.appendPhase (n : Nat) : MasterPc α → AppendPhase
  | .create i => .setUp i
  | .wait .initial _ _ | .register _ | .transition .start _ => .setUp n
  | .poll _ | .idle => .draining none
  | .waitState j | .assign j => .draining (some j)
  | _ => .past

/-- Where the tuples are in a phase. -/
def AppendData (job : Job α) (s : State α) : AppendPhase → Prop
  | .setUp i => SetUp job s i
  | .draining busy => ∃ left, Draining job s busy left
  | .past => True

/-- The tuples are where they should be. -/
def AppendOk (job : Job α) (s : State α) : Prop :=
  AppendData job s (s.pc.appendPhase job.workersCnt)

/-! ### One record changes -/

variable {w : Slot α} {left : Nat → List α} {k : Nat} {p : AppendPhase}

theorem SetUp.slot (h : SetUp job s i) (k : Nat)
    (hw : w.outgoing job.rows = (s.slots k).outgoing job.rows)
    (hslots : s'.slots = update s.slots k w)
    (hgiven : s'.given = s.given ∧ s'.planCounter = s.planCounter)
    (hfresh : s'.merge = s.merge ∧ s'.returned = s.returned ∧ s'.eof = s.eof ∧
      s'.worksDone = s.worksDone) : SetUp job s' i := by
  refine ⟨hgiven.1.trans h.given, hgiven.2.trans h.counter, ?_, ?_⟩
  · rw [hfresh.1, hfresh.2.1, hfresh.2.2.1, hfresh.2.2.2]
    exact h.fresh
  · rw [hslots]
    exact outgoing_set h.outgoing hw

theorem Draining.slot {busy : Option Nat} (h : Draining job s busy left) (k : Nat)
    (hw : w.outgoing job.rows = (s.slots k).outgoing job.rows) :
    Draining job (s.set k w) busy left :=
  { h with outgoing := outgoing_set h.outgoing hw }

theorem AppendData.slot (h : AppendData job s p)
    (hw : p ≠ .past → w.outgoing job.rows = (s.slots k).outgoing job.rows) :
    AppendData job (s.set k w) p := by
  cases p with
  | setUp i => exact SetUp.slot h k (hw (by simp)) rfl ⟨rfl, rfl⟩ ⟨rfl, rfl, rfl, rfl⟩
  | draining busy =>
    obtain ⟨left, hd⟩ := h
    exact ⟨left, hd.slot k (hw (by simp))⟩
  | past => trivial

theorem AppendData.goto (h : AppendData job s p) (pc : MasterPc α) :
    AppendData job (s.goto pc) p := by
  cases p with
  | setUp i => exact ⟨h.given, h.counter, h.fresh, h.outgoing⟩
  | draining busy => exact h.imp fun _ hd => { __ := hd }
  | past => trivial

/-- In all these phases it is settled what a worker will send. -/
theorem appendPhase_settled (happ : job.isSort = false) {pc : MasterPc α} {n : Nat}
    (hph : pc.appendPhase n ≠ .past) (i : Nat) : (stage job pc i).Settled job := by
  have hquery : job.workType = .query := by simp [Job.workType, happ]
  have hwork : job.workStage = .sending := by simp [Job.workStage, happ]
  cases pc with
  | create j =>
    simp only [stage]
    split
    · exact .startup hquery
    · exact .unused
  | wait b k c =>
    cases b with
    | initial =>
      simp only [stage, Barrier.before, Barrier.after]
      split
      · exact .initialSeen hquery
      · exact .startup hquery
    | _ => simp [MasterPc.appendPhase] at hph
  | register k => exact .initialSeen hquery
  | transition ho k =>
    cases ho with
    | start =>
      simp only [stage, hwork]
      split
      · exact .sending
      · exact .initialSeen hquery
    | ack => simp [MasterPc.appendPhase] at hph
  | poll i => exact .sending
  | idle => exact .sending
  | waitState i => exact .sending
  | assign j =>
    simp only [stage]
    split
    · exact .endSeen
    · exact .sending
  | _ => simp [MasterPc.appendPhase] at hph

/-! ### Setting up -/

theorem AppendOk.create (h : AppendOk job s) (happ : job.isSort = false)
    (hle : i ≤ job.workersCnt) (hpc : s.pc = .create i) (hst : createStep job s i = some s') :
    AppendOk job s' := by
  rw [AppendOk, hpc] at h
  have h : SetUp job s i := h
  simp only [createStep] at hst
  split at hst
  next hi =>
    split at hst
    next hsem =>
      rw [if_neg (by simp [happ]), some.injEq] at hst
      subst hst
      have hwalk : walkPlans i (range job.subplans.length) s.planCounter
          = (some (initialPlan i), i) := by
        rw [h.counter]
        exact walkPlans_setup (lt_of_lt_of_le hi (workersCnt_le_subplans happ))
      simp only [hwalk]
      refine ⟨?_, rfl, h.fresh, fun j hj => ?_⟩
      · simp [h.given, range_succ]
      simp only [State.set]
      by_cases hji : j = i
      · subst hji
        simp [outgoing, toSend, create, createBufferQueue]
      · rw [update_of_ne hji]
        exact h.outgoing j (by omega)
    · cases hst
      trivial
  next hi =>
    cases hst
    obtain rfl : i = job.workersCnt := by omega
    exact AppendData.goto (p := .setUp job.workersCnt) h _

theorem appendPhase_wait (n : Nat) (b : Barrier) (k k' c c' : Nat) :
    (MasterPc.wait b k c : MasterPc α).appendPhase n
      = (MasterPc.wait b k' c' : MasterPc α).appendPhase n := by
  cases b <;> rfl

theorem AppendOk.wait (h : AppendOk job s) {b : Barrier} {readyCnt : Nat}
    (hpc : s.pc = .wait b k readyCnt) (hst : waitForWorkers job s b k readyCnt = some s') :
    AppendOk job s' := by
  rw [AppendOk, hpc] at h
  simp only [waitForWorkers] at hst
  split at hst
  · cases hst
    rw [appendPhase_wait _ _ _ (k + 1) _ 0] at h
    rw [AppendOk, goto, appendPhase_wait _ _ _ (k + 1) _ 0]
    exact (h.slot fun _ => outgoing_look _ .master _).goto _
  split at hst <;> cases hst
  · cases b with
    | initial => exact h.goto _
    | _ => trivial
  · rw [appendPhase_wait _ _ _ 0 _ 0] at h
    exact h.goto _

theorem AppendOk.register (h : AppendOk job s) (hpc : s.pc = .register k)
    (hst : registerWorkers job s k = some s') : AppendOk job s' := by
  rw [AppendOk, hpc] at h
  have h : SetUp job s job.workersCnt := h
  simp only [registerWorkers] at hst
  split at hst <;> cases hst
  · exact h.slot k (outgoing_look _ .master _) rfl ⟨rfl, rfl⟩ ⟨rfl, rfl, rfl, rfl⟩
  · exact ⟨h.given, h.counter, h.fresh, h.outgoing⟩

theorem outgoing_start (hin : InStage job .initialSeen w) (rows : Option Nat → List α) :
    (w.put .ready).outgoing rows = w.outgoing rows := by
  obtain ⟨-, hst, hpc, -⟩ := hin.ctl.of_initialSeen
  simp [outgoing, toSend, put, hst, hpc]

theorem AppendOk.transition (h : AppendOk job s) (hinv : Inv false job s)
    (happ : job.isSort = false) {ho : HandOver} (hpc : s.pc = .transition ho k)
    (hst : stateTransition job s ho k = some s') : AppendOk job s' := by
  have hfits := hinv.fits
  rw [hpc] at hfits
  cases ho with
  | ack => exact absurd (happ.symm.trans hfits) (by simp)
  | start =>
    rw [AppendOk, hpc] at h
    have h : SetUp job s job.workersCnt := h
    simp only [stateTransition] at hst
    by_cases hk : k < job.workersCnt
    · have hin := hinv.inStage (by rw [hpc]; rfl) hk
      rw [hpc] at hin
      simp only [stage, lt_irrefl, if_false] at hin
      rw [if_pos hk] at hst
      cases hst
      refine h.slot k ?_ rfl ⟨rfl, rfl⟩ ⟨rfl, rfl, rfl, rfl⟩
      split
      · exact outgoing_start (hin.look .master) _
      · rfl
    rw [if_neg hk] at hst
    cases hst
    obtain ⟨hmerge, hret, heof, hworks⟩ := h.fresh
    rw [show HandOver.next job s .start = .poll s.lastWorker by simp [HandOver.next, happ]]
    refine ⟨fun j => job.rows (some (initialPlan j)), fun j hj => ?_, fun j hj => ?_, by simp,
      ⟨hworks.ge, hworks.le.trans (workersCnt_le_subplans happ)⟩, ?_, ?_, fun he => ?_⟩
    · simp only [goto, hmerge, Merge.begin, h.outgoing j hj]
      simp
    · simp [goto, hmerge, Merge.begin] at hj
    · simp [goto, h.given, hworks]
    · simp only [goto, hret, h.given, givenRows, Multiset.coe_nil, zero_add, flatMap_map]
      exact sum_range_coe _ _
    · simp [goto, heof] at he

/-! ### Draining -/

/-- What one round of the fetch loop does. -/
inductive Polled (job : Job α) (s : State α) (i : Nat) : State α → Prop
  | skipped (h : s.merge.workersFinished i = true) : Polled job s i (s.goto (.poll i))
  | nothing (h : s.merge.workersFinished i = false) (hcells : (s.slots i).bufferQueue.cells = []) :
      Polled job s i ((s.set i (s.slots i).bufferQueueGetNoWait.2).goto (.poll i))
  | more {w : Slot α} (h : s.merge.workersFinished i = false)
      (hget : (s.slots i).bufferQueueGet = some (.last, w))
      (hleft : s.worksDone < job.subplans.length) :
      Polled job s i ((s.set i w).goto (.waitState i))
  | finished {w : Slot α} (h : s.merge.workersFinished i = false)
      (hget : (s.slots i).bufferQueueGet = some (.last, w))
      (hleft : ¬ s.worksDone < job.subplans.length) :
      Polled job s i { s.set i w with merge := s.merge.finish i, pc := .poll i }
  | tuple {w : Slot α} {t : α} (h : s.merge.workersFinished i = false)
      (hget : (s.slots i).bufferQueueGet = some (.tuple t, w)) :
      Polled job s i ({ s.set i w with lastWorker := i }.yield t)

/-- The fetch loop ends, or looks at the next worker. -/
theorem pollStep_cases {n : Nat} (hworkers : s.workers = range n) (i : Int)
    (hst : pollStep job s i = some s') :
    ((∀ j < n, s.merge.workersFinished j = true) ∧ s' = { s with eof := true, pc := .idle }) ∨
      (nextWorker i n < n ∧ Polled job s (nextWorker i n) s') := by
  have hlen : s.workers.length = n := by rw [hworkers, length_range]
  simp only [pollStep, hlen] at hst
  split at hst
  next hall =>
    rw [some.injEq] at hst
    exact .inl ⟨by simpa using hall, hst.symm⟩
  next hall =>
    have hn : 0 < n := by
      by_contra h0
      obtain rfl : n = 0 := by omega
      simp at hall
    have hlt := nextWorker_lt i hn
    refine .inr ⟨hlt, ?_⟩
    have hget : s.workers[nextWorker i n]? = some (nextWorker i n) := by
      rw [hworkers, getElem?_range hlt]
    simp only [hget, bufferQueueGetNoWait_fst] at hst
    split at hst
    next hfin =>
      cases hst
      exact .skipped hfin
    next hfin =>
      have hfin : s.merge.workersFinished (nextWorker i n) = false := by simpa using hfin
      cases hcells : (s.slots (nextWorker i n)).bufferQueue.cells with
      | nil =>
        simp only [hcells, head?_nil] at hst
        cases hst
        exact .nothing hfin hcells
      | cons cell rest =>
        have hqget := bufferQueueGet_of_cells hcells
        simp only [hcells, head?_cons] at hst
        cases cell with
        | last =>
          simp only at hst
          split at hst <;> cases hst
          · exact .more hfin hqget ‹_›
          · exact .finished hfin hqget ‹_›
        | tuple t =>
          cases hst
          exact .tuple hfin hqget

/-- One round of the fetch loop. -/
theorem Polled.appendOk (hp : Polled job s k s') (hk : k < job.workersCnt)
    (h : Draining job s none left) (heof : s.eof = true → s.merge.workersFinished k = true) :
    AppendOk job s' := by
  have hnot : s.merge.workersFinished k = false → ∀ {p : Prop}, s.eof = true → p :=
    fun hf p he => by simp [heof he] at hf
  cases hp with
  | skipped hf => exact AppendData.goto (p := .draining none) ⟨left, h⟩ _
  | nothing hf hcells =>
    refine AppendData.goto (p := .draining none) ⟨left, h.slot k ?_⟩ _
    rw [bufferQueueGetNoWait_snd]
    simp [outgoing, toSend, hcells]
  | @more w hf hget hless =>
    rcases cell_of_outgoing (h.outgoing k hk) (by simp [hf]) hget with ⟨hnil, -, hout⟩ | ⟨t, l, -, hc, -⟩
    swap
    · cases hc
    refine ⟨left, fun j hj => ?_, h.done, fun j hj => ?_, h.works, h.given, h.total,
      fun he => hnot hf he⟩
    · simp only [State.goto, State.set]
      by_cases hjk : j = k
      · subst hjk
        simp [hout]
      · rw [update_of_ne hjk, h.outgoing j hj]
        simp [Ne.symm hjk]
    · cases hj
      exact ⟨hf, hnil, hless⟩
  | @finished w hf hget hless =>
    rcases cell_of_outgoing (h.outgoing k hk) (by simp [hf]) hget with ⟨hnil, -, hout⟩ | ⟨t, l, -, hc, -⟩
    swap
    · cases hc
    refine ⟨left, fun j hj => ?_, fun j hj => ?_, by simp, h.works, h.given, h.total,
      fun he => hnot hf he⟩
    · simp only [State.set, Merge.finish]
      by_cases hjk : j = k
      · subst hjk
        simp [hout]
      · have hout := h.outgoing j hj
        simpa [update_of_ne hjk] using hout
    have hj : update s.merge.workersFinished k true j = true := hj
    by_cases hjk : j = k
    · subst hjk
      exact ⟨hnil, not_lt.mp hless⟩
    · rw [update_of_ne hjk] at hj
      exact h.done j hj
  | @tuple w t hf hget =>
    rcases cell_of_outgoing (h.outgoing k hk) (by simp [hf]) hget with ⟨-, hc, -⟩ | ⟨t', l, hcons, hc, hout⟩
    · cases hc
    obtain rfl : t = t' := by simpa using hc
    refine ⟨update left k l, fun j hj => ?_, fun j hj => ?_, by simp, h.works,
      h.given, ?_, fun he => hnot hf he⟩
    · simp only [State.yield, State.set]
      by_cases hjk : j = k
      · subst hjk
        simp [hout, hf]
      · rw [update_of_ne hjk, update_of_ne hjk]
        exact h.outgoing j hj
    · have hjk : j ≠ k := by
        rintro rfl
        have hj : s.merge.workersFinished j = true := hj
        simp [hf] at hj
      rw [update_of_ne hjk]
      exact h.done j hj
    have htotal := h.total
    rw [← cons_sum_update hk hcons] at htotal
    rw [Multiset.add_cons, ← Multiset.cons_add] at htotal
    refine Eq.trans ?_ htotal
    congr 1
    rw [Multiset.cons_coe, Multiset.coe_eq_coe]
    exact perm_append_singleton t s.returned

theorem AppendOk.poll (h : AppendOk job s) (hinv : Inv false job s) {i : Int}
    (hpc : s.pc = .poll i) (hst : pollStep job s i = some s') : AppendOk job s' := by
  obtain ⟨-, hworkers, -⟩ := hinv.located hpc rfl
  rw [AppendOk, hpc] at h
  obtain ⟨left, hd⟩ := h
  rcases pollStep_cases hworkers i hst with ⟨hall, rfl⟩ | ⟨hlt, hp⟩
  · exact ⟨left, { hd with eof := fun _ => hall }⟩
  · exact hp.appendOk hlt hd fun he => hd.eof he _ hlt

theorem AppendOk.waitState (h : AppendOk job s) (hpc : s.pc = .waitState i)
    (hst : waitForEnd s i = some s') : AppendOk job s' := by
  rw [AppendOk, hpc] at h
  simp only [waitForEnd] at hst
  split at hst
  · cases hst
  split_ifs at hst
  · cases hst
    exact (AppendData.slot (p := .draining (some i)) h fun _ => outgoing_look _ .master _).goto _
  · cases hst
    trivial

section

variable (h : AppendOk job s) (hinv : Inv false job s)
include h hinv

theorem AppendOk.assign (hpc : s.pc = .assign i) (hst : assignPlan job s i = some s') :
    AppendOk job s' := by
  obtain ⟨-, hworkers, -⟩ := hinv.located hpc rfl
  rw [AppendOk, hpc] at h
  obtain ⟨left, hd⟩ := h
  obtain ⟨hrun, hnil, hless⟩ := hd.busy i rfl
  simp only [assignPlan] at hst
  split at hst
  · cases hst
  rename_i k hk
  obtain ⟨rfl, hlt⟩ := workers_getElem? hworkers hk
  have hwalk : walkPlans s.worksDone (range job.subplans.length) 0
      = (some s.worksDone, s.worksDone) := walkPlans_range (Nat.zero_le _) (by omega)
  simp only [hwalk] at hst
  cases hst
  have hin := hinv.inStage (by rw [hpc]; rfl) hlt
  rw [hpc] at hin
  simp only [stage, if_true] at hin
  have hwpc := hin.ctl.of_endSeen.2.2.1
  have hcells : (s.slots k).bufferQueue.cells = [] := by
    have hout := hd.outgoing k hlt
    rw [if_pos (.inr rfl)] at hout
    exact (append_eq_nil_iff.mp hout).1
  obtain ⟨hle, hle'⟩ := hd.works
  refine ⟨update left k (job.rows (some s.worksDone)), fun j hj => ?_, fun j hj => ?_,
    by simp, ⟨by simp only; omega, by simp only; omega⟩, ?_, ?_, fun he => ?_⟩
  · by_cases hjk : j = k
    · subst hjk
      simp [State.set, Slot.outgoing, Slot.toSend, Slot.put, Slot.bufferQueueSetStop,
        bufferQueueSetStop, hcells, hwpc]
    have hout := hd.outgoing j hj
    simp only [State.set, update_of_ne hjk]
    simpa [Ne.symm hjk] using hout
  · by_cases hjk : j = k
    · subst hjk
      simp at hj
    simp only [update_of_ne hjk] at hj ⊢
    have hdone := hd.done j hj
    exact ⟨hdone.1, by omega⟩
  · simp only [hd.given, toList_some, append_assoc]
    congr 1
    rw [show s.worksDone + 1 - job.workersCnt = (s.worksDone - job.workersCnt) + 1 by omega,
      range'_concat]
    simp
    omega
  · have hsum := sum_update (fun l : List α => (l : Multiset α)) left
      (job.rows (some s.worksDone)) (Finset.mem_range.mpr hlt)
    simp only [registered] at hsum
    rw [hnil, Multiset.coe_nil, add_zero] at hsum
    simp only [State.set, toList_some, givenRows, flatMap_append, ← Multiset.coe_add]
    rw [hsum, ← add_assoc, hd.total]
    simp [givenRows]
  · have := hd.eof he k hlt
    simp [hrun] at this

/-! ### Every step -/

section

variable (happ : job.isSort = false)
include happ

theorem AppendOk.master (hsup : Supplied job s)
    (hst : masterStep job s = some s') : AppendOk job s' := by
  have hfits := hinv.fits
  have hbounded := hinv.bounded
  rcases hsup with hwork | ⟨i, hpc, -⟩
  swap
  · simp only [masterStep, hpc] at hst
    rw [hpc] at hbounded
    exact h.create happ hbounded hpc hst
  rw [masterStep] at hst
  revert hst
  cases hpc : s.pc with
  | wait b k c => exact h.wait hpc
  | register k => exact h.register hpc
  | transition ho k => exact h.transition hinv happ hpc
  | poll i => exact h.poll hinv hpc
  | waitState i => exact h.waitState hpc
  | assign i => exact h.assign hinv hpc
  | idle => simp
  | distribute | distributeLast j | prepare cw | getTuple | fetch stup =>
    rw [hpc] at hfits
    exact absurd (happ.symm.trans hfits) (by simp)
  | _ => simp [hpc, MasterPc.working] at hwork

/-- A worker, or the postmaster for it, moves. -/
theorem AppendOk.slot (hunused : s.slots i ≠ unused)
    (hsend : ∀ g, g.Settled job → InStage job g (s.slots i) →
      w.outgoing job.rows = (s.slots i).outgoing job.rows) : AppendOk job (s.set i w) := by
  have hi : i < job.workersCnt := by
    by_contra hge
    exact hunused (hinv.beyond i (by omega))
  refine AppendData.slot h fun hph => ?_
  rcases hinv.path rfl with hn | hf
  · exact hsend _ (appendPhase_settled happ hph i) (hinv.inStage hn hi)
  · simp [State.set, hf, MasterPc.appendPhase] at hph

theorem AppendOk.event (hsup : Supplied job s) {e : Event}
    (he : e.drains = true) (hst : step job s e = some s') : AppendOk job s' := by
  cases step_occurs hst with
  | master hst => exact h.master hinv happ hsup hst
  | fetch hpc =>
    rw [AppendOk, hpc] at h
    rw [happ]
    exact h.goto _
  | worker hw' =>
    refine h.slot hinv happ (fun hu => ?_) fun g hg hin => outgoing_slaveStep hin hg hw'
    simp [hu, unused, slaveStep] at hw'
  | fork hw' =>
    refine h.slot hinv happ (fun hu => ?_) fun g hg hin => outgoing_forkSlave hin hw'
    simp [hu, unused, forkSlave] at hw'
  | _ => simp [Event.drains] at he

end

end

theorem appendOk_init (job : Job α) (freeSems : Nat) : AppendOk job (init job freeSems) :=
  ⟨rfl, rfl, ⟨rfl, rfl, rfl, rfl⟩, fun j hj => absurd hj (Nat.not_lt_zero j)⟩

section

variable (h : AppendOk job s) (hinv : Inv false job s) (happ : job.isSort = false)
  (hsup : Supplied job s)
include h hinv happ hsup

/-- A node that has returned an empty slot is in its fetch loop, or between two calls. -/
theorem AppendOk.of_eof (heof : s.eof = true) :
    (s.pc = .idle ∨ ∃ i, s.pc = .poll i) ∧ ∃ left, Draining job s none left := by
  have hfits := hinv.fits
  have hbounded := hinv.bounded
  have hfresh : ∀ i, ¬ SetUp job s i := fun i hd => by simp [hd.fresh.2.2.1] at heof
  have hbusy : ∀ i < job.workersCnt, ¬ ∃ left, Draining job s (some i) left := by
    rintro i hi ⟨left, hd⟩
    have hrun := (hd.busy i rfl).1
    rw [hd.eof heof i hi] at hrun
    cases hrun
  simp only [AppendOk] at h
  rcases hsup with hwork | ⟨i, hpc, -⟩
  swap
  · rw [hpc] at h
    exact absurd h (hfresh _)
  cases hpc : s.pc with
  | wait b k c =>
    rw [hpc] at h hfits hwork
    cases b with
    | initial => exact absurd h (hfresh _)
    | finished => exact absurd (happ.symm.trans hfits) (by simp)
    | _ => simp [MasterPc.working] at hwork
  | register k => rw [hpc] at h; exact absurd h (hfresh _)
  | transition ho k =>
    rw [hpc] at h hfits
    cases ho with
    | start => exact absurd h (hfresh _)
    | ack => exact absurd (happ.symm.trans hfits) (by simp)
  | idle => rw [hpc] at h; exact ⟨.inl rfl, h⟩
  | poll i => rw [hpc] at h; exact ⟨.inr ⟨i, rfl⟩, h⟩
  | waitState i | assign i =>
    rw [hpc] at h hbounded
    exact absurd h (hbusy i hbounded)
  | distribute | distributeLast j | prepare cw | getTuple | fetch stup =>
    rw [hpc] at hfits
    exact absurd (happ.symm.trans hfits) (by simp)
  | _ => simp [hpc, MasterPc.working] at hwork

/-- The plans that have been given out when the node says that there is no more, and what
has been returned. -/
theorem AppendOk.all_given (hcnt : 0 < job.workersCnt) (heof : s.eof = true) :
    s.given = (range job.workersCnt).map initialPlan ++
        range' job.workersCnt (job.subplans.length - job.workersCnt) ∧
      s.returned.Perm (givenRows job s.given) := by
  obtain ⟨-, left, hd⟩ := h.of_eof hinv happ hsup heof
  have hall := hd.eof heof
  have hworks : s.worksDone = job.subplans.length :=
    Nat.le_antisymm hd.works.2 (hd.done 0 (hall 0 hcnt)).2
  refine ⟨by rw [hd.given, hworks], ?_⟩
  have hsum : ∑ j ∈ Finset.range job.workersCnt, (left j : Multiset α) = 0 :=
    Finset.sum_eq_zero fun j hj => by simp [(hd.done j (hall j (Finset.mem_range.mp hj))).1]
  have htotal := hd.total
  rw [hsum, add_zero, Multiset.coe_eq_coe] at htotal
  exact htotal

end
end PrlPg
