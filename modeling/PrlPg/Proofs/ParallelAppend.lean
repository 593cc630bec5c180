/-
Which subplans a parallel append runs.

However the workers are scheduled, a parallel append gets to its end, and by then it has
returned what the plans it gave out return.  Every worker gets a plan from the set-up
loop, and the counter of that loop gives the first worker plan 0 and all the others plan
1; the plans from `workersCnt` on are handed out one after the other.  So the plans given
are all the subplans, each once, exactly when there are at most two workers.  With three
or more, plan 1 is run again for every worker after the second and the plans in between
are not run at all.

That the fetch loop gets on needs a look at several of its rounds: the next worker in
turn may have nothing in its queue.  `polls_to` follows the round robin to one that has.
-/
import PrlPg.Proofs.AppendData

namespace PrlPg

open List Run Function

variable {α : Type*} {job : Job α} {s s' : State α} {n : Nat}

/-! ### The round robin -/

/-- How many rounds it takes from position `i` to get to worker `j`. -/
def distance (n : Nat) (i : Int) (j : Nat) : Nat := (((j : Int) - (i + 1)) % n).toNat

theorem nextWorker_eq (hn : 0 < n) (i : Int) : (nextWorker i n : Int) = (i + 1) % n :=
  Int.toNat_of_nonneg (Int.emod_nonneg _ (by omega))

/-- The next worker is `j`, or one round less is left. -/
theorem distance_next (i : Int) {j : Nat} (hj : j < n) :
    nextWorker i n = j ∨ distance n (nextWorker i n) j + 1 = distance n i j := by
  have hn : 0 < n := by omega
  have hnext := nextWorker_eq hn i
  have hnonneg : 0 ≤ ((j : Int) - (i + 1)) % n := Int.emod_nonneg _ (by omega)
  have hlt : ((j : Int) - (i + 1)) % n < n := Int.emod_lt_of_pos _ (by omega)
  by_cases h0 : ((j : Int) - (i + 1)) % n = 0
  · left
    have hmod : (j : Int) % n = (i + 1) % n := Int.emod_eq_emod_iff_emod_sub_eq_zero.mpr h0
    have hjmod : (j : Int) % n = j := Int.emod_eq_of_lt (by omega) (by omega)
    omega
  right
  have hsub : ((j : Int) - (nextWorker i n + 1)) % n = ((j : Int) - (i + 1)) % n - 1 := by
    calc ((j : Int) - (nextWorker i n + 1)) % n
        = ((j : Int) - 1 - (i + 1) % n) % n := by rw [hnext]; congr 1; omega
      _ = ((j : Int) - 1 - (i + 1)) % n := by rw [Int.sub_emod, Int.emod_emod, ← Int.sub_emod]
      _ = (((j : Int) - (i + 1)) - 1) % n := by congr 1; omega
      _ = (((j : Int) - (i + 1)) % n - 1) % n := by rw [Int.emod_sub_emod]
      _ = ((j : Int) - (i + 1)) % n - 1 := Int.emod_eq_of_lt (by omega) (by omega)
  simp only [distance, hsub]
  omega

theorem sendWork_getNoWait {w : Slot α} (hcells : w.bufferQueue.cells = [])
    (rows : Option Nat → List α) : w.bufferQueueGetNoWait.2.sendWork rows = w.sendWork rows := by
  rw [Slot.bufferQueueGetNoWait_snd]
  simp [Slot.sendWork, hcells]

/-! ### Getting on -/

theorem GetsOn.after (hst : masterStep job s = some s') (hle : measure job s' ≤ measure job s)
    (h : GetsOn job s') : GetsOn job s := by
  obtain ⟨t, hrun, hlt⟩ := h
  exact ⟨t, Steps.head (e := Event.master) rfl hst hrun, hlt.trans_le hle⟩

/-- A round of the fetch loop that takes a cell is work done; a round that does not
changes nothing but the position. -/
theorem Polled.measure {i : Int} {k : Nat} (hp : Polled job s k s') (hpc : s.pc = .poll i)
    (hk : k < job.workersCnt) :
    measure job s' < measure job s ∨
      (s'.pc = .poll k ∧ s'.workers = s.workers ∧ s'.merge = s.merge ∧
        PrlPg.measure job s' ≤ PrlPg.measure job s ∧
        (∀ j, (s'.slots j).bufferQueue.cells = (s.slots j).bufferQueue.cells) ∧
        (s.merge.workersFinished k = true ∨ (s.slots k).bufferQueue.cells = [])) := by
  have hsame : ∀ w : Slot α, slotWork job (.poll i) w = w.sendWork job.rows :=
    fun w => slotWork_sends rfl w
  cases hp with
  | skipped hf =>
    refine .inr ⟨rfl, rfl, rfl, le_of_eq ?_, fun _ => rfl, .inl hf⟩
    simp only [PrlPg.measure, rank, loopWork, hpc, State.goto]
    rfl
  | nothing hf hcells =>
    refine .inr ⟨rfl, rfl, rfl, le_of_eq ?_, fun j => ?_, .inr hcells⟩
    · simp only [PrlPg.measure, rank, loopWork, hpc, State.goto, State.set]
      congr 3
      refine Finset.sum_congr rfl fun j _ => ?_
      rw [slotWork_sends rfl, slotWork_sends rfl]
      by_cases hjk : j = k
      · subst hjk
        rw [update_self, sendWork_getNoWait hcells]
      · rw [update_of_ne hjk]
    by_cases hjk : j = k
    · subst hjk
      simp [State.goto, State.set, Slot.bufferQueueGetNoWait_snd, hcells]
    · simp [State.goto, State.set, update_of_ne hjk]
  | @more w hf hget hless | @finished w hf hget hless =>
    have hwork : w.sendWork job.rows + 3 = _ := sendWork_get hget
    refine .inl (measure_set hk rfl (by simp [rank, hpc, State.goto, State.set])
      (by rw [hpc]; rfl) ?_)
    simp only [hsame, loopWork, hpc, State.goto]
    omega
  | @tuple w t hf hget =>
    have hwork : w.sendWork job.rows + 3 = _ := sendWork_get hget
    refine .inl (measure_set hk rfl (by simp [rank, hpc, State.set, State.yield])
      (by rw [hpc]; rfl) ?_)
    refine lt_of_le_of_lt (Nat.add_le_add_right (loopWork_idle rfl) _) ?_
    simp only [hsame, loopWork, hpc]
    omega

/-- The fetch loop always has a next round. -/
theorem pollStep_isSome (job : Job α) (hworkers : s.workers = range n) (i : Int) :
    ∃ t, pollStep job s i = some t := by
  have hlen : s.workers.length = n := by rw [hworkers, length_range]
  simp only [pollStep, hlen]
  by_cases hn : 0 < n
  · have hget : s.workers[nextWorker i n]? = some (nextWorker i n) := by
      rw [hworkers, getElem?_range (nextWorker_lt i hn)]
    simp only [hget]
    repeat' split
    all_goals exact ⟨_, rfl⟩
  · obtain rfl : n = 0 := by omega
    exact ⟨_, if_pos rfl⟩

/-- From a queue that is not empty a cell is taken in the end. -/
theorem polls_to {j : Nat} (hj : j < job.workersCnt) :
    ∀ (d : Nat) {s : State α} {i : Int}, distance job.workersCnt i j = d → s.pc = .poll i →
      s.workers = range job.workersCnt → s.merge.workersFinished j = false →
      (s.slots j).bufferQueue.cells ≠ [] → GetsOn job s := by
  intro d
  induction d using Nat.strong_induction_on with
  | _ d ih =>
    intro s i hd hpc hworkers hrun hcells
    obtain ⟨t, ht⟩ := pollStep_isSome job hworkers i
    have hst : masterStep job s = some t := by simp only [masterStep, hpc, ht]
    rcases pollStep_cases hworkers i ht with ⟨hall, -⟩ | ⟨hlt, hp⟩
    · simp [hall j hj] at hrun
    rcases hp.measure hpc hlt with hless | ⟨htpc, htw, htm, hle, htc, hskip⟩
    · exact GetsOn.to _ hst hless
    rcases distance_next i hj with hnext | hnext
    · rw [hnext] at hskip
      rcases hskip with hf | hempty
      · simp [hf] at hrun
      · exact absurd hempty hcells
    · exact GetsOn.after hst hle (ih _ (by omega) rfl htpc (htw.trans hworkers)
        (by rw [htm]; exact hrun) (by rw [htc]; exact hcells))

section

variable (h : Inv false job s)
include h

theorem Inv.poll_getsOn (hq : 0 < job.queueSize) (hdata : AppendOk job s)
    {i : Int} (hpc : s.pc = .poll i) : GetsOn job s := by
  obtain ⟨hn, (hworkers : s.workers = range job.workersCnt), -⟩ := h.located hpc rfl
  rw [AppendOk, hpc] at hdata
  obtain ⟨left, hd⟩ := hdata
  by_cases hall : ∀ j < job.workersCnt, s.merge.workersFinished j = true
  · refine GetsOn.to { s with eof := true, pc := .idle } ?_ (measure_goto rfl ?_ ?_ ?_)
    · simp only [masterStep, hpc, pollStep, hworkers, length_range]
      rw [if_pos (by simpa using hall)]
    · simp [rank, hpc]
    · rw [hpc]
      rfl
    · simp [loopWork, hpc]
  push Not at hall
  obtain ⟨j, hj, hrun⟩ := hall
  have hrun : s.merge.workersFinished j = false := by simpa using hrun
  have hout := hd.outgoing j hj
  rw [hrun, if_neg (by simp)] at hout
  rcases h.send_getsOn hq hj hn (by rw [hpc]; rfl) (by rw [hpc]; rfl)
    (by rw [hout]; exact message_ne_nil _) with hon | hcells
  · exact hon
  · exact polls_to hj _ rfl hpc hworkers hrun hcells

/-- A worker that is to get another plan has nothing left to do but say so. -/
theorem Inv.waitState_getsOn (hdata : AppendOk job s) {i : Nat}
    (hpc : s.pc = .waitState i) : GetsOn job s := by
  obtain ⟨hn, hworkers, -, (hi : i < job.workersCnt)⟩ := h.located hpc rfl
  have hget : s.workers[i]? = some i := by
    rw [hworkers]
    exact getElem?_range hi
  have hin := h.inStage hn hi
  rw [AppendOk, hpc] at hdata
  obtain ⟨left, hd⟩ := hdata
  have hout := hd.outgoing i hi
  rw [if_pos (.inr rfl)] at hout
  rw [hpc] at hin
  rcases InStage.canMove_sent hin hout with hm | hst
  · exact h.slot_getsOn hn hi (by rw [hpc]; rfl) hm
  refine GetsOn.to ((s.set i ((s.slots i).look .master)).goto (.assign i)) ?_ ?_
  · simp only [masterStep, hpc, waitForEnd, hget, hst, if_true]
  refine measure_set hi rfl (by simp [rank, hpc, State.goto, State.set]) (by rw [hpc]; rfl) ?_
  simp only [loopWork, hpc, State.goto]
  exact Nat.add_lt_add_right Nat.zero_lt_one _

theorem Inv.assign_getsOn (hdata : AppendOk job s) {i : Nat}
    (hpc : s.pc = .assign i) : GetsOn job s := by
  obtain ⟨-, hworkers, -, (hi : i < job.workersCnt)⟩ := h.located hpc rfl
  have hget : s.workers[i]? = some i := by
    rw [hworkers]
    exact getElem?_range hi
  rw [AppendOk, hpc] at hdata
  obtain ⟨left, hd⟩ := hdata
  obtain ⟨-, -, hless⟩ := hd.busy i rfl
  refine GetsOn.to _ (by simp only [masterStep, hpc, assignPlan, hget]; rfl) (measure_of_rank ?_)
  simp only [rank, hpc]
  omega

end

/-- Until it has returned an empty slot, an append that is not ended gets on. -/
theorem append_getsOn (hq : 0 < job.queueSize) (happ : job.isSort = false)
    (h : Inv false job s) (hdata : AppendOk job s) (hsup : Supplied job s)
    (heof : ¬ s.eof = true) : GetsOn job s := by
  have hfits := h.fits
  rcases hsup with hwork | ⟨i, hpc, hsem⟩
  swap
  · exact h.create_getsOn hpc fun hi => by omega
  cases hpc : s.pc with
  | wait b k c => exact h.wait_getsOn hpc fun hsort => by simp [happ] at hsort
  | register k => exact h.register_getsOn hpc
  | transition ho k => exact h.transition_getsOn hpc
  | poll i => exact h.poll_getsOn hq hdata hpc
  | waitState i => exact h.waitState_getsOn hdata hpc
  | assign i => exact h.assign_getsOn hdata hpc
  | idle => exact idle_getsOn hpc (by simpa using heof)
  | distribute | distributeLast j | prepare cw | getTuple | fetch stup =>
    rw [hpc] at hfits
    exact absurd (happ.symm.trans hfits) (by simp)
  | _ => simp [hpc, MasterPc.working] at hwork

/-! ### Which plans -/

/-- The plans given out when all is done are all the plans, each once, exactly when there
are at most two workers. -/
theorem given_perm_iff {n p : Nat} (hle : n ≤ p) :
    ((range n).map initialPlan ++ range' n (p - n)).Perm (range p) ↔ n ≤ 2 := by
  constructor
  · intro hperm
    by_contra hn
    have hnodup := (nodup_append.mp (hperm.nodup_iff.mpr nodup_range)).1
    have hinj := inj_on_of_nodup_map hnodup
    have h12 : 1 = 2 := hinj (mem_range.mpr (by omega)) (mem_range.mpr (by omega)) rfl
    omega
  intro hn
  have hmap : (range n).map initialPlan = range n := by
    refine (map_congr_left fun i hi => ?_).trans (map_id _)
    have hi := mem_range.mp hi
    simp only [initialPlan, id]
    omega
  have hsplit : range p = range n ++ range' n (p - n) := by
    have happend := range'_append_1 (s := 0) (m := n) (n := p - n)
    rw [zero_add, Nat.add_sub_cancel' hle] at happend
    rw [range_eq_range', range_eq_range', happend]
  rw [hmap, hsplit]

/-- All the plans together return what all the subplans return. -/
theorem givenRows_range (job : Job α) :
    givenRows job (range job.subplans.length) = job.subplans.flatten := by
  rw [givenRows, flatMap_def]
  congr 1
  refine ext_getElem (by simp) fun i hi hi' => ?_
  simp [Job.rows, hi']

/-- The serial branch returns the tuples of the subplans one after the other. -/
theorem serialAppendNext_eq (plans : List (List α)) :
    (serialAppendNext plans = none ∧ plans.flatten = []) ∨
      ∃ t plans', serialAppendNext plans = some (t, plans') ∧
        plans.flatten = t :: plans'.flatten := by
  induction plans with
  | nil => exact .inl ⟨rfl, rfl⟩
  | cons rows plans ih =>
    cases rows with
    | nil => simpa [serialAppendNext] using ih
    | cons t rows => exact .inr ⟨t, rows :: plans, rfl, rfl⟩

theorem serialAppend_of_le {calls : Nat} : ∀ {plans : List (List α)}, plans.flatten.length ≤ calls →
      serialAppend calls plans = plans.flatten := by
  induction calls with
  | zero =>
    intro plans hle
    exact (length_eq_zero_iff.mp (Nat.le_zero.mp hle)).symm
  | succ calls ih =>
    intro plans hle
    rcases serialAppendNext_eq plans with ⟨hnext, hflat⟩ | ⟨t, plans', hnext, hflat⟩
    · rw [serialAppend, hnext, hflat]
    rw [hflat, length_cons] at hle
    rw [serialAppend, hnext, hflat]
    exact congrArg _ (ih (by omega))

/-! ### Runs in which tuples are fetched -/

/-- What holds in them. -/
structure AppendRun (job : Job α) (s : State α) : Prop where
  inv : Inv false job s
  data : AppendOk job s
  supplied : Supplied job s

theorem AppendRun.event (h : AppendRun job s) (hq : 0 < job.queueSize) (happ : job.isSort = false)
    {e : Event} (he : e.drains = true) (hst : step job s e = some s') : AppendRun job s' := by
  have hinv' := h.inv.event hq (fun _ => Drain.quiet (s := s) he) hst
  exact ⟨hinv', h.data.event h.inv happ h.supplied he hst, h.supplied.event hinv' he hst⟩

theorem appendRun_init {freeSems : Nat} (hsem : 3 * job.workersCnt ≤ freeSems) :
    AppendRun job (init job freeSems) :=
  ⟨inv_init false job freeSems, appendOk_init job freeSems, supplied_init hsem⟩

theorem AppendRun.reaches_eof (h : AppendRun job s) (hq : 0 < job.queueSize)
    (happ : job.isSort = false) : ∃ t, Steps (step job) Drain s t ∧ t.eof = true :=
  Steps.reach_of_measure (measure job) (fun _ _ _ hu he hst => AppendRun.event hu hq happ he hst)
    (fun _ hu hne => append_getsOn hq happ hu.inv hu.data hu.supplied hne) s h

/-- The plans given out in the end. -/
def Job.allGiven (job : Job α) : List Nat :=
  (List.range job.workersCnt).map initialPlan ++
    List.range' job.workersCnt (job.subplans.length - job.workersCnt)

theorem AppendRun.of_eof (h : AppendRun job s) (happ : job.isSort = false)
    (hcnt : 0 < job.workersCnt) (heof : s.eof = true) :
    s.given = job.allGiven ∧ s.returned.Perm (givenRows job job.allGiven) := by
  obtain ⟨hgiven, hreturned⟩ := h.data.all_given h.inv happ h.supplied hcnt heof
  refine ⟨hgiven, ?_⟩
  rw [hgiven] at hreturned
  exact hreturned

theorem givenRows_allGiven (happ : job.isSort = false) (hle : job.workersCnt ≤ 2) :
    (givenRows job job.allGiven).Perm job.subplans.flatten := by
  have hperm := (given_perm_iff (workersCnt_le_subplans happ)).mpr hle
  rw [← givenRows_range]
  exact hperm.flatMap_right _

theorem workersCnt_append (happ : job.isSort = false) :
    job.workersCnt = min job.subplans.length job.level := by
  cases hnode : job.node with
  | sort outer => simp [Job.isSort, hnode] at happ
  | append l => simp only [Job.workersCnt, Job.subplans, hnode, min_def]

/--
Take any run of a parallel append without errors, with at least one subplan, any level and
any queue size, in which the caller fetches tuples.  When the node has returned an empty
slot, the plans given to workers are the subplans, each once, and what has been returned
is what the serial branch returns, up to order, exactly when there are at most two
workers: at most two subplans, or a level of at most two.  And until the node has returned
an empty slot it can be run until it does.
-/
theorem parallel_append_agrees_iff {job : Job α} (happ : job.isSort = false)
    (hplans : 0 < job.subplans.length) (hlevel : 0 < job.level) (hq : 0 < job.queueSize)
    {freeSems : Nat} (hsem : 3 * job.workersCnt ≤ freeSems) {s : State α}
    (h : Run.Steps (step job) Drain (init job freeSems) s) :
    (s.eof = true → ((s.given.Perm (List.range job.subplans.length) ∧
          s.returned.Perm job.subplans.flatten ∧
          ∀ calls, job.subplans.flatten.length ≤ calls →
            s.returned.Perm (serialAppend calls job.subplans)) ↔
        min job.subplans.length job.level ≤ 2)) ∧
      ∃ t, Run.Steps (step job) Drain s t ∧ t.eof = true := by
  have hcnt := workersCnt_append happ
  have hs : AppendRun job s := h.invariant (appendRun_init hsem)
    fun _ _ _ hu he hst => AppendRun.event hu hq happ he hst
  refine ⟨fun heof => ?_, hs.reaches_eof hq happ⟩
  obtain ⟨hgiven, hreturned⟩ := hs.of_eof happ (by omega) heof
  have hiff := given_perm_iff (workersCnt_le_subplans happ)
  rw [hcnt] at hiff
  rw [hgiven, Job.allGiven, hcnt]
  refine ⟨fun hall => hiff.mp hall.1, fun hle => ?_⟩
  have hflat := hreturned.trans (givenRows_allGiven happ (by rw [hcnt]; exact hle))
  refine ⟨hiff.mpr hle, hflat, fun calls hcalls => ?_⟩
  rw [serialAppend_of_le hcalls]
  exact hflat

/-! ### Runs -/

/-- An append of the given plans. -/
def appendNats (subplans : List (List Nat)) (level queueSize : Nat) : Job Nat :=
  { node := .append subplans, level, queueSize, localSort := fun _ l => l,
    comparetup := compareNat }

/-- An append on which every round of a schedule asks for a tuple. -/
def appended (subplans : List (List Nat)) (level rounds : Nat) : State Nat :=
  Run.follow (step (appendNats subplans level 1)) (init (appendNats subplans level 1) 9)
    (List.replicate rounds (.fetch :: inTurn level 1)).flatten

theorem appended_run (subplans : List (List Nat)) (level rounds : Nat) :
    Steps (step (appendNats subplans level 1)) Drain (init (appendNats subplans level 1) 9)
      (appended subplans level rounds) := by
  refine steps_of_follow _ fun u e he => ?_
  simp only [mem_flatten, mem_replicate] at he
  obtain ⟨l, ⟨-, rfl⟩, he⟩ := he
  rcases mem_cons.mp he with rfl | he
  · rfl
  · exact drain_inTurn _ _ u e he

/-- Two workers run three plans. -/
theorem parallel_append_agrees_iff_twoWorkers : (appended [[1, 2], [3], [4]] 2 80).eof = true ∧
      (appended [[1, 2], [3], [4]] 2 80).given.Perm (List.range 3) ∧
      (appended [[1, 2], [3], [4]] 2 80).returned.Perm [1, 2, 3, 4] := by
  have heof : (appended [[1, 2], [3], [4]] 2 80).eof = true := by decide +kernel
  have hall := ((parallel_append_agrees_iff rfl (by decide) (by decide) (by decide) (by decide)
    (appended_run [[1, 2], [3], [4]] 2 80)).1 heof).mpr (by decide)
  exact ⟨heof, hall.1, hall.2.1⟩

/-- Three workers run plan 1 twice and plan 2 never. -/
theorem appended_runs_plan_twice : Run.Steps (step (appendNats [[1], [2], [3]] 3 1)) Drain
        (init (appendNats [[1], [2], [3]] 3 1) 9) (appended [[1], [2], [3]] 3 80) ∧
      (appended [[1], [2], [3]] 3 80).eof = true ∧
      (appended [[1], [2], [3]] 3 80).given = [0, 1, 1] ∧
      (appended [[1], [2], [3]] 3 80).returned.Perm [1, 2, 2] ∧
      ¬ (appended [[1], [2], [3]] 3 80).returned.Perm
        (serialAppend 4 (appendNats [[1], [2], [3]] 3 1).subplans) :=
  ⟨appended_run _ _ _, by decide +kernel, by decide +kernel, by decide +kernel, by decide +kernel⟩

/-- Whenever an append waits for its caller, what it has returned and some rest are the rows of
the plans given out so far, each plan as often as it was given out. -/
theorem parallel_append_returns_part (happ : job.isSort = false) (hq : 0 < job.queueSize)
    {freeSems : Nat} (hsem : 3 * job.workersCnt ≤ freeSems)
    (h : Run.Steps (step job) Drain (init job freeSems) s) (hidle : s.pc = .idle) :
    ∃ rest, (s.returned ++ rest).Perm (givenRows job s.given) := by
  have hs : AppendRun job s := h.invariant (appendRun_init hsem)
    fun _ _ _ hu he hst => AppendRun.event hu hq happ he hst
  have hdata := hs.data
  rw [AppendOk, hidle] at hdata
  obtain ⟨left, hd⟩ := hdata
  refine ⟨(∑ j ∈ Finset.range job.workersCnt, (left j : Multiset α)).toList, ?_⟩
  rw [← Multiset.coe_eq_coe, ← Multiset.coe_add, Multiset.coe_toList, hd.total]

/-- Two of the three rows of the first two plans. -/
theorem parallel_append_returns_part_two :
    let s := appended [[1, 2], [3], [4]] 2 14
    s.pc = .idle ∧ s.returned = [1, 3] ∧ s.given = [0, 1] ∧ ∃ rest,
      (s.returned ++ rest).Perm (givenRows (appendNats [[1, 2], [3], [4]] 2 1) s.given) := by
  have hidle : (appended [[1, 2], [3], [4]] 2 14).pc = .idle := by decide +kernel
  exact ⟨hidle, by decide +kernel, by decide +kernel,
    parallel_append_returns_part rfl (by decide) (by decide) (appended_run _ _ _) hidle⟩

end PrlPg
