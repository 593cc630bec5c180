/-
Which workers of a Sort node are left when it is ended.

`ExecEndSort` takes down the workers of the job whose id is in the tuplesort at hand, and it
does that well: they have been told to end, have been seen dead and are off both lists
(`Inv.gone_of_closed`).  The workers of a job that was forgotten in between are still on the lists,
because nothing but their own processes has touched their records since
(`Inv.listed_of_idle`).  So it all depends on whether a rescan has made the node sort again,
which the calls alone decide.
-/
import PrlPg.Executor.SortLife
import PrlPg.Proofs.Invariant

namespace PrlPg

open Option List Run SortLife

variable {α : Type*}

/-- The worker was given `PRL_WORK_TYPE_END`, the master has seen it in state `DEAD`, and
neither of its records is on a list. -/
structure Slot.Gone (w : Slot α) : Prop where
  workType : w.workType = .ended
  state : w.state = .dead
  awaited : w.seen = true
  workersList : w.inWorkersList = false
  jobsList : w.inJobsList = false

section Job

variable {job : Job α} {s s' : State α}

theorem Inv.gone_of_closed (h : Inv true job s) (hpc : s.pc = .closed) {i : Nat} (hi : i < job.workersCnt) :
    (s.slots i).Gone := by
  have hst := h.stages (by rw [hpc]; rfl) i hi
  rw [hpc] at hst
  rcases hst with hin | ⟨-, hfail, -⟩
  swap
  · simp [stage, Stage.mayFail] at hfail
  have hctl := hin.ctl
  have hwl := hin.workersList
  have hjl := hin.jobsList
  generalize s.slots i = w at hctl hwl hjl ⊢
  cases w
  cases hctl with
  | sends hg _ => cases hg
  | released => exact ⟨rfl, rfl, rfl, hwl, hjl⟩

theorem Inv.listed_of_idle (h : Inv true job s) (hpc : s.pc = .idle) {i : Nat}
    (hi : i < job.workersCnt) : (s.slots i).inWorkersList = true := by
  have hst := h.stages (by rw [hpc]; rfl) i hi
  rw [hpc] at hst
  rcases hst with hin | ⟨-, -, hbroken⟩
  · exact hin.workersList
  · exact hbroken.workersList

theorem step_apart_pc {e : Event} (he : e.apart = true) (hst : step job s e = some s') :
    s'.pc = s.pc := by
  cases e with
  | worker i | fork i | fail i =>
    obtain ⟨w, -, rfl⟩ := map_eq_some_iff.mp hst
    rfl
  | _ => simp [Event.apart] at he

end Job

/-! ### The life of a node -/

section Life

variable {plan : SortPlan α} {t t' : SortLife α}

/-- The forgotten jobs are as they were left but for what their processes did, and the node
has a tuplesort when it has sorted. -/
structure LifeInv (plan : SortPlan α) (t : SortLife α) : Prop where
  past : ∀ k s, t.past[k]? = some s → Inv true (plan.jobs k) s ∧ s.pc = .idle
  current : ∀ s, t.current = some s → Inv true (plan.jobs t.past.length) s
  sortDone : t.flags.sortDone = t.current.isSome

theorem lifeInv_init (plan : SortPlan α) (freeSems : Nat) :
    LifeInv plan (SortLife.init freeSems) := by
  refine ⟨fun k s h => ?_, fun s h => ?_, rfl⟩
  · simp [SortLife.init] at h
  · simp [SortLife.init] at h

variable {s : State α}

theorem SortLife.pc_of_resting (h : t.resting = true) (hs : t.current = some s) : s.pc = .idle := by
  simp only [resting, hs, Bool.and_eq_true] at h
  obtain ⟨-, hpc⟩ := h
  split at hpc
  · assumption
  · cases hpc

theorem SortLife.pc_of_ended (h : t.ended = true) (hs : t.current = some s) : s.pc = .closed := by
  simp only [ended, hs] at h
  split at h
  · assumption
  · cases h

theorem LifeInv.setCurrent (h : LifeInv plan t)
    (hs : Inv true (plan.jobs t.past.length) s) (hcur : t.current.isSome = true) :
    LifeInv plan { t with current := some s } := by
  refine ⟨h.past, fun u hu => ?_, by rw [h.sortDone, hcur]; rfl⟩
  cases hu
  exact hs

/-- A call without a tuplesort. -/
theorem LifeInv.call_none (h : LifeInv plan t) (hcur : t.current = none) (c : SortCall) :
    LifeInv plan (t.call plan c) ∧ (t.call plan c).past = t.past ∧
      t.flags.forgets plan.randomAccess c = false := by
  have hdone : t.flags.sortDone = false := by rw [h.sortDone, hcur]; rfl
  cases c with
  | fetch =>
    simp only [call, hcur, SortFlags.call, hdone]
    refine ⟨⟨h.past, fun s hs => ?_, rfl⟩, trivial, rfl⟩
    cases hs
    exact inv_init true _ _
  | setBound bounded bound => refine ⟨⟨h.past, h.current, h.sortDone⟩, rfl, rfl⟩
  | rescan chgParam =>
    have hno : t.flags.forgets plan.randomAccess (.rescan chgParam) = false := by
      simp [SortFlags.forgets, hdone]
    simp only [call, hcur, SortFlags.call, hno, Bool.false_eq_true, if_false]
    exact ⟨⟨h.past, fun s hs => by simp at hs, hdone⟩, trivial, trivial⟩

/-- A call with a tuplesort at hand. -/
theorem LifeInv.call_some (h : LifeInv plan t) (hsort : ∀ k, (plan.jobs k).isSort = true)
    (hq : ∀ k, 0 < (plan.jobs k).queueSize) (hcur : t.current = some s)
    (hpc : s.pc = .idle) (c : SortCall) :
    LifeInv plan (t.call plan c) ∧ (t.call plan c).past =
        if t.flags.forgets plan.randomAccess c then t.past ++ [s] else t.past := by
  have hinv := h.current s hcur
  have hdone : t.flags.sortDone = true := by rw [h.sortDone, hcur]; rfl
  cases c with
  | fetch =>
    have hst : step (plan.jobs t.past.length) s .fetch = some (s.goto .getTuple) := by
      simp [step, hpc, hsort]
    have hnext := hinv.event (hq _) (by simp) hst
    simp only [call, hcur, SortFlags.call, hdone]
    refine ⟨⟨h.past, fun u hu => ?_, hdone⟩, rfl⟩
    cases hu
    exact hnext
  | setBound bounded bound => exact ⟨⟨h.past, h.current, h.sortDone⟩, rfl⟩
  | rescan chgParam =>
    by_cases hf : t.flags.forgets plan.randomAccess (.rescan chgParam) = true
    · simp only [call, hcur, SortFlags.call, hf, if_true]
      refine ⟨⟨fun k u hu => ?_, fun u hu => by simp at hu, rfl⟩, trivial⟩
      -- the job that is forgotten is the last of the past
      rw [List.getElem?_append] at hu
      split at hu
      · exact h.past k u hu
      rename_i hk
      obtain ⟨hlt, hlast⟩ := List.getElem?_eq_some_iff.mp hu
      have hk' : k = t.past.length := by
        simp only [List.length_singleton] at hlt
        omega
      subst hk'
      simp only [List.getElem_singleton] at hlast
      subst hlast
      exact ⟨hinv, hpc⟩
    rw [Bool.not_eq_true] at hf
    simp only [call, hcur, SortFlags.call, hf, Bool.false_eq_true, if_false]
    refine ⟨⟨h.past, fun u hu => ?_, hdone⟩, trivial⟩
    cases hu
    exact hinv

theorem SortLife.call_flags (plan : SortPlan α) (t : SortLife α) (c : SortCall) :
    (t.call plan c).flags = t.flags.call plan.randomAccess c := by
  cases c <;> cases hcur : t.current <;> simp only [call, hcur]
  split <;> rfl

/-- What an event does to the flags and to the jobs that were forgotten. -/
structure Accounts (plan : SortPlan α) (e : LifeEvent) (t t' : SortLife α) : Prop where
  flags : t'.flags = (e.call?.map (t.flags.call plan.randomAccess)).getD t.flags
  past : t'.past = [] ↔ t.past = [] ∧ (e.call?.map (t.flags.forgets plan.randomAccess)).getD false = false

theorem LifeInv.event (h : LifeInv plan t) (hsort : ∀ k, (plan.jobs k).isSort = true)
    (hq : ∀ k, 0 < (plan.jobs k).queueSize) {e : LifeEvent} (hst : lifeStep plan t e = some t') :
    LifeInv plan t' ∧ Accounts plan e t t' := by
  have hcurrent : ∀ {s s' : State α} {e : Event}, t.current = some s →
      step (plan.jobs t.past.length) s e = some s' → LifeInv plan { t with current := some s' } :=
    fun hcur hs => h.setCurrent ((h.current _ hcur).event (hq _) (by simp) hs) (by rw [hcur]; rfl)
  cases e with
  | call c =>
    simp only [lifeStep] at hst
    split_ifs at hst with hrest
    cases hst
    cases hcur : t.current with
    | none =>
      obtain ⟨hinv, hpast, hno⟩ := h.call_none hcur c
      refine ⟨hinv, t.call_flags plan c, ?_⟩
      simp [LifeEvent.call?, hpast, hno]
    | some s =>
      obtain ⟨hinv, hpast⟩ := h.call_some hsort hq hcur (pc_of_resting hrest hcur) c
      refine ⟨hinv, t.call_flags plan c, ?_⟩
      rw [hpast]
      split_ifs with hf <;> simp [LifeEvent.call?, hf]
  | endSort =>
    simp only [lifeStep] at hst
    split_ifs at hst with hrest
    cases hcur : t.current with
    | none =>
      simp only [hcur] at hst
      cases hst
      refine ⟨⟨h.past, fun s hs => by simp at hs, ?_⟩, rfl, by simp [LifeEvent.call?]⟩
      rw [h.sortDone, hcur]
    | some s =>
      simp only [hcur] at hst
      cases hst
      have hpc := pc_of_resting hrest hcur
      have hend : step (plan.jobs t.past.length) s .endNode = some (s.goto (.stopScan 0)) := by
        simp [step, hpc]
      exact ⟨hcurrent hcur hend, rfl, by simp [LifeEvent.call?]⟩
  | master =>
    simp only [lifeStep] at hst
    cases hcur : t.current with
    | none => simp [hcur] at hst
    | some s =>
      simp only [hcur, map_eq_some_iff] at hst
      obtain ⟨s', hs', rfl⟩ := hst
      exact ⟨hcurrent hcur hs', rfl, by simp [LifeEvent.call?]⟩
  | other e =>
    simp only [lifeStep] at hst
    cases hcur : t.current with
    | none => simp [hcur] at hst
    | some s =>
      simp only [hcur] at hst
      split_ifs at hst with he
      obtain ⟨s', hs', rfl⟩ := map_eq_some_iff.mp hst
      exact ⟨hcurrent hcur hs', rfl, by simp [LifeEvent.call?]⟩
  | left k e =>
    simp only [lifeStep] at hst
    cases hk : t.past[k]? with
    | none => simp [hk] at hst
    | some s =>
      simp only [hk] at hst
      split_ifs at hst with he
      obtain ⟨s', hs', rfl⟩ := map_eq_some_iff.mp hst
      obtain ⟨hinv, hpc⟩ := h.past k s hk
      refine ⟨⟨fun j u hu => ?_, ?_, h.sortDone⟩, rfl, by simp [LifeEvent.call?]⟩
      · rw [getElem?_set] at hu
        split_ifs at hu with hjk hlt
        · subst hjk
          cases hu
          exact ⟨hinv.event (hq _) (by simp) hs', (step_apart_pc he hs').trans hpc⟩
        · exact h.past j u hu
      · simpa using h.current

/-- The calls of a run decide whether a job has been forgotten in it. -/
theorem LifeInv.run (hsort : ∀ k, (plan.jobs k).isSort = true)
    (hq : ∀ k, 0 < (plan.jobs k).queueSize) (es : List LifeEvent) :
    ∀ {t t' : SortLife α}, LifeInv plan t → exec (lifeStep plan) t es = some t' →
      LifeInv plan t' ∧ (t'.past = [] ↔ t.past = [] ∧
        resorts plan.randomAccess t.flags (es.filterMap LifeEvent.call?) = false) := by
  induction es with
  | nil =>
    intro t t' h hrun
    cases hrun
    exact ⟨h, by simp [resorts]⟩
  | cons e es ih =>
    intro t t' h hrun
    cases hst : lifeStep plan t e with
    | none => simp [exec, hst] at hrun
    | some u =>
      simp only [exec, hst] at hrun
      obtain ⟨hu, hflags, hpast⟩ := h.event hsort hq hst
      obtain ⟨ht', hiff⟩ := ih hu hrun
      refine ⟨ht', ?_⟩
      rw [hiff, hpast, hflags]
      cases hc : e.call? with
      | none => simp [hc]
      | some c => simp [hc, resorts, and_assoc]

/--
Take any run of a parallel Sort node from `ExecInitSort` to the return of `ExecEndSort`, with
any calls in between and any number of workers.  All workers there have ever been were told to
end, have been seen dead and are off both lists, exactly when none of the calls was a rescan
that made the node sort again.
-/
theorem no_orphans_iff (hsort : ∀ k, (plan.jobs k).isSort = true)
    (hlevel : ∀ k, 0 < (plan.jobs k).level) (hq : ∀ k, 0 < (plan.jobs k).queueSize)
    {freeSems : Nat} {es : List LifeEvent} {t : SortLife α}
    (hrun : Run.exec (lifeStep plan) (SortLife.init freeSems) es = some t)
    (hend : t.ended = true) :
    (∀ k s, t.jobs[k]? = some s → ∀ i < (plan.jobs k).workersCnt, (s.slots i).Gone) ↔
      resorts plan.randomAccess {} (es.filterMap LifeEvent.call?) = false := by
  obtain ⟨hinv, hiff⟩ := LifeInv.run hsort hq es (lifeInv_init plan freeSems) hrun
  have hpast : t.past = [] ↔
      resorts plan.randomAccess {} (es.filterMap LifeEvent.call?) = false := by
    simpa [SortLife.init] using hiff
  rw [← hpast]
  constructor
  · intro hgone
    by_contra hne
    -- the first job that was forgotten has a worker that is still on the list
    obtain ⟨s, rest, hcons⟩ := exists_cons_of_ne_nil hne
    have hs : t.past[0]? = some s := by rw [hcons]; rfl
    obtain ⟨hs_inv, hpc⟩ := hinv.past 0 s hs
    have hcnt : 0 < (plan.jobs 0).workersCnt := by
      rw [workersCnt_sort (hsort 0)]
      exact hlevel 0
    have hlisted := hs_inv.listed_of_idle hpc hcnt
    have hjob : t.jobs[0]? = some s := by simp [SortLife.jobs, hcons]
    rw [(hgone 0 s hjob 0 hcnt).workersList] at hlisted
    exact Bool.false_ne_true hlisted
  intro hnil k s hs i hi
  have hcur : t.current = some s ∧ k = 0 := by
    cases hc : t.current with
    | none => simp [SortLife.jobs, hnil, hc] at hs
    | some u =>
      simp only [SortLife.jobs, hnil, hc, toList_some, nil_append, getElem?_singleton] at hs
      split_ifs at hs with hk
      exact ⟨hs, hk⟩
  obtain ⟨hcur, rfl⟩ := hcur
  have hs_inv := hinv.current s hcur
  rw [hnil] at hs_inv
  exact hs_inv.gone_of_closed (SortLife.pc_of_ended hend hcur) hi

end Life

/-! ### Runs -/

/-- A node that sorts one number with one worker. -/
def oneWorker : SortPlan Nat := { jobs := fun _ => sortNats [1] 1 1, randomAccess := true }

/-- The master and its worker in turn, with the postmaster. -/
def inCall (rounds : Nat) : List LifeEvent :=
  (List.replicate rounds [.master, .other (.fork 0), .other (.worker 0)]).flatten

/-- One fetch, and the end. -/
def fetchAndEnd : List LifeEvent := [.call .fetch] ++ inCall 30 ++ [.endSort] ++ inCall 30

/-- One fetch, a rescan with new parameters, another fetch, and the end. -/
def resortAndEnd : List LifeEvent :=
  [.call .fetch] ++ inCall 30 ++ [.call (.rescan true)] ++ fetchAndEnd

theorem no_orphans_iff_fetchAndEnd :
    (Run.follow (lifeStep oneWorker) (SortLife.init 6) fetchAndEnd).ended = true ∧
    ∀ (k : Nat) (s : State Nat),
      (Run.follow (lifeStep oneWorker) (SortLife.init 6) fetchAndEnd).jobs[k]? = some s →
        ∀ i < (oneWorker.jobs k).workersCnt, (s.slots i).Gone := by
  have hrun := exec_taken (lifeStep oneWorker) fetchAndEnd (SortLife.init 6)
  have hend : (follow (lifeStep oneWorker) (SortLife.init 6) fetchAndEnd).ended = true := by
    decide +kernel
  exact ⟨hend, (no_orphans_iff (fun _ => rfl) (fun _ => Nat.one_pos) (fun _ => Nat.one_pos) hrun
    hend).mpr (by decide +kernel)⟩

/-- The worker of the first job is still on both lists, with work to do. -/
theorem resortAndEnd_leaves_worker : Run.exec (lifeStep oneWorker) (SortLife.init 6)
        (Run.taken (lifeStep oneWorker) (SortLife.init 6) resortAndEnd) =
      some (Run.follow (lifeStep oneWorker) (SortLife.init 6) resortAndEnd) ∧
    (Run.follow (lifeStep oneWorker) (SortLife.init 6) resortAndEnd).ended = true ∧
    ∃ s, (Run.follow (lifeStep oneWorker) (SortLife.init 6) resortAndEnd).jobs[0]? = some s ∧
      (s.slots 0).valid = true ∧ (s.slots 0).inWorkersList = true ∧
      (s.slots 0).inJobsList = true ∧ (s.slots 0).workType = .sort ∧ ¬ (s.slots 0).Gone := by
  have hjob : ((follow (lifeStep oneWorker) (SortLife.init 6) resortAndEnd).jobs[0]?).map
      (fun s => ((s.slots 0).valid, (s.slots 0).inWorkersList, (s.slots 0).inJobsList,
        (s.slots 0).workType)) = some (true, true, true, .sort) := by
    decide +kernel
  obtain ⟨s, hs, hslot⟩ := map_eq_some_iff.mp hjob
  simp only [Prod.mk.injEq] at hslot
  obtain ⟨hvalid, hwl, hjl, hwt⟩ := hslot
  refine ⟨exec_taken _ _ _, by decide +kernel, s, hs, hvalid, hwl, hjl, hwt, fun hgone => ?_⟩
  exact absurd (hwt.symm.trans hgone.workType) (by decide)

end PrlPg
