/-
A parallel sort returns what a serial one does.

The two halves of the argument are in the files before: where every tuple is while the
sort runs (`Proofs/SortData.lean`), and that the sort gets on (`Proofs/Progress.lean`).
Put together, however the master and the workers are scheduled, a sort that says it is
done has returned a sorted permutation of its input, and until it says so it can get
there.  Two sorted permutations differ only in the order of tuples that compare equal,
so the serial path, which sorts the same tuples with the same comparator, returns the
same sequence up to those.
-/
import PrlPg.Proofs.Progress

namespace PrlPg

open List Run

variable {α : Type*} {job : Job α} {s : State α}

section

variable {whole : Multiset α} (hq : 0 < job.queueSize) (hlevel : 0 < job.level)
  (hw : MergesWell job whole) (hsort : job.isSort = true)
include hq hlevel hw hsort

/-- Until it has returned an empty slot, a sort that is not ended gets on. -/
theorem sort_getsOn (h : Inv false job s) (hdata : SortOk job s)
    (hsup : Supplied job s) (heof : ¬ s.eof = true) : GetsOn job s := by
  have hcnt : 0 < job.workersCnt := by
    rw [workersCnt_sort hsort]
    exact hlevel
  have hfits := h.fits
  rcases hsup with hwork | ⟨i, hpc, hsem⟩
  swap
  · exact h.create_getsOn hpc fun hi => by omega
  cases hpc : s.pc with
  | wait b k c => exact h.wait_getsOn hpc fun _ => hdata
  | register k => exact h.register_getsOn hpc
  | transition ho k => exact h.transition_getsOn hpc
  | distribute => exact h.distribute_getsOn hq hcnt hdata hpc
  | distributeLast j => exact h.distributeLast_getsOn hq hdata hpc
  | prepare cw => exact h.prepare_getsOn hq hw hdata hpc
  | getTuple => exact Inv.getTuple_getsOn hw hdata hpc
  | fetch stup => exact h.fetch_getsOn hq hw hdata hpc
  | idle => exact idle_getsOn hpc (by simpa using heof)
  | poll i | waitState i | assign i =>
    rw [hpc] at hfits
    exact absurd (hsort.symm.trans hfits) (by simp)
  | _ => simp [hpc, MasterPc.working] at hwork

/-- From every state of a run in which the caller fetches tuples, the sort can be run until
it has returned an empty slot. -/
theorem sort_reaches_eof {freeSems : Nat}
    (hsem : 3 * job.level ≤ freeSems) (h : Steps (step job) Drain (init job freeSems) s) :
    ∃ t, Steps (step job) Drain s t ∧ t.eof = true := by
  let I : State α → Prop := fun s => Inv false job s ∧ SortOk job s ∧ Supplied job s
  have hstep : ∀ u e v, I u → Drain u e → step job u e = some v → I v := by
    rintro u e v ⟨hinv, hdata, hsup⟩ he hst
    have hinv' := hinv.event hq (fun _ => he.quiet) hst
    exact ⟨hinv', hdata.event hinv hinv' hsort he.quiet hst, hsup.event hinv' he hst⟩
  have hs : I s := h.invariant ⟨inv_init false job freeSems, sortOk_init job freeSems,
    supplied_init (by rwa [workersCnt_sort hsort])⟩ hstep
  exact Steps.reach_of_measure (measure job) hstep
    (fun u hu hne => sort_getsOn hq hlevel hw hsort hu.1 hu.2.1 hu.2.2 hne) s hs

end

/--
Take any run of a parallel sort without errors, with any number of workers and any queue
size, in which the caller fetches tuples.  If the node has returned an empty slot, it has
returned a sorted permutation of the tuples of the outer plan before, equal to what any
serial sort of them returns up to the order of tuples that compare equal.  And if it has
not, then from here it can be run until it does.
-/
theorem parallel_sort_agrees {job : Job α} (hsort : job.isSort = true) (hlevel : 0 < job.level)
    (hq : 0 < job.queueSize) (hw : SortsWell job) {freeSems : Nat}
    (hsem : 3 * job.level ≤ freeSems) {s : State α}
    (h : Run.Steps (step job) Drain (init job freeSems) s) :
    (s.eof = true → s.returned.Perm job.outer ∧ Nondecreasing job.comparetup s.returned ∧
        ∀ serial : List α, serial.Perm job.outer → Nondecreasing job.comparetup serial →
          List.Forall₂ (fun a b => job.comparetup a b = 0) s.returned serial) ∧
      ∃ t, Run.Steps (step job) Drain s t ∧ t.eof = true := by
  refine ⟨fun heof => ?_, sort_reaches_eof hq hlevel hw.mergesWell hsort hsem h⟩
  have hdata := (SortOk.run hq hsort (h.mono fun _ _ => Drain.quiet)).2
  obtain ⟨hwhole, hsorted⟩ := hdata.isSorting hw.mergesWell heof
  have hperm := Multiset.coe_eq_coe.mp hwhole
  exact ⟨hperm, hsorted, fun serial hp hn =>
    hw.preorder.forall₂_of_perm (hperm.trans hp.symm) hsorted hn⟩

/-- Whenever a sort waits for its caller, what it has returned begins a sorted permutation of
the tuples of the outer plan, provided that every worker sorts all it is given. -/
theorem parallel_sort_returns_first (hsort : job.isSort = true) (hq : 0 < job.queueSize)
    (hw : SortsWell job) {freeSems : Nat} (h : Run.Steps (step job) Quiet (init job freeSems) s)
    (hidle : s.pc = .idle) :
    ∃ rest, (s.returned ++ rest).Perm job.outer ∧
      Nondecreasing job.comparetup (s.returned ++ rest) := by
  have hdata := (SortOk.run hq hsort h).2
  rw [SortOk, hidle] at hdata
  obtain ⟨-, left, hm⟩ := hdata hw.mergesWell
  have htotal := hm.total
  have hsorted := hm.merge.sorted
  rw [KWay.total, add_assoc, nil_append] at htotal
  rw [map_nil, append_nil] at hsorted
  set later : Multiset α := _ + ∑ i ∈ Finset.range job.workersCnt, (left i : Multiset α) with hlater
  have hperm := hw.perm 0 later.toList
  refine ⟨job.localSort 0 later.toList, Multiset.coe_eq_coe.mp ?_,
    pairwise_append.2 ⟨hsorted, hw.sorted 0 _, fun a ha b hb => ?_⟩⟩
  · rw [← htotal, ← Multiset.coe_add, Multiset.coe_eq_coe.mpr hperm, Multiset.coe_toList]
  rw [hperm.mem_iff, Multiset.mem_toList, hlater, Multiset.mem_add, Multiset.mem_sum] at hb
  rcases hb with hb | ⟨i, hi, hb⟩
  · obtain ⟨e, he, rfl⟩ := mem_map.1 hb
    exact hm.merge.below a ha e he
  -- a tuple that a worker has still to send is not below the one of that worker in the heap
  have hlive : s.merge.workersFinished i = false := by
    refine eq_false_of_ne_true fun hfin => ?_
    rw [(hm.done i hfin).2] at hb
    exact not_mem_nil hb
  obtain ⟨e, he, rfl⟩ := mem_map.1 ((hm.merge.index i).2 ⟨Finset.mem_range.1 hi, hlive⟩)
  exact hw.preorder.trans _ _ _ (hm.merge.below a ha e he) (hm.merge.front e he b hb)

/-! ### A run -/

theorem compareNat_preorder : TotalPreorder compareNat :=
  ⟨fun a b => by simp only [compareNat]; omega, fun a b c => by simp only [compareNat]; omega⟩

theorem sortNats_sortsWell (outer : List Nat) (level queueSize : Nat) :
    SortsWell (sortNats outer level queueSize) := by
  refine ⟨compareNat_preorder, fun _ l => perm_insertionSort _ l, fun _ l => ?_⟩
  refine (pairwise_insertionSort (· ≤ ·) l).imp fun hab => ?_
  simp only [sortNats, compareNat]
  omega

/-- Everybody in turn, and the caller fetches a tuple every now and then. -/
def fetching (workers turns fetches : Nat) : List Event :=
  inTurn workers turns ++ (List.replicate fetches (.fetch :: inTurn workers 6)).flatten

theorem drain_fetching (workers turns fetches : Nat) :
    ∀ u : State α, ∀ e ∈ fetching workers turns fetches, Drain u e := by
  intro u e he
  simp only [fetching, mem_append, mem_flatten, mem_replicate] at he
  rcases he with he | ⟨l, ⟨-, rfl⟩, he⟩
  · exact drain_inTurn _ _ u e he
  rcases mem_cons.mp he with rfl | he
  · rfl
  · exact drain_inTurn _ _ u e he

/-- Two workers sort three numbers through queues of one cell, and all of them are
fetched. -/
def drained : State Nat :=
  Run.follow (step (sortNats [3, 1, 2] 2 1)) (init (sortNats [3, 1, 2] 2 1) 6) (fetching 2 60 3)

theorem drained_run :
    Steps (step (sortNats [3, 1, 2] 2 1)) Drain (init (sortNats [3, 1, 2] 2 1) 6) drained :=
  steps_of_follow _ (drain_fetching 2 60 3)

theorem parallel_sort_agrees_drained : drained.eof = true ∧ drained.returned = [1, 2, 3] ∧
      (drained.returned.Perm [3, 1, 2] ∧ Nondecreasing compareNat drained.returned ∧
        ∀ serial : List Nat, serial.Perm [3, 1, 2] → Nondecreasing compareNat serial →
          List.Forall₂ (fun a b => compareNat a b = 0) drained.returned serial) := by
  have heof : drained.eof = true := by decide +kernel
  exact ⟨heof, by decide +kernel, (parallel_sort_agrees rfl (by decide) (by decide)
    (sortNats_sortsWell _ _ _) (by decide) drained_run).1 heof⟩

theorem parallel_sort_returns_first_two :
    ∃ s : State Nat, s.returned = [1, 2] ∧ ∃ rest, (s.returned ++ rest).Perm [3, 1, 2] ∧
      Nondecreasing compareNat (s.returned ++ rest) := by
  have hrun : Steps (step (sortNats [3, 1, 2] 2 1)) Drain (init (sortNats [3, 1, 2] 2 1) 6) _ :=
    steps_of_follow _ (drain_fetching 2 60 1)
  exact ⟨_, by decide +kernel, parallel_sort_returns_first rfl (by decide)
    (sortNats_sortsWell _ _ _) (hrun.mono fun _ _ => Drain.quiet) (by decide +kernel)⟩

end PrlPg
