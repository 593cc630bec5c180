/-
Where the tuples of a parallel sort are.

At every point of the master, until it ends the node, the tuples of the outer plan are
accounted for.  Some have not been read yet, some were sent to a worker, which holds
them or has sorted them, some wait in the merge heap and some have been returned.
`Dealing` is the first half, while tuples go to the workers, and `Merging` the second,
while they come back; between the two every worker has a sorted run to send.

The second half is an instance of the merge of `Lib/KWay.lean`: the run of a worker is
what it has yet to send, its candidate is its tuple in the heap, and a worker is finished
when its end marker has been read.
-/
import PrlPg.Lib.KWay
import PrlPg.Proofs.Invariant
import PrlPg.Proofs.Work

namespace PrlPg

open Function Option List Finset MasterPc State Multiset Heap

variable {α : Type*}

/-- What a merge relies on: the comparator is a total preorder, every worker sends a sorted
run, and the runs make up `whole`, however the tuples were dealt out. -/
structure MergesWell (job : Job α) (whole : Multiset α) : Prop where
  preorder : TotalPreorder job.comparetup
  sorted : ∀ i l, Nondecreasing job.comparetup (job.localSort i l)
  runs : ∀ given : Nat → List α,
    (job.outer : Multiset α) = ∑ i ∈ Finset.range job.workersCnt, (given i : Multiset α) →
      ∑ i ∈ Finset.range job.workersCnt, (job.localSort i (given i) : Multiset α) = whole

/-- What a sort job relies on: the comparator is a total preorder, and the tuplesort of
every worker sorts. -/
structure SortsWell (job : Job α) : Prop where
  preorder : TotalPreorder job.comparetup
  perm : ∀ i l, (job.localSort i l).Perm l
  sorted : ∀ i l, Nondecreasing job.comparetup (job.localSort i l)

theorem SortsWell.mergesWell {job : Job α} (h : SortsWell job) : MergesWell job job.outer := by
  refine ⟨h.preorder, h.sorted, fun given hgiven => ?_⟩
  rw [hgiven]
  exact sum_congr rfl fun i _ => coe_eq_coe.mpr (h.perm i _)

/-- What has been sent to a worker that was given `l`; `closed` says that the end marker
has been sent too. -/
def sentTo (l : List α) (closed : Bool) : List (BufferQueueCell α) :=
  l.map .tuple ++ if closed then [.last] else []

/-- The master has dealt out `given`, and the end markers to the workers in `closed`. -/
structure Dealing (job : Job α) (s : State α) (given : Nat → List α) (closed : Nat → Bool) :
    Prop where
  share : (job.outer : Multiset α) =
    (s.input : Multiset α) + ∑ i ∈ Finset.range job.workersCnt, (given i : Multiset α)
  sent : ∀ i < job.workersCnt, Received (job.localSort i) (s.slots i) (sentTo (given i) (closed i))
  fresh : s.merge = Merge.begin ∧ s.returned = [] ∧ s.eof = false

/-- Every worker has a sorted share to send. -/
structure Sorted (job : Job α) (s : State α) (given : Nat → List α) : Prop where
  share : (job.outer : Multiset α) = ∑ i ∈ Finset.range job.workersCnt, (given i : Multiset α)
  outgoing : ∀ i < job.workersCnt,
    (s.slots i).outgoing job.rows = message (job.localSort i (given i))
  fresh : s.merge = Merge.begin ∧ s.returned = [] ∧ s.eof = false

/-- The master merges.  It has started on the workers below `cw`, holds the tuples `hand`
outside the heap, and worker `i` has `left i` to send. -/
structure Merging (job : Job α) (whole : Multiset α) (s : State α) (cw : Nat)
    (hand : List (SortTuple α)) (left : Nat → List α) : Prop where
  outgoing : ∀ i < job.workersCnt, (s.slots i).outgoing job.rows =
    if s.merge.workersFinished i then [] else message (left i)
  done : ∀ i, s.merge.workersFinished i = true → i < cw ∧ left i = []
  merge : KWay SortTuple.tuple SortTuple.tupindex job.comparetup
    (fun i => i < cw ∧ s.merge.workersFinished i = false) s.merge.memtuples hand left s.returned
  heap : Heap.Ordered (heapCompare job.comparetup) s.merge.memtuples
  total : KWay.total SortTuple.tuple job.workersCnt s.merge.memtuples hand left s.returned = whole
  eof : s.eof = true → s.merge.isParallelEnded = true

/-- The result a merge should have. -/
def IsSorting (job : Job α) (whole : Multiset α) (l : List α) : Prop :=
  (l : Multiset α) = whole ∧ Nondecreasing job.comparetup l

/-- How far a sort is. -/
inductive Phase (α : Type*)
  /-- the outer plan is being read -/
  | dealing
  /-- end markers are being sent, and the first `j` workers have theirs -/
  | closing (j : Nat)
  /-- every worker has sorted -/
  | sorted
  /-- the first tuples are being read -/
  | preparing (cw : Nat)
  | merging (hand : List (SortTuple α))
  /-- the node is being ended, or was given up -/
  | past

/-- How far a sort with `n` workers is when the master is at a point. -/
def MasterPc.phase (n : Nat) : MasterPc α → Phase α
  | .create _ | .wait .initial _ _ | .register _ | .transition .start _ | .distribute => .dealing
  | .distributeLast j => .closing j
  | .wait .finished _ _ => .closing n
  | .transition .ack _ => .sorted
  | .prepare cw => .preparing cw
  | .getTuple | .idle => .merging []
  | .fetch stup => .merging [stup]
  | _ => .past

/-- Where the tuples are in a phase.  How they come back depends on how they were
sorted. -/
def SortData (job : Job α) (s : State α) : Phase α → Prop
  | .dealing => ∃ given, Dealing job s given fun _ => false
  | .closing j => s.input = [] ∧ ∃ given, Dealing job s given fun i => decide (i < j)
  | .sorted => ∃ given, Sorted job s given
  | .preparing cw => ∀ ⦃whole⦄, MergesWell job whole →
    s.returned = [] ∧ s.merge.isParallelEnded = false ∧ ∃ left, Merging job whole s cw [] left
  | .merging hand => ∀ ⦃whole⦄, MergesWell job whole →
    (s.merge.isParallelEnded = true ↔ hand = [] ∧ s.merge.memtuples = []) ∧
      ∃ left, Merging job whole s job.workersCnt hand left
  | .past => ∀ ⦃whole⦄, MergesWell job whole → s.eof = true → IsSorting job whole s.returned

variable {job : Job α} {whole : Multiset α} {s s' : State α} {given : Nat → List α} {closed : Nat → Bool}

/-! ### One record changes -/

variable {w : Slot α} {rows : Option Nat → List α} {slots : Nat → Slot α} {i : Nat}

theorem Dealing.slot (h : Dealing job s given closed) (i : Nat)
    (hw : ∀ stream, Received (job.localSort i) (s.slots i) stream →
      Received (job.localSort i) w stream) (hslots : s'.slots = update s.slots i w)
    (hinput : s'.input = s.input)
    (hfresh : s'.merge = s.merge ∧ s'.returned = s.returned ∧ s'.eof = s.eof) :
    Dealing job s' given closed := by
  refine ⟨by rw [hinput]; exact h.share, fun j hj => ?_, ?_⟩
  swap
  · rw [hfresh.1, hfresh.2.1, hfresh.2.2]
    exact h.fresh
  rw [hslots]
  by_cases hij : j = i
  · subst hij
    rw [update_self]
    exact hw _ (h.sent j hj)
  · rw [update_of_ne hij]
    exact h.sent j hj

theorem outgoing_set {f : Nat → List (BufferQueueCell α)} {n : Nat}
    (h : ∀ j < n, (slots j).outgoing rows = f j) (hw : w.outgoing rows = (slots i).outgoing rows) :
    ∀ j < n, (update slots i w j).outgoing rows = f j := by
  intro j hj
  by_cases hij : j = i
  · subst hij
    rw [update_self, hw]
    exact h j hj
  · rw [update_of_ne hij]
    exact h j hj

theorem Sorted.slot (h : Sorted job s given) (i : Nat)
    (hw : w.outgoing job.rows = (s.slots i).outgoing job.rows)
    (hslots : s'.slots = update s.slots i w)
    (hfresh : s'.merge = s.merge ∧ s'.returned = s.returned ∧ s'.eof = s.eof) :
    Sorted job s' given := by
  refine ⟨h.share, ?_, ?_⟩
  · rw [hslots]
    exact outgoing_set h.outgoing hw
  · rw [hfresh.1, hfresh.2.1, hfresh.2.2]
    exact h.fresh

theorem Merging.slot {cw : Nat} {hand : List (SortTuple α)} {left : Nat → List α}
    (h : Merging job whole s cw hand left) (i : Nat)
    (hw : w.outgoing job.rows = (s.slots i).outgoing job.rows) :
    Merging job whole (s.set i w) cw hand left :=
  ⟨outgoing_set h.outgoing hw, h.done, h.merge, h.heap, h.total, h.eof⟩

/-- The stages of the workers in the two halves of a sort. -/
def Phase.Stages (job : Job α) (g : Stage) : Phase α → Prop
  | .dealing | .closing _ => g.Receives
  | .sorted | .preparing _ | .merging _ => g.Settled job
  | .past => True

theorem phase_stages (hsort : job.isSort = true) (pc : MasterPc α) (n i : Nat) :
    (pc.phase n).Stages job (stage job pc i) := by
  have hwork : job.workStage = .running := by simp [Job.workStage, hsort]
  cases pc with
  | wait b k c => cases b <;> simp only [phase, Phase.Stages, stage] <;> split <;> constructor
  | transition ho k =>
    cases ho <;> simp only [phase, Phase.Stages, stage, hwork] <;> split <;> constructor
  | create j =>
    simp only [phase, Phase.Stages, stage]
    split <;> constructor
  | _ => constructor

variable {ph : Phase α}

/-- A worker, or the postmaster for it, moves. -/
theorem SortData.slot (h : SortData job s ph) {g : Stage} (hg : ph.Stages job g)
    (hrecv : g.Receives → ∀ stream,
      Received (job.localSort i) (s.slots i) stream → Received (job.localSort i) w stream)
    (hsend : g.Settled job → w.outgoing job.rows = (s.slots i).outgoing job.rows) :
    SortData job (s.set i w) ph := by
  cases ph with
  | dealing =>
    obtain ⟨given, hd⟩ := h
    exact ⟨given, hd.slot i (hrecv hg) rfl rfl ⟨rfl, rfl, rfl⟩⟩
  | closing j =>
    obtain ⟨hinput, given, hd⟩ := h
    exact ⟨hinput, given, hd.slot i (hrecv hg) rfl rfl ⟨rfl, rfl, rfl⟩⟩
  | sorted =>
    obtain ⟨given, hd⟩ := h
    exact ⟨given, hd.slot i (hsend hg) rfl ⟨rfl, rfl, rfl⟩⟩
  | preparing cw =>
    intro whole hw
    obtain ⟨hret, hend, left, hm⟩ := h hw
    exact ⟨hret, hend, left, hm.slot i (hsend hg)⟩
  | merging hand =>
    intro whole hw
    obtain ⟨hend, left, hm⟩ := h hw
    exact ⟨hend, left, hm.slot i (hsend hg)⟩
  | past => exact h

/-- The master moves on and touches nothing of the sort. -/
theorem SortData.goto (h : SortData job s ph) (pc : MasterPc α) : SortData job (s.goto pc) ph := by
  cases ph with
  | dealing => exact h.imp fun _ hd => ⟨hd.share, hd.sent, hd.fresh⟩
  | closing j => exact ⟨h.1, h.2.imp fun _ hd => ⟨hd.share, hd.sent, hd.fresh⟩⟩
  | sorted => exact h.imp fun _ hd => ⟨hd.share, hd.outgoing, hd.fresh⟩
  | preparing cw =>
    exact fun _ hw => ⟨(h hw).1, (h hw).2.1, (h hw).2.2.imp fun _ hm => { __ := hm }⟩
  | merging hand => exact fun _ hw => ⟨(h hw).1, (h hw).2.imp fun _ hm => { __ := hm }⟩
  | past => exact h

/-! ### Dealing the tuples out -/

variable {k : Nat}

theorem sum_snoc (n : Nat) (given : Nat → List α) (hk : k < n) (t : α) :
    ∑ i ∈ range n, (update given k (given k ++ [t]) i : Multiset α)
      = t ::ₘ ∑ i ∈ range n, (given i : Multiset α) := by
  have hsum := sum_update (fun l : List α => (l : Multiset α)) given (given k ++ [t])
    (mem_range.mpr hk)
  refine add_right_cancel (b := (given k : Multiset α)) ?_
  rw [hsum, Multiset.cons_add, ← Multiset.coe_add, Multiset.coe_singleton, ← add_assoc,
    add_comm _ ({t} : Multiset α), Multiset.singleton_add]

/-- The next tuple goes to worker `k`. -/
theorem Dealing.tuple (h : Dealing job s given fun _ => false) {t : α} {rest : List α}
    (hinput : s.input = t :: rest) (hk : k < job.workersCnt) {r : Bool}
    (hadd : (s.slots k).bufferQueueAdd (.tuple t) false = some (w, r))
    (hslots : s'.slots = update s.slots k w) (hinput' : s'.input = rest)
    (hfresh : s'.merge = s.merge ∧ s'.returned = s.returned ∧ s'.eof = s.eof) :
    Dealing job s' (update given k (given k ++ [t])) fun _ => false := by
  refine ⟨?_, fun i hi => ?_, ?_⟩
  · rw [h.share, hinput, hinput', sum_snoc _ _ hk, ← cons_coe, cons_add, add_cons]
  · rw [hslots]
    by_cases hik : i = k
    · subst hik
      have := (h.sent i hi).add hadd
      simpa [sentTo] using this
    · rw [update_of_ne hik, update_of_ne hik]
      exact h.sent i hi
  · rw [hfresh.1, hfresh.2.1, hfresh.2.2]
    exact h.fresh

/-- Worker `k` gets its end marker. -/
theorem Dealing.last (h : Dealing job s given fun i => decide (i < k)) {r : Bool}
    (hadd : (s.slots k).bufferQueueAdd .last false = some (w, r))
    (hslots : s'.slots = update s.slots k w) (hinput : s'.input = s.input)
    (hfresh : s'.merge = s.merge ∧ s'.returned = s.returned ∧ s'.eof = s.eof) :
    Dealing job s' given fun i => decide (i < k + 1) := by
  refine ⟨by rw [hinput]; exact h.share, fun i hi => ?_, ?_⟩
  swap
  · rw [hfresh.1, hfresh.2.1, hfresh.2.2]
    exact h.fresh
  rw [hslots]
  by_cases hik : i = k
  · subst hik
    have := (h.sent i hi).add hadd
    simpa [sentTo] using this
  have hiff : i < k + 1 ↔ i < k := by omega
  simp only [update_of_ne hik, hiff]
  exact h.sent i hi

/-- Everybody has got everything and has sorted it. -/
theorem Dealing.toSorted (h : Dealing job s given fun i => decide (i < job.workersCnt))
    (hinput : s.input = [])
    (hin : ∀ i < job.workersCnt, InStage job .finishedSeen (s.slots i)) : Sorted job s given := by
  refine ⟨by rw [h.share, hinput]; simp, fun i hi => ?_, h.fresh⟩
  refine Received.outgoing ?_ (hin i hi)
  simpa [sentTo, message, hi] using h.sent i hi

/-- The merge begins. -/
theorem Sorted.toMerging (h : Sorted job s given) (hw : MergesWell job whole) :
    Merging job whole s 0 [] fun i => job.localSort i (given i) := by
  obtain ⟨hmerge, hret, heof⟩ := h.fresh
  refine ⟨fun i hi => ?_, fun i hi => ?_, ?_, ?_, ?_, fun he => ?_⟩
  · rw [h.outgoing i hi, hmerge]
    rfl
  · simp [hmerge, Merge.begin] at hi
  · rw [hmerge, hret]
    exact (KWay.start fun i => hw.sorted i _).congr fun i => by simp
  · rw [hmerge]
    intro j hj
    simp [Merge.begin]
  · rw [hmerge, hret]
    simp only [KWay.total, Merge.begin, append_nil, map_nil, coe_nil, zero_add]
    exact hw.runs given h.share
  · simp [heof] at he

/-! ### Merging -/

variable {stup : SortTuple α}

theorem heapCompare_preorder {cmp : α → α → Int} (h : TotalPreorder cmp) :
    TotalPreorder (heapCompare cmp) :=
  ⟨fun a b => h.flip a.tuple b.tuple, fun a b c => h.trans a.tuple b.tuple c.tuple⟩

section Merging

variable {cw : Nat} {hand : List (SortTuple α)} {left : Nat → List α}

variable {cell : BufferQueueCell α}

section

variable {finished : Nat → Bool} {n : Nat}
  (h : ∀ j < n, (slots j).outgoing rows = if finished j then [] else message (left j))
include h

/-- The queue of worker `k` was read, and its end marker was there. -/
theorem outgoing_finish (hw : w.outgoing rows = []) : ∀ j < n, (update slots k w j).outgoing rows =
      if update finished k true j then [] else message (left j) := by
  intro j hj
  by_cases hjk : j = k
  · subst hjk
    simp [hw]
  · rw [update_of_ne hjk, update_of_ne hjk]
    exact h j hj

theorem outgoing_next {l : List α} (hrun : finished k = false) (hw : w.outgoing rows = message l) :
    ∀ j < n, (update slots k w j).outgoing rows =
      if finished j then [] else message (update left k l j) := by
  intro j hj
  by_cases hjk : j = k
  · subst hjk
    simp [hw, hrun]
  · rw [update_of_ne hjk, update_of_ne hjk]
    exact h j hj

end

section

variable (h : Merging job whole s cw [] left) (hw : MergesWell job whole)
include h hw

/-- One round of `prepareForMerge`. -/
theorem Merging.prepare (hret : s.returned = []) (hcw : cw < job.workersCnt)
    (hget : (s.slots cw).bufferQueueGet = some (cell, w)) (pc : MasterPc α) :
    ∃ left', Merging job whole
      { s.set cw w with merge := s.merge.prepare job.comparetup cw cell, pc := pc }
      (cw + 1) [] left' := by
  have hrun : s.merge.workersFinished cw = false := by
    by_contra hf
    exact absurd (h.done cw (by simpa using hf)).1 (lt_irrefl _)
  have hmerge := h.merge
  have htotal := h.total
  rw [hret] at hmerge htotal
  rcases cell_of_outgoing (h.outgoing cw hcw) (by simp [hrun]) hget with
    ⟨hnil, rfl, hout⟩ | ⟨t, l, hcons, rfl, hout⟩
  · refine ⟨left, outgoing_finish h.outgoing hout, fun i hi => ?_, ?_, h.heap, h.total, h.eof⟩
    · by_cases hic : i = cw
      · subst hic
        exact ⟨Nat.lt_succ_self _, hnil⟩
      have hi : update s.merge.workersFinished cw true i = true := hi
      rw [update_of_ne hic] at hi
      exact ⟨Nat.lt_succ_of_lt (h.done i hi).1, (h.done i hi).2⟩
    refine h.merge.congr fun i => ?_
    show _ ↔ i < cw + 1 ∧ update s.merge.workersFinished cw true i = false
    by_cases hic : i = cw
    · subst hic
      simp
    rw [update_of_ne hic]
    have : i < cw + 1 ↔ i < cw := by omega
    rw [this]
  have hpool := insert_perm (heapCompare job.comparetup) s.merge.memtuples ⟨t, cw⟩
  refine ⟨update left cw l, outgoing_next h.outgoing hrun hout, fun i hi => ?_, ?_,
    insert_ordered (heapCompare_preorder hw.preorder) _ h.heap, ?_, h.eof⟩
  · have hi : s.merge.workersFinished i = true := hi
    have hic : i ≠ cw := fun hic => by simp [hic, hrun] at hi
    rw [update_of_ne hic]
    exact ⟨Nat.lt_succ_of_lt (h.done i hi).1, (h.done i hi).2⟩
  · show KWay _ _ _ _ _ _ _ s.returned
    rw [hret]
    refine (hmerge.enter (e := ⟨t, cw⟩) (by simp) hcons hpool).congr fun i => ?_
    show (i < cw ∧ s.merge.workersFinished i = false) ∨ i = cw ↔
      i < cw + 1 ∧ s.merge.workersFinished i = false
    by_cases hic : i = cw
    · subst hic
      simp [hrun]
    simp only [hic, or_false]
    have : i < cw + 1 ↔ i < cw := by omega
    rw [this]
  show KWay.total _ _ _ _ _ s.returned = _
  rw [hret, ← htotal]
  exact KWay.total_enter SortTuple.tuple SortTuple.tupindex hcw hcons hpool

/-- The root of the heap is taken. -/
theorem Merging.takeRoot {m : List (SortTuple α)} (hm : s.merge.memtuples = stup :: m)
    (pc : MasterPc α) :
    Merging job whole { s with merge := s.merge.takeRoot job.comparetup, pc := pc } cw [stup] left := by
  have hcmp := heapCompare_preorder hw.preorder
  have hperm := removeRoot_perm (heapCompare job.comparetup) stup m
  have heap := h.heap
  have hmerge := h.merge
  have htotal := h.total
  rw [hm] at heap hmerge htotal
  have hroot : (s.merge.takeRoot job.comparetup).memtuples
      = removeRoot (heapCompare job.comparetup) (stup :: m) := by
    rw [← hm]
    rfl
  refine ⟨h.outgoing, h.done, ?_, ?_, ?_, h.eof⟩
  · show KWay _ _ _ _ (s.merge.takeRoot job.comparetup).memtuples _ _ _
    rw [hroot]
    refine hmerge.take hperm.symm fun f hf => ?_
    exact root_le hcmp heap f (hperm.mem_iff.mp (by simp [hf]))
  · show Ordered _ (s.merge.takeRoot job.comparetup).memtuples
    rw [hroot]
    exact removeRoot_ordered hcmp heap
  show KWay.total _ _ (s.merge.takeRoot job.comparetup).memtuples _ _ _ = _
  rw [hroot, ← htotal]
  exact KWay.total_take hperm.symm

end

/-- The worker of a tuple in the heap or in hand has not finished. -/
theorem Merging.running (h : Merging job whole s cw hand left) (stup : SortTuple α)
    (hs : stup ∈ hand ++ s.merge.memtuples) :
    stup.tupindex < cw ∧ s.merge.workersFinished stup.tupindex = false :=
  (h.merge.index _).mp (mem_map_of_mem hs)

/-- The tuple in hand is returned, and the next one of its worker takes its place. -/
theorem Merging.refill (h : Merging job whole s cw [stup] left) (hw : MergesWell job whole)
    (hcw : cw ≤ job.workersCnt) (hget : (s.slots stup.tupindex).bufferQueueGet = some (cell, w))
    (heof : s.eof = false) :
    ∃ left', Merging job whole ({ s.set stup.tupindex w with
          merge := s.merge.refill job.comparetup stup.tupindex cell }.yield stup.tuple)
      cw [] left' := by
  obtain ⟨hlt, hrun⟩ := h.running stup (by simp)
  have hn : stup.tupindex < job.workersCnt := lt_of_lt_of_le hlt hcw
  have heof' : ∀ {b : Bool}, s.eof = true → b = true := fun he => by simp [heof] at he
  rcases cell_of_outgoing (h.outgoing _ hn) (by simp [hrun]) hget with
    ⟨hnil, rfl, hout⟩ | ⟨t, l, hcons, rfl, hout⟩
  · refine ⟨left, outgoing_finish h.outgoing hout, fun i hi => ?_, ?_, h.heap, ?_, heof'⟩
    · by_cases hic : i = stup.tupindex
      · subst hic
        exact ⟨hlt, hnil⟩
      have hi : update s.merge.workersFinished stup.tupindex true i = true := hi
      rw [update_of_ne hic] at hi
      exact h.done i hi
    · refine h.merge.close.congr fun i => ?_
      show _ ↔ i < cw ∧ update s.merge.workersFinished stup.tupindex true i = false
      by_cases hic : i = stup.tupindex
      · subst hic
        simp
      · rw [update_of_ne hic]
        simp [hic]
    · rw [← h.total]
      exact KWay.total_yield
  have hpool := insert_perm (heapCompare job.comparetup) s.merge.memtuples ⟨t, stup.tupindex⟩
  refine ⟨update left stup.tupindex l, outgoing_next h.outgoing hrun hout,
    fun i hi => ?_, ?_, insert_ordered (heapCompare_preorder hw.preorder) _ h.heap, ?_,
    heof'⟩
  · have hi : s.merge.workersFinished i = true := hi
    have hic : i ≠ stup.tupindex := fun hic => by simp [hic, hrun] at hi
    rw [update_of_ne hic]
    exact h.done i hi
  · have hnext := h.merge.replace (x := SortTuple.mk t stup.tupindex) hw.preorder rfl hcons hpool
    exact hnext
  rw [← h.total]
  refine Eq.trans ?_ KWay.total_yield
  exact KWay.total_enter SortTuple.tuple SortTuple.tupindex (e := ⟨t, stup.tupindex⟩) hn hcons
    hpool

/-- When the heap is empty everything has been returned. -/
theorem Merging.isSorting (h : Merging job whole s job.workersCnt [] left)
    (hm : s.merge.memtuples = []) : IsSorting job whole s.returned := by
  have hmerge := h.merge
  have htotal := h.total
  rw [hm] at hmerge htotal
  have hleft : ∀ i < job.workersCnt, left i = [] := by
    intro i hi
    have hfin : ¬ s.merge.workersFinished i = false := fun hf => by
      simpa using (hmerge.index i).mpr ⟨hi, hf⟩
    exact (h.done i (by simpa using hfin)).2
  refine ⟨?_, by simpa using hmerge.sorted⟩
  rw [← htotal]
  have hsum : ∑ i ∈ Finset.range job.workersCnt, (left i : Multiset α) = 0 :=
    Finset.sum_eq_zero fun i hi => by rw [hleft i (Finset.mem_range.mp hi)]; rfl
  simp [KWay.total, hsum]

end Merging

/-! ### The steps of the master -/

/-- The tuples are where they should be. -/
def SortOk (job : Job α) (s : State α) : Prop := SortData job s (s.pc.phase job.workersCnt)

variable {localSort : List α → List α}

theorem Received.refresh {w' : Slot α} (hpc : w'.pc = w.pc)
    (hbq : w'.bufferQueue = w.bufferQueue) (stream : List (BufferQueueCell α))
    (h : Received localSort w stream) :
    Received localSort w' stream := h.congr hpc (by rw [hbq])

theorem Received.look (side : Side)
    (stream : List (BufferQueueCell α)) (h : Received localSort w stream) :
    Received localSort (w.look side) stream := h.congr rfl rfl

theorem outgoing_look (w : Slot α) (side : Side) (rows : Option Nat → List α) :
    (w.look side).outgoing rows = w.outgoing rows := rfl

theorem SortOk.create (h : SortOk job s) (hinv : Inv false job s) (hsort : job.isSort = true)
    (hpc : s.pc = .create i) (hst : createStep job s i = some s') : SortOk job s' := by
  rw [SortOk, hpc] at h
  simp only [createStep] at hst
  split_ifs at hst with hi hsem
  · cases hst
    obtain ⟨given, hd⟩ := h
    have hin := hinv.inStage (by rw [hpc]; rfl) hi
    rw [hpc] at hin
    simp only [stage, lt_irrefl, if_false] at hin
    have hempty : (s.slots i).bufferQueue.cells = [] := hin.stop
    have habsent : (s.slots i).pc = .absent := hin.ctl.of_unused.1
    exact ⟨given, hd.slot i (fun stream hrecv => hrecv.congr habsent.symm hempty.symm) rfl rfl
      ⟨rfl, rfl, rfl⟩⟩
  · cases hst
    obtain ⟨given, hd⟩ := h
    intro _ _ heof
    simp [goto, hd.fresh.2.2] at heof
  · cases hst
    exact h.goto _

theorem phase_wait (n : Nat) (b : Barrier) (k k' c c' : Nat) :
    (wait b k c : MasterPc α).phase n = (wait b k' c').phase n := by
  cases b <;> rfl

/-- The master looks at a worker. -/
theorem SortData.look (h : SortData job s ph) (i : Nat) :
    SortData job (s.set i ((s.slots i).look .master)) ph := by
  obtain ⟨g, hg⟩ : ∃ g, ph.Stages job g := by
    cases ph with
    | dealing | closing j => exact ⟨_, .running⟩
    | sorted | preparing cw | merging hand => exact ⟨_, .sending⟩
    | past => exact ⟨.sending, trivial⟩
  exact h.slot hg (fun _ => Received.look .master) fun _ => outgoing_look _ .master _

theorem SortOk.wait (h : SortOk job s) (hinv' : Inv false job s') {b : Barrier} {readyCnt : Nat}
    (hpc : s.pc = .wait b k readyCnt) (hst : waitForWorkers job s b k readyCnt = some s') :
    SortOk job s' := by
  rw [SortOk, hpc] at h
  simp only [waitForWorkers] at hst
  split at hst
  · cases hst
    rw [phase_wait _ _ _ (k + 1) _ 0] at h
    rw [SortOk, goto, phase_wait _ _ _ (k + 1) _ 0]
    exact (h.look k).goto _
  split_ifs at hst with hdone
  swap
  · cases hst
    rw [phase_wait _ _ _ 0 _ 0] at h
    exact h.goto _
  cases hst
  cases b with
  | initial => exact h.goto _
  | finished =>
    obtain ⟨hinput, given, hd⟩ := h
    refine ⟨given, (Dealing.toSorted ⟨hd.share, hd.sent, hd.fresh⟩ hinput fun i hi => ?_)⟩
    exact hinv'.inStage rfl hi
  | ended => exact h.goto _
  | dead => exact h.goto _

theorem SortOk.register (h : SortOk job s) (hpc : s.pc = .register k)
    (hst : registerWorkers job s k = some s') : SortOk job s' := by
  rw [SortOk, hpc] at h
  obtain ⟨given, hd⟩ := h
  simp only [registerWorkers] at hst
  split at hst <;> cases hst
  · exact ⟨given, hd.slot k (Received.look .master) rfl rfl ⟨rfl, rfl, rfl⟩⟩
  · exact ⟨given, hd.share, hd.sent, hd.fresh⟩

theorem outgoing_ack (hin : InStage job .finishedSeen w) (st : WorkerState)
    (rows : Option Nat → List α) : (w.put st).outgoing rows = w.outgoing rows := by
  obtain ⟨-, -, -, -, run, hpc⟩ := hin.ctl.of_finishedSeen
  rcases hpc with hpc | hpc <;> simp [Slot.outgoing, Slot.toSend, Slot.put, hpc]

section

variable (h : SortOk job s) (hinv : Inv false job s)
include h hinv

theorem SortOk.transition (hsort : job.isSort = true) {ho : HandOver}
    (hpc : s.pc = .transition ho k) (hst : stateTransition job s ho k = some s') :
    SortOk job s' := by
  rw [SortOk, hpc] at h
  simp only [stateTransition] at hst
  split at hst
  next hk =>
    cases hst
    cases ho with
    | start =>
      obtain ⟨given, hd⟩ := h
      refine ⟨given, hd.slot k ?_ rfl rfl ⟨rfl, rfl, rfl⟩⟩
      split
      · exact Received.refresh rfl rfl
      · exact Received.refresh rfl rfl
    | ack =>
      obtain ⟨given, hd⟩ := h
      have hin := hinv.inStage (by rw [hpc]; rfl) hk
      rw [hpc] at hin
      simp only [stage, lt_irrefl, if_false] at hin
      refine ⟨given, hd.slot k ?_ rfl ⟨rfl, rfl, rfl⟩⟩
      split
      · exact outgoing_ack (hin.look .master) _ _
      · rfl
  · cases hst
    cases ho with
    | start =>
      rw [show HandOver.next job s .start = .distribute by simp [HandOver.next, hsort]]
      exact h.goto _
    | ack =>
      intro whole hw
      obtain ⟨given, hd⟩ := h
      obtain ⟨hmerge, hret, -⟩ := hd.fresh
      have hm := hd.toMerging hw
      refine ⟨hret, ?_, _, { __ := hm }⟩
      rw [goto, hmerge]
      rfl

theorem SortOk.distribute (hpc : s.pc = .distribute) (hst : distributeToWorker s = some s') :
    SortOk job s' := by
  obtain ⟨-, hworkers, -⟩ := hinv.located hpc rfl
  rw [SortOk, hpc] at h
  obtain ⟨given, hd⟩ := h
  simp only [distributeToWorker] at hst
  split at hst
  · rename_i hinput
    cases hst
    refine ⟨hinput, given, hd.share, fun i hi => ?_, hd.fresh⟩
    simpa [State.goto] using hd.sent i hi
  rename_i t rest hinput
  obtain ⟨s₁, hs₁, rfl⟩ := map_eq_some_iff.mp hst
  obtain ⟨k, w, r, hk, hadd, rfl⟩ := addTo_eq_some hs₁
  obtain ⟨rfl, hlt⟩ := workers_getElem? hworkers hk
  simp only [SortOk, State.set, hpc]
  exact ⟨_, hd.tuple hinput hlt hadd rfl rfl ⟨rfl, rfl, rfl⟩⟩

theorem SortOk.distributeLast (hpc : s.pc = .distributeLast i)
    (hst : distributeLast s i = some s') : SortOk job s' := by
  obtain ⟨-, hworkers, -⟩ := hinv.located hpc rfl
  rw [SortOk, hpc] at h
  obtain ⟨hinput, given, hd⟩ := h
  simp only [PrlPg.distributeLast] at hst
  split at hst
  · obtain ⟨s₁, hs₁, rfl⟩ := map_eq_some_iff.mp hst
    obtain ⟨k, w, r, hk, hadd, rfl⟩ := addTo_eq_some hs₁
    obtain ⟨rfl, hlt⟩ := workers_getElem? hworkers hk
    exact ⟨hinput, given, hd.last hadd rfl rfl ⟨rfl, rfl, rfl⟩⟩
  rename_i hge
  cases hst
  rw [hworkers, length_range] at hge
  refine ⟨hinput, given, hd.share, fun j hj => ?_, hd.fresh⟩
  have hsent := hd.sent j hj
  have hlt : j < i := by simp only [registered] at hge; omega
  simpa [goto, hlt, hj] using hsent

theorem SortOk.prepare {cw : Nat} (hpc : s.pc = .prepare cw)
    (hst : prepareForMerge job s cw = some s') : SortOk job s' := by
  obtain ⟨-, hworkers, -⟩ := hinv.located hpc rfl
  rw [SortOk, hpc] at h
  simp only [prepareForMerge] at hst
  split at hst
  · obtain ⟨⟨cell, s₁⟩, hs₁, rfl⟩ := map_eq_some_iff.mp hst
    obtain ⟨k, w, hk, hget, rfl⟩ := getFrom_eq_some hs₁
    obtain ⟨rfl, hlt⟩ := workers_getElem? hworkers hk
    intro whole hw
    obtain ⟨hret, hend, left, hm⟩ := h hw
    refine ⟨hret, ?_, hm.prepare hw hret hlt hget _⟩
    cases cell <;> exact hend
  rename_i hge
  cases hst
  rw [hworkers, length_range] at hge
  simp only [registered] at hge
  have hle : cw ≤ job.workersCnt := by have := hinv.bounded; rwa [hpc] at this
  obtain rfl : cw = job.workersCnt := by omega
  intro whole hw
  obtain ⟨hret, hend, left, hm⟩ := h hw
  exact ⟨by simp [Merge.prepared, hend], left,
    { hm with eof := fun he => by simp [Merge.prepared, hm.eof he] }⟩

end

theorem SortOk.getTuple (h : SortOk job s) (hpc : s.pc = .getTuple)
    (hst : gettupleslotFromWorker job s = some s') : SortOk job s' := by
  rw [SortOk, hpc] at h
  simp only [gettupleslotFromWorker] at hst
  split_ifs at hst with hover
  · cases hst
    intro whole hw
    obtain ⟨hend, left, hm⟩ := h hw
    exact ⟨hend, left, { hm with eof := fun _ => hover }⟩
  cases hmem : s.merge.memtuples with
  | nil => simp [hmem] at hst
  | cons stup m =>
    simp only [hmem] at hst
    split at hst
    all_goals
      rename_i hfin
      cases hst
      intro whole hw
      obtain ⟨hend, left, hm⟩ := h hw
      have hrun := (hm.running stup (by simp [hmem])).2
    · -- a tuple in the heap is from a worker that has not finished
      simp [hrun] at hfin
    · refine ⟨?_, left, hm.takeRoot hw hmem _⟩
      simpa [goto, Merge.takeRoot] using hover

theorem SortOk.fetch (h : SortOk job s) (hinv : Inv false job s) (hpc : s.pc = .fetch stup)
    (hst : fetchNext job s stup = some s') : SortOk job s' := by
  obtain ⟨-, hworkers, -⟩ := hinv.located hpc rfl
  rw [SortOk, hpc] at h
  obtain ⟨⟨cell, s₁⟩, hs₁, rfl⟩ := map_eq_some_iff.mp hst
  obtain ⟨k, w, hk, hget, rfl⟩ := getFrom_eq_some hs₁
  obtain ⟨rfl, hlt⟩ := workers_getElem? hworkers hk
  intro whole hw
  obtain ⟨hend, left, hm⟩ := h hw
  have hnot : s.merge.isParallelEnded = false := by
    by_contra hne
    simpa using (hend.mp (by simpa using hne)).1
  have heof : s.eof = false := by
    by_contra hne
    simp [hm.eof (by simpa using hne)] at hnot
  refine ⟨?_, hm.refill hw (le_rfl) hget heof⟩
  cases cell with
  | last => simp [State.yield, Merge.refill, Merge.finish, State.set, hnot]
  | tuple t =>
    have hne : insert (heapCompare job.comparetup) s.merge.memtuples ⟨t, stup.tupindex⟩ ≠ [] := by
      intro hnil
      have := insert_perm (heapCompare job.comparetup) s.merge.memtuples ⟨t, stup.tupindex⟩
      simp [hnil] at this
    simp [State.yield, Merge.refill, State.set, hnot, tuplesortHeapInsert, hne]

/-- Ending the node returns nothing. -/
theorem SortOk.shutdown (h : ∀ ⦃whole⦄, MergesWell job whole → s.eof = true → IsSorting job whole s.returned)
    (hpc : (∃ k, s.pc = .stopScan k) ∨ (∃ k, s.pc = .stopGet k) ∨ (∃ k, s.pc = .destroyScan k) ∨
      ∃ k, s.pc = .releaseScan k)
    (hst : masterStep job s = some s') : SortOk job s' := by
  rcases hpc with ⟨k, hpc⟩ | ⟨k, hpc⟩ | ⟨k, hpc⟩ | ⟨k, hpc⟩
  · simp only [masterStep, hpc, stopStep] at hst
    split at hst
    · split at hst
      · cases hst
        split <;> exact h
      · cases hst
        exact h
    · cases hst
      exact h
  · simp only [masterStep, hpc, stopGetStep] at hst
    cases hst
    exact h
  · simp only [masterStep, hpc, destroyStep] at hst
    split at hst
    · split at hst <;> cases hst <;> exact h
    · cases hst
      exact h
  · simp only [masterStep, hpc, releaseStep] at hst
    split at hst <;> cases hst <;> exact h

section

variable (h : SortOk job s) (hinv : Inv false job s)
include h hinv

theorem SortOk.master (hinv' : Inv false job s') (hsort : job.isSort = true)
    (hst : masterStep job s = some s') : SortOk job s' := by
  have hfits := hinv.fits
  have hst₀ := hst
  rw [masterStep] at hst
  revert hst
  cases hpc : s.pc with
  | create i => exact h.create hinv hsort hpc
  | wait b k c => exact h.wait hinv' hpc
  | register k => exact h.register hpc
  | transition ho k => exact h.transition hinv hsort hpc
  | distribute => exact h.distribute hinv hpc
  | distributeLast i => exact h.distributeLast hinv hpc
  | prepare cw => exact h.prepare hinv hpc
  | getTuple => exact h.getTuple hpc
  | fetch stup => exact h.fetch hinv hpc
  | stopScan k | stopGet k | destroyScan k | releaseScan k =>
    rw [SortOk, hpc] at h
    exact fun _ => SortOk.shutdown h (by simp [hpc]) hst₀
  | poll i | waitState i | assign i =>
    rw [hpc] at hfits
    exact absurd (hsort.symm.trans hfits) (by simp)
  | cancel k | waitAll k b | cleanup k =>
    rcases hinv.path rfl with hn | hf
    · simp [hpc, normal] at hn
    · simp [hpc] at hf
  | _ => simp

/-- A worker, or the postmaster for it, moves. -/
theorem SortOk.slot (hsort : job.isSort = true) (hunused : s.slots i ≠ Slot.unused)
    (hrecv : ∀ g : Stage, g.Receives → InStage job g (s.slots i) → ∀ stream,
      Received (job.localSort i) (s.slots i) stream → Received (job.localSort i) w stream)
    (hsend : ∀ g, g.Settled job → InStage job g (s.slots i) →
      w.outgoing job.rows = (s.slots i).outgoing job.rows) : SortOk job (s.set i w) := by
  have hi : i < job.workersCnt := by
    by_contra hge
    exact hunused (hinv.beyond i (by omega))
  rcases hinv.path rfl with hn | hf
  · have hin := hinv.inStage hn hi
    exact SortData.slot h (phase_stages hsort s.pc _ i) (fun hg => hrecv _ hg hin)
      fun hg => hsend _ hg hin
  rw [SortOk, hf] at h
  simp only [SortOk, State.set, hf]
  exact h

theorem SortOk.event (hinv' : Inv false job s') (hsort : job.isSort = true) {e : Event}
    (he : e.quiet = true) (hst : step job s e = some s') : SortOk job s' := by
  cases step_occurs hst with
  | master hst => exact h.master hinv hinv' hsort hst
  | fetch hpc =>
    rw [SortOk, hpc] at h
    rw [hsort]
    exact h.goto _
  | endNode hpc =>
    rw [SortOk, hpc] at h
    intro whole hw heof
    obtain ⟨hend, left, hm⟩ := h hw
    exact hm.isSorting (hend.mp (hm.eof heof)).2
  | worker hw' =>
    refine h.slot hinv hsort (fun hu => ?_) (fun g hg hin => (recv_slaveStep hin hg hw').2)
      fun g hg hin => outgoing_slaveStep hin hg hw'
    simp [hu, Slot.unused, slaveStep] at hw'
  | fork hw' =>
    refine h.slot hinv hsort (fun hu => ?_) (fun g hg hin stream hr => hr.forkSlave hin hw')
      fun g hg hin => outgoing_forkSlave hin hw'
    simp [hu, Slot.unused, forkSlave] at hw'
  | _ => simp [Event.quiet] at he

end

theorem sortOk_init (job : Job α) (freeSems : Nat) : SortOk job (init job freeSems) := by
  refine ⟨fun _ => [], ?_, fun _ _ => rfl, rfl, rfl, rfl⟩
  simp [init]

/-- In every run without errors the tuples are where they should be. -/
theorem SortOk.run (hq : 0 < job.queueSize) (hsort : job.isSort = true)
    {freeSems : Nat} (h : Run.Steps (step job) Quiet (init job freeSems) s) :
    Inv false job s ∧ SortOk job s :=
  h.invariant (I := fun s => Inv false job s ∧ SortOk job s)
    ⟨inv_init false job freeSems, sortOk_init job freeSems⟩ fun _ _ _ hu he hst =>
      have hinv' := hu.1.event hq (fun _ => he) hst
      ⟨hinv', hu.2.event hu.1 hinv' hsort he hst⟩

/-- What has been returned when the node says that there is no more. -/
theorem SortOk.isSorting (h : SortOk job s) (hw : MergesWell job whole) (heof : s.eof = true) :
    IsSorting job whole s.returned := by
  have hfresh : ∀ given closed, ¬ Dealing job s given closed := fun _ _ hd => by
    simp [hd.fresh.2.2] at heof
  simp only [SortOk] at h
  cases hph : s.pc.phase job.workersCnt <;> rw [hph] at h
  case dealing => exact absurd h.choose_spec (hfresh _ _)
  case closing => exact absurd h.2.choose_spec (hfresh _ _)
  case sorted =>
    obtain ⟨given, hd⟩ := h
    simp [hd.fresh.2.2] at heof
  case preparing =>
    obtain ⟨-, hend, left, hm⟩ := h hw
    simp [hm.eof heof] at hend
  case merging hand =>
    obtain ⟨hend, left, hm⟩ := h hw
    obtain ⟨rfl, hmem⟩ := hend.mp (hm.eof heof)
    exact hm.isSorting hmem
  case past => exact h hw heof

end PrlPg
