/-
Which cursor operations a parallel sort supports.

The parallel path is compared with the serial one operation by operation.  Both are idle
until the first fetch.  After that the serial path moves an index over the sorted tuples,
while the parallel path can only go on: the direction of a fetch is not looked at, and
mark, restore and rescan find the tuplesort in a state they do not know.  A first fetch
that goes backward finds nothing on either path, but on the parallel one it has made the
workers read their sorts backward from the start, so nothing ever comes.  And every fresh
start takes new semaphores, because a rescan with new parameters forgets the old workers.

`CursorMode` is what is left to agree on, and `CursorMode.next` says which operations keep
the agreement.  For the operations that do not, an input is given on which the replies
differ: equal tuples, just as many as it takes.
-/
import PrlPg.Executor.SortCursor
import PrlPg.Proofs.ParallelSort

namespace PrlPg

open List Run

variable {α : Type*}

/-! ### What the workers send -/

theorem sendLoop_forward {calls : Nat} : ∀ {st : Tuplesortstate α}, st.status = .sortedInMem →
      st.memtuples.length - st.current < calls →
      sendLoop true calls st = st.memtuples.drop st.current := by
  induction calls with
  | zero => intro st _ hlt; omega
  | succ calls ih =>
    intro st hst hlt
    by_cases hc : st.current < st.memtuples.length
    · rw [drop_eq_getElem_cons hc]
      simp only [sendLoop, tuplesortGettupleCommon, hst, if_true, getElem?_eq_getElem hc]
      refine congrArg _ (ih rfl ?_)
      show st.memtuples.length - (st.current + 1) < calls
      omega
    · simp only [sendLoop, tuplesortGettupleCommon, hst, if_true, getElem?_eq_none (not_lt.mp hc)]
      rw [drop_eq_nil_of_le (not_lt.mp hc)]

theorem workerRun_forward (l : List α) : workerRun true l = l := by
  rw [workerRun, sendLoop_forward rfl (by simp [tuplesortPerformsort])]
  rfl

variable {job : Job α} {outer : List α}
variable {whole : Multiset α}

theorem scan_forward_mergesWell (hw : SortsWell job) : MergesWell (job.scan outer true) outer := by
  have hscan : SortsWell (job.scan outer true) := by
    refine ⟨hw.preorder, fun i l => ?_, fun i l => ?_⟩
    · simp only [Job.scan, workerRun_forward]
      exact hw.perm i l
    · simp only [Job.scan, workerRun_forward]
      exact hw.sorted i l
  exact hscan.mergesWell

theorem scan_backward_mergesWell (hw : SortsWell job) : MergesWell (job.scan outer false) 0 := by
  refine ⟨hw.preorder, fun i l => ?_, fun given _ => ?_⟩
  · exact Pairwise.nil
  · simp only [Job.scan, show ∀ l : List α, workerRun false l = [] from fun _ => rfl,
      Multiset.coe_nil, Finset.sum_const_zero]

/-- A run of the job returns `l` in all. -/
def Delivers (job : Job α) (l : List α) : Prop :=
  ∃ freeSems s, Run.Steps (step job) Drain (init job freeSems) s ∧ s.eof = true ∧ s.returned = l

theorem Delivers.isSorting {l : List α} (h : Delivers job l) (hq : 0 < job.queueSize)
    (hsort : job.isSort = true) (hw : MergesWell job whole) : IsSorting job whole l := by
  obtain ⟨freeSems, s, hrun, heof, rfl⟩ := h
  exact (SortOk.run hq hsort (hrun.mono fun _ _ => Drain.quiet)).2.isSorting hw heof

theorem exists_delivers (hq : 0 < job.queueSize) (hlevel : 0 < job.level)
    (hsort : job.isSort = true) (hw : MergesWell job whole) : ∃ l, Delivers job l := by
  obtain ⟨t, hrun, heof⟩ := sort_reaches_eof hq hlevel hw hsort (le_refl (3 * job.level)) Steps.refl
  exact ⟨t.returned, _, t, hrun, heof, rfl⟩

/-! ### What the two paths agree on -/

/-- Where a cursor is: not set up, `n` tuples read forward, or set up by a backward fetch. -/
inductive CursorMode
  | fresh
  | forward (n : Nat)
  | backward
  deriving DecidableEq, Repr

/-- The operations that keep the two paths in agreement, with the semaphores left. -/
def CursorMode.next (prlLevel : Nat) : CursorMode × Nat → SortOp → Option (CursorMode × Nat)
  | (.fresh, sems), .fetch fwd =>
    if 3 * prlLevel ≤ sems then
      some (if fwd then .forward 1 else .backward, sems - 3 * prlLevel)
    else none
  | (.forward n, sems), .fetch true => some (.forward (n + 1), sems)
  | (.backward, sems), .fetch false => some (.backward, sems)
  | (_, sems), .rescan true => some (.fresh, sems)
  | (.fresh, sems), .markPos => some (.fresh, sems)
  | (.fresh, sems), .restrPos => some (.fresh, sems)
  | (.fresh, sems), .rescan false => some (.fresh, sems)
  | _, _ => none

/-- All operations of a sequence do: between two rescans with new parameters every fetch
goes the same way, nothing is marked, restored or rescanned once a tuple has been asked
for, and the pool has three semaphores for every worker of every set-up. -/
def cursorOk (prlLevel freeSems : Nat) (ops : List SortOp) : Bool :=
  (Run.exec (CursorMode.next prlLevel) (.fresh, freeSems) ops).isSome

/-- The same reply, up to the order of tuples that compare equal. -/
inductive SameReply (cmp : α → α → Int) :
    Except SortError (Reply α) → Except SortError (Reply α) → Prop
  | tuple {a b} (h : cmp a b = 0) :
      SameReply cmp (.ok (.slot (some a))) (.ok (.slot (some b)))
  | empty : SameReply cmp (.ok (.slot none)) (.ok (.slot none))
  | done : SameReply cmp (.ok .done) (.ok .done)
  | error {e} : SameReply cmp (.error e) (.error e)

/-- The merge has what the serial sort has, or nothing. -/
structure Agreeing (cmp : α → α → Int) (node : SortNode α) : Prop where
  forward : ∀ k, List.Forall₂ (fun a b => cmp a b = 0) (node.merged k true)
    (node.performsort (node.outer k))
  backward : ∀ k, node.merged k false = []

/-- The parallel path has `rest` to return. -/
structure Reading (p : SortState α) (rest : List α) : Prop where
  sortDone : p.sortDone = true
  isParallel : p.tuplesortstate.isParallel = true
  status : p.tuplesortstate.status = .initial
  merging : p.tuplesortstate.merging = rest

/-- The serial path is at position `c` of the sorted tuples `l`. -/
structure Seated (s : SortState α) (l : List α) (c : Nat) (eof : Bool) : Prop where
  sortDone : s.sortDone = true
  isParallel : s.tuplesortstate.isParallel = false
  status : s.tuplesortstate.status = .sortedInMem
  memtuples : s.tuplesortstate.memtuples = l
  current : s.tuplesortstate.current = c
  eofReached : s.tuplesortstate.eofReached = eof

def InMode (node : SortNode α) (p s : SortState α) : CursorMode → Prop
  | .fresh => p.sortDone = false ∧ s.sortDone = false
  | .forward n => 0 < n ∧ Reading p ((node.merged s.scan true).drop n) ∧
    let l := node.performsort (node.outer s.scan)
    Seated s l (min n l.length) (decide (l.length < n))
  | .backward => Reading p [] ∧ Seated s (node.performsort (node.outer s.scan)) 0 false

/-- Both paths are where the mode says. -/
structure Matches (node : SortNode α) (m : CursorMode × Nat) (p s : SortState α) : Prop where
  scan : p.scan = s.scan
  sems : p.freeSems = m.2
  mode : InMode node p s m.1

/-! ### Fetching -/

variable {sems : Nat} {op : SortOp}

section Fetching

variable {cmp : α → α → Int} {node : SortNode α} {p s : SortState α} {l rest : List α} {c : Nat}
  {eof : Bool} {n : Nat} {a : α}

theorem Reading.fetch (h : Reading p rest) (forward : Bool) :
    ∃ p', execSortFetch p forward = .ok (rest.head?, p') ∧ Reading p' rest.tail ∧
      p'.scan = p.scan ∧ p'.freeSems = p.freeSems := by
  obtain ⟨sortDone, ⟨status, isParallel, memtuples, current, eofReached, markposOffset,
    markposEof, merging⟩, scan, freeSems⟩ := p
  obtain ⟨rfl, rfl, rfl, rfl⟩ := h
  cases merging with
  | nil | cons t rest => exact ⟨_, rfl, ⟨rfl, rfl, rfl, rfl⟩, rfl, rfl⟩

/-- Forward: the tuple at the position, and one further, or the end. -/
theorem Seated.fetch_forward (h : Seated s l (min n l.length) (decide (l.length < n))) :
    ∃ s', execSortFetch s true = .ok (l[n]?, s') ∧
      Seated s' l (min (n + 1) l.length) (decide (l.length < n + 1)) ∧ s'.scan = s.scan := by
  obtain ⟨sortDone, ⟨status, isParallel, memtuples, current, eofReached, markposOffset,
    markposEof, merging⟩, scan, freeSems⟩ := s
  obtain ⟨hdone, hpar, hst, hmem, hcur, heof⟩ := h
  simp only at hdone hpar hst hmem hcur heof
  subst hdone hpar hst hmem hcur heof
  simp only [execSortFetch, Bool.false_eq_true, if_false, tuplesortGettupleCommon, if_true]
  by_cases hn : n < memtuples.length
  · have hmin : min (n + 1) memtuples.length = n + 1 := by omega
    rw [Nat.min_eq_left (by omega), getElem?_eq_getElem hn]
    refine ⟨_, rfl, ⟨rfl, rfl, rfl, rfl, hmin.symm, ?_⟩, rfl⟩
    simp only [decide_eq_decide]
    omega
  have hmin : min (n + 1) memtuples.length = memtuples.length := by omega
  rw [Nat.min_eq_right (by omega), getElem?_eq_none (le_rfl), getElem?_eq_none (by omega)]
  refine ⟨_, rfl, ⟨rfl, rfl, rfl, rfl, hmin.symm, ?_⟩, rfl⟩
  simp only [true_eq_decide_iff]
  omega

theorem Seated.fetch_first (h : Seated s l 0 false) : ∃ s', execSortFetch s true = .ok (l[0]?, s') ∧
      Seated s' l (min 1 l.length) (decide (l.length < 1)) ∧ s'.scan = s.scan :=
  fetch_forward (n := 0) (by simpa using h)

theorem Seated.fetch_start (h : Seated s l 0 false) : execSortFetch s false = .ok (none, s) := by
  simp [execSortFetch, h.isParallel, tuplesortGettupleCommon, h.status, h.current, Except.map]

/-- The node as the parallel path runs it. -/
abbrev SortNode.parallel (node : SortNode α) : SortNode α := { node with prlSort := true }

/-- The node as the serial path runs it. -/
abbrev SortNode.serial (node : SortNode α) : SortNode α := { node with prlSort := false }

/-- The set-up call of the parallel path. -/
theorem execSort_parallel (node : SortNode α) (hdone : p.sortDone = false)
    (hsems : 3 * node.prlLevel ≤ p.freeSems) (forward : Bool) :
    ∃ p', execSort node.parallel p forward = .ok ((node.merged p.scan forward).head?, p') ∧
      Reading p' (node.merged p.scan forward).tail ∧ p'.scan = p.scan ∧
      p'.freeSems = p.freeSems - 3 * node.prlLevel := by
  simp only [execSort, hdone, Bool.false_eq_true, if_false, execSortFirst, if_true, if_pos hsems]
  exact Reading.fetch ⟨rfl, rfl, rfl, rfl⟩ forward

theorem execSort_serial (node : SortNode α) (hdone : s.sortDone = false) (forward : Bool) :
    ∃ s₁, execSort node.serial s forward = execSortFetch s₁ forward ∧
      Seated s₁ (node.performsort (node.outer s.scan)) 0 false ∧ s₁.scan = s.scan := by
  simp only [execSort, hdone, Bool.false_eq_true, if_false, execSortFirst]
  exact ⟨_, rfl, ⟨rfl, rfl, rfl, rfl, rfl, rfl⟩, rfl⟩

/-- Related lists have related tuples at every position. -/
theorem sameReply_slot {l' : List α} (h : Forall₂ (fun a b => cmp a b = 0) l' l) (n : Nat) :
    SameReply cmp (.ok (.slot l'[n]?)) (.ok (.slot l[n]?)) := by
  have hlen := h.length_eq
  by_cases hn : n < l.length
  · rw [getElem?_eq_getElem hn, getElem?_eq_getElem (hlen ▸ hn)]
    exact .tuple (h.get (hlen ▸ hn) hn)
  · rw [getElem?_eq_none (by omega), getElem?_eq_none (by omega)]
    exact .empty

/-! ### One operation -/

theorem sortOp_fetch {st st' : SortState α} {forward : Bool} {t : Option α}
    (h : execSort node st forward = .ok (t, st')) :
    sortOp node st (.fetch forward) = .ok (.slot t, st') := by
  simp only [sortOp, h, Except.map]

/-- Both paths carry out an operation with the same reply, and match in the mode after it. -/
abbrev BothReply (cmp : α → α → Int) (node : SortNode α) (p s : SortState α) (op : SortOp)
    (m : CursorMode × Nat) : Prop :=
  ∃ rp rs p' s', sortOp node.parallel p op = .ok (rp, p') ∧
    sortOp node.serial s op = .ok (rs, s') ∧ SameReply cmp (.ok rp) (.ok rs) ∧ Matches node m p' s'

/-- The first fetch. -/
theorem Matches.first (hag : Agreeing cmp node) (h : Matches node (.fresh, sems) p s)
    (hsems : 3 * node.prlLevel ≤ sems) (forward : Bool) :
    BothReply cmp node p s (.fetch forward)
      (if forward then .forward 1 else .backward, sems - 3 * node.prlLevel) := by
  obtain ⟨hscan, hfree, hp, hs⟩ := h
  obtain ⟨p', hp', hread, hscan', hfree'⟩ :=
    execSort_parallel node hp (by rw [hfree]; exact hsems) forward
  obtain ⟨s₁, hs₁, hseat, hscan₁⟩ := execSort_serial node hs forward
  rw [hfree] at hfree'
  rw [hscan] at hp' hread
  cases forward with
  | true =>
    obtain ⟨s', hs', hseat', hscan''⟩ := hseat.fetch_first
    have hsame := sameReply_slot (hag.forward s.scan) 0
    rw [← head?_eq_getElem?] at hsame
    refine ⟨_, _, p', s', sortOp_fetch hp', sortOp_fetch (hs₁.trans hs'), hsame, ?_, hfree', ?_⟩
    · rw [hscan', hscan'', hscan₁, hscan]
    refine ⟨Nat.zero_lt_one, ?_, ?_⟩
    · rw [hscan'', hscan₁, drop_one]
      exact hread
    · rw [hscan'', hscan₁]
      exact hseat'
  | false =>
    have hnone := hag.backward s.scan
    rw [hnone] at hp' hread
    refine ⟨_, _, p', s₁, sortOp_fetch hp', sortOp_fetch (hs₁.trans hseat.fetch_start), .empty,
      ?_, hfree', hread, ?_⟩
    · rw [hscan', hscan₁, hscan]
    · rw [hscan₁]
      exact hseat

/-- Another one in the same direction. -/
theorem Matches.again (hag : Agreeing cmp node)
    (h : Matches node (.forward n, sems) p s) :
    BothReply cmp node p s (.fetch true) (.forward (n + 1), sems) := by
  obtain ⟨hscan, hfree, hn, hread, hseat⟩ := h
  obtain ⟨p', hp', hread', hscan', hfree'⟩ := hread.fetch true
  obtain ⟨s', hs', hseat', hscan''⟩ := hseat.fetch_forward
  have hp : execSort node.parallel p true = _ := (if_pos hread.sortDone).trans hp'
  have hs : execSort node.serial s true = _ := (if_pos hseat.sortDone).trans hs'
  have hsame := sameReply_slot (hag.forward s.scan) n
  rw [← head?_drop] at hsame
  refine ⟨_, _, p', s', sortOp_fetch hp, sortOp_fetch hs, hsame, ?_, hfree'.trans hfree, ?_⟩
  · rw [hscan', hscan'', hscan]
  refine ⟨Nat.succ_pos n, ?_, ?_⟩
  · rw [hscan'', ← tail_drop]
    exact hread'
  · rw [hscan'']
    exact hseat'

theorem Matches.again_backward (h : Matches node (.backward, sems) p s) :
    BothReply cmp node p s (.fetch false) (.backward, sems) := by
  obtain ⟨hscan, hfree, hread, hseat⟩ := h
  obtain ⟨p', hp', hread', hscan', hfree'⟩ := hread.fetch false
  have hp : execSort node.parallel p false = _ := (if_pos hread.sortDone).trans hp'
  have hs : execSort node.serial s false = _ :=
    (if_pos hseat.sortDone).trans hseat.fetch_start
  exact ⟨_, _, p', s, sortOp_fetch hp, sortOp_fetch hs, .empty, hscan'.trans hscan,
    hfree'.trans hfree, hread', hseat⟩

/-- An operation that `CursorMode.next` allows keeps the agreement. -/
theorem Matches.next (hag : Agreeing cmp node) {m m' : CursorMode × Nat} (h : Matches node m p s)
    (hnext : CursorMode.next node.prlLevel m op = some m') : BothReply cmp node p s op m' := by
  obtain ⟨mode, sems⟩ := m
  -- before the first fetch an operation on the tuplesort does nothing
  have hidle : ∀ {o}, mode = .fresh → ifSorted o p = .ok p ∧ ifSorted o s = .ok s := by
    rintro o rfl
    exact ⟨if_neg (by rw [h.mode.1]; simp), if_neg (by rw [h.mode.2]; simp)⟩
  cases op with
  | fetch forward =>
    cases mode with
    | fresh =>
      simp only [CursorMode.next] at hnext
      split at hnext
      · cases hnext
        exact h.first hag ‹_› forward
      · cases hnext
    | forward n =>
      cases forward with
      | true =>
        cases hnext
        exact h.again hag
      | false => simp [CursorMode.next] at hnext
    | backward =>
      cases forward with
      | true => simp [CursorMode.next] at hnext
      | false =>
        cases hnext
        exact h.again_backward
  | rescan chgParam =>
    cases chgParam with
    | true =>
      simp only [CursorMode.next] at hnext
      cases hnext
      exact ⟨.done, .done, _, _, rfl, rfl, .done, congrArg (· + 1) h.scan, h.sems, rfl, rfl⟩
    | false =>
      cases mode with
      | fresh =>
        cases hnext
        refine ⟨.done, .done, p, s, ?_, ?_, .done, h⟩
        · simp only [sortOp, execReScanSort, Bool.false_eq_true, if_false, (hidle rfl).1,
            Except.map]
        · simp only [sortOp, execReScanSort, Bool.false_eq_true, if_false, (hidle rfl).2,
            Except.map]
      | forward n | backward => simp [CursorMode.next] at hnext
  | _ =>
    cases mode with
    | fresh =>
      cases hnext
      refine ⟨.done, .done, p, s, ?_, ?_, .done, h⟩
      · simp only [sortOp, execSortMarkPos, execSortRestrPos, (hidle rfl).1, Except.map]
      · simp only [sortOp, execSortMarkPos, execSortRestrPos, (hidle rfl).2, Except.map]
    | forward n | backward => simp [CursorMode.next] at hnext

/-! ### Operations that do not -/

/-- The number of equal tuples on which an operation that is not allowed shows. -/
def CursorMode.telling : CursorMode → Nat
  | .fresh => 0
  | .forward n => if n = 1 then 2 else n
  | .backward => 1

/-- The reply to one operation. -/
def reply (node : SortNode α) (st : SortState α) (op : SortOp) : Except SortError (Reply α) :=
  (sortOp node st op).map Prod.fst

/-- Both paths reply the same. -/
abbrev SameReplies (cmp : α → α → Int) (node : SortNode α) (p s : SortState α) (op : SortOp) :
    Prop :=
  SameReply cmp (reply node.parallel p op) (reply node.serial s op)

theorem Reading.operation (h : Reading p rest)
    (hop : op = .markPos ∨ op = .restrPos ∨ op = .rescan false) :
    reply node p op = .error .invalidState := by
  rcases hop with rfl | rfl | rfl <;>
    simp [reply, sortOp, execSortMarkPos, execSortRestrPos, execReScanSort, ifSorted, h.sortDone,
      tuplesortMarkpos, tuplesortRestorepos, tuplesortRescan, h.status, Except.map]

theorem Seated.operation (h : Seated s l c eof)
    (hop : op = .markPos ∨ op = .restrPos ∨ op = .rescan false) : reply node s op = .ok .done := by
  rcases hop with rfl | rfl | rfl <;>
    simp [reply, sortOp, execSortMarkPos, execSortRestrPos, execReScanSort, ifSorted, h.sortDone,
      tuplesortMarkpos, tuplesortRestorepos, tuplesortRescan, h.status, Except.map]

theorem Reading.reply_fetch (h : Reading p rest) (forward : Bool) :
    reply node p (.fetch forward) = .ok (.slot rest.head?) := by
  obtain ⟨p', hp', -⟩ := h.fetch forward
  simp [reply, sortOp, execSort, h.sortDone, hp', Except.map]

theorem not_same_error {e : SortError} {r : Reply α} : ¬ SameReply cmp (.error e) (.ok r) := nofun

theorem not_same_empty {t : α} : ¬ SameReply cmp (.ok (.slot none)) (.ok (.slot (some t))) := nofun

theorem not_same_tuple {t : α} : ¬ SameReply cmp (.ok (.slot (some t))) (.ok (.slot none)) := nofun

/-- Reading `n` equal tuples forward and then backward: of two tuples the parallel path
returns the second where the serial one returns nothing, and of `n > 1` tuples it returns
nothing where the serial one returns the last but one. -/
theorem Matches.turn (h : Matches node (.forward n, sems) p s)
    (hpar : node.merged s.scan true = replicate (CursorMode.forward n).telling a)
    (hser : node.performsort (node.outer s.scan) = replicate (CursorMode.forward n).telling a) :
    ¬ SameReplies cmp node p s (.fetch false) := by
  obtain ⟨-, -, hn, hread, hseat⟩ := h
  rw [SameReplies, hread.reply_fetch, hpar]
  simp only [hser, length_replicate] at hseat
  have hs : reply node.serial s (.fetch false)
      = (execSortFetch s false).map fun r => .slot r.1 := by
    simp only [reply, sortOp, execSort, hseat.sortDone, if_true]
    cases execSortFetch s false <;> rfl
  rw [hs]
  by_cases h1 : n = 1
  · subst h1
    have hnone : (execSortFetch s false).map (fun r => (Reply.slot r.1 : Reply α))
        = .ok (.slot none) := by
      simp [execSortFetch, hseat.isParallel, tuplesortGettupleCommon, hseat.status, hseat.current,
        hseat.eofReached, CursorMode.telling, Except.map]
    rw [hnone]
    exact not_same_tuple
  have htell : (CursorMode.forward n).telling = n := if_neg h1
  rw [htell] at hseat ⊢
  have hsome : (execSortFetch s false).map (fun r => (Reply.slot r.1 : Reply α))
      = .ok (.slot (some a)) := by
    have h0 : n ≠ 0 := by omega
    have h2 : n - 1 ≠ 0 := by omega
    have hlast : (replicate n a)[n - 1 - 1]? = some a := getElem?_replicate_of_lt (by omega)
    simp [execSortFetch, hseat.isParallel, tuplesortGettupleCommon, hseat.status, hseat.current,
      hseat.eofReached, hseat.memtuples, Except.map, h0, h2, hlast]
  rw [hsome]
  simpa using not_same_empty

/-- After a backward set-up the parallel path has nothing, and the serial one is at the
first tuple. -/
theorem Matches.turn_backward (h : Matches node (.backward, sems) p s)
    (hser : node.performsort (node.outer s.scan) = [a]) :
    ¬ SameReplies cmp node p s (.fetch true) := by
  obtain ⟨-, -, hread, hseat⟩ := h
  rw [hser] at hseat
  have hs : reply node.serial s (.fetch true) = .ok (.slot (some a)) := by
    simp [reply, sortOp, execSort, hseat.sortDone, execSortFetch, hseat.isParallel,
      tuplesortGettupleCommon, hseat.status, hseat.current, hseat.memtuples, Except.map]
  rw [SameReplies, hread.reply_fetch, hs]
  exact not_same_empty

/-- Without semaphores the parallel path raises an error, the serial one does not. -/
theorem Matches.starved (h : Matches node (.fresh, sems) p s) (hsems : ¬ 3 * node.prlLevel ≤ sems)
    (forward : Bool) : ¬ SameReplies cmp node p s (.fetch forward) := by
  obtain ⟨-, hfree, hp, hs⟩ := h
  have hpar : reply node.parallel p (.fetch forward) = .error .noSemaphores := by
    simp only [reply, sortOp, execSort, hp, Bool.false_eq_true, if_false, execSortFirst, if_true,
      show p.freeSems = sems from hfree, if_neg hsems, Except.map]
  obtain ⟨s₁, hs₁, hseat, -⟩ := execSort_serial node hs forward
  have hser : ∃ r, reply node.serial s (.fetch forward) = .ok r := by
    cases forward with
    | true =>
      obtain ⟨s', hs', -⟩ := hseat.fetch_first
      exact ⟨_, congrArg (Except.map Prod.fst) (sortOp_fetch (hs₁.trans hs'))⟩
    | false =>
      exact ⟨_, congrArg (Except.map Prod.fst) (sortOp_fetch (hs₁.trans hseat.fetch_start))⟩
  obtain ⟨r, hr⟩ := hser
  rw [SameReplies, hpar, hr]
  exact not_same_error

/-- An operation that is not allowed shows on the right number of equal tuples. -/
theorem Matches.differ {m : CursorMode × Nat} (h : Matches node m p s)
    (hnext : CursorMode.next node.prlLevel m op = none)
    (hpar : node.merged s.scan true = replicate m.1.telling a)
    (hser : node.performsort (node.outer s.scan) = replicate m.1.telling a) :
    ¬ SameReplies cmp node p s op := by
  obtain ⟨mode, sems⟩ := m
  -- once it is set up, the tuplesort of the parallel path knows none of the others
  have hother : mode ≠ .fresh → (op = .markPos ∨ op = .restrPos ∨ op = .rescan false) →
      ¬ SameReplies cmp node p s op := by
    intro hmode hop
    have hup : ∃ rest l c eof, Reading p rest ∧ Seated s l c eof := by
      cases mode with
      | fresh => cases hmode rfl
      | forward n => exact ⟨_, _, _, _, h.mode.2.1, h.mode.2.2⟩
      | backward => exact ⟨_, _, _, _, h.mode.1, h.mode.2⟩
    obtain ⟨rest, l, c, eof, hread, hseat⟩ := hup
    rw [SameReplies, hread.operation hop, hseat.operation hop]
    exact not_same_error
  cases op with
  | fetch forward =>
    cases mode with
    | fresh =>
      simp only [CursorMode.next] at hnext
      split_ifs at hnext
      exact h.starved ‹_› forward
    | forward n =>
      cases forward with
      | true => simp [CursorMode.next] at hnext
      | false => exact h.turn hpar hser
    | backward =>
      cases forward with
      | true => exact h.turn_backward hser
      | false => simp [CursorMode.next] at hnext
  | markPos =>
    refine hother (fun hf => ?_) (.inl rfl)
    simp [hf, CursorMode.next] at hnext
  | restrPos =>
    refine hother (fun hf => ?_) (.inr (.inl rfl))
    simp [hf, CursorMode.next] at hnext
  | rescan chgParam =>
    cases chgParam with
    | true => simp [CursorMode.next] at hnext
    | false =>
      refine hother (fun hf => ?_) (.inr (.inr rfl))
      simp [hf, CursorMode.next] at hnext

/-! ### Sequences of operations -/

/-- The replies of both paths agree. -/
def RepliesAgree (cmp : α → α → Int) (node : SortNode α) (p s : SortState α) (ops : List SortOp) :
    Prop :=
  List.Forall₂ (SameReply cmp) (replies { node with prlSort := true } p ops)
    (replies { node with prlSort := false } s ops)

theorem replies_cons (node : SortNode α) (st : SortState α) (op : SortOp) (ops : List SortOp) :
    ∃ tail, replies node st (op :: ops) = reply node st op :: tail := by
  simp only [replies, reply]
  cases sortOp node st op with
  | error e => exact ⟨[], rfl⟩
  | ok r => exact ⟨_, rfl⟩

theorem RepliesAgree.head {ops : List SortOp} (h : RepliesAgree cmp node p s (op :: ops)) :
    SameReplies cmp node p s op := by
  obtain ⟨tp, htp⟩ := replies_cons node.parallel p op ops
  obtain ⟨ts, hts⟩ := replies_cons node.serial s op ops
  rw [RepliesAgree, htp, hts, forall₂_cons] at h
  exact h.1

/-- Allowed operations come first: whether the rest agrees is decided where they lead. -/
theorem Matches.follow (hag : Agreeing cmp node) :
    ∀ (ops : List SortOp) {m m' : CursorMode × Nat} {p s : SortState α}, Matches node m p s →
      exec (CursorMode.next node.prlLevel) m ops = some m' →
      ∃ p' s', Matches node m' p' s' ∧ ∀ rest, RepliesAgree cmp node p s (ops ++ rest) ↔
        RepliesAgree cmp node p' s' rest := by
  intro ops
  induction ops with
  | nil =>
    intro m m' p s h hm
    cases hm
    exact ⟨p, s, h, fun _ => Iff.rfl⟩
  | cons op ops ih =>
    intro m m' p s h hm
    cases hm₁ : CursorMode.next node.prlLevel m op with
    | none => simp [exec, hm₁] at hm
    | some m₁ =>
      simp only [exec, hm₁] at hm
      obtain ⟨rp, rs, p₁, s₁, hp₁, hs₁, hsame, h₁⟩ := h.next hag hm₁
      obtain ⟨p', s', h', hiff⟩ := ih h₁ hm
      refine ⟨p', s', h', fun rest => ?_⟩
      rw [← hiff rest]
      simp only [RepliesAgree, cons_append, replies, hp₁, hs₁, forall₂_cons]
      exact and_iff_right hsame

end Fetching

/-- The node of a job, for what its outer plan returns and its merge delivers. -/
def Job.sortNode (job : Job α) (performsort : List α → List α) (prlSort : Bool)
    (outer : Nat → List α) (merged : Nat → Bool → List α) : SortNode α :=
  { prlSort, prlLevel := job.level, outer, performsort, merged }

section Main

variable {performsort : List α → List α} {outers : Nat → List α} {merged : Nat → Bool → List α}

theorem agreeing_of_delivers (hw : SortsWell job) (hq : 0 < job.queueSize)
    (hperm : ∀ l, (performsort l).Perm l)
    (hsorted : ∀ l, Nondecreasing job.comparetup (performsort l))
    (h : ∀ k fwd, Delivers (job.scan (outers k) fwd) (merged k fwd)) (prlSort : Bool) :
    Agreeing job.comparetup (job.sortNode performsort prlSort outers merged) := by
  refine ⟨fun k => ?_, fun k => ?_⟩
  · obtain ⟨hwhole, hnon⟩ := (h k true).isSorting hq rfl (scan_forward_mergesWell hw)
    exact hw.preorder.forall₂_of_perm
      ((Multiset.coe_eq_coe.mp hwhole).trans (hperm _).symm) hnon (hsorted _)
  · obtain ⟨hwhole, -⟩ := (h k false).isSorting hq rfl (scan_backward_mergesWell hw)
    exact (Multiset.coe_eq_zero _).mp hwhole

/--
Take any Sort node that was initialised with random access, any sequence of fetches in
either direction, marks, restores and rescans, and any pool of semaphores.  For every
input, and whatever the workers and the master interleave to, the parallel path gives the
same replies as the serial one, up to the order of tuples that compare equal, exactly when
the sequence is of the restricted form `cursorOk`.
-/
theorem sort_cursor_agrees_iff [Nonempty α] {job : Job α} (hw : SortsWell job)
    (hlevel : 0 < job.level) (hq : 0 < job.queueSize) {performsort : List α → List α}
    (hperm : ∀ l, (performsort l).Perm l)
    (hsorted : ∀ l, Nondecreasing job.comparetup (performsort l)) (freeSems : Nat)
    (ops : List SortOp) :
    (∀ (outers : Nat → List α) (merged : Nat → Bool → List α),
      (∀ k forward, Delivers (job.scan (outers k) forward) (merged k forward)) →
      List.Forall₂ (SameReply job.comparetup)
        (replies (job.sortNode performsort true outers merged) (execInitSort freeSems) ops)
        (replies (job.sortNode performsort false outers merged) (execInitSort freeSems) ops)) ↔
      cursorOk job.level freeSems ops = true := by
  have hstart : ∀ outers merged, Matches (job.sortNode performsort true outers merged)
      (.fresh, freeSems) (execInitSort freeSems) (execInitSort freeSems) :=
    fun _ _ => ⟨rfl, rfl, rfl, rfl⟩
  constructor
  · intro hall
    by_contra hok
    have hnone : exec (CursorMode.next job.level) (.fresh, freeSems) ops = none := by
      simpa [cursorOk] using hok
    obtain ⟨pre, op, post, m, rfl, hpre, hop⟩ := exec_none_split hnone
    -- equal tuples, as many as it takes to show
    obtain ⟨a⟩ := ‹Nonempty α›
    let outers : Nat → List α := fun _ => replicate m.1.telling a
    have hex : ∀ k forward, ∃ l, Delivers (job.scan (outers k) forward) l := by
      intro k forward
      cases forward with
      | true => exact exists_delivers hq hlevel rfl (scan_forward_mergesWell hw)
      | false => exact exists_delivers hq hlevel rfl (scan_backward_mergesWell hw)
    choose merged hmerged using hex
    have hag := agreeing_of_delivers hw hq hperm hsorted hmerged true
    obtain ⟨p', s', hm, hiff⟩ := (hstart outers merged).follow hag pre hpre
    have hagree := (hiff (op :: post)).mp (hall outers merged hmerged)
    refine hm.differ (a := a) hop ?_ ?_ hagree.head
    · obtain ⟨hwhole, -⟩ := (hmerged s'.scan true).isSorting hq rfl (scan_forward_mergesWell hw)
      exact perm_replicate.mp (Multiset.coe_eq_coe.mp hwhole)
    · exact perm_replicate.mp (hperm _)
  intro hok outers merged hmerged
  obtain ⟨m, hm⟩ := Option.isSome_iff_exists.mp hok
  have hag := agreeing_of_delivers hw hq hperm hsorted hmerged true
  obtain ⟨p', s', -, hiff⟩ := (hstart outers merged).follow hag ops hm
  have hagree := (hiff []).mpr Forall₂.nil
  rw [append_nil] at hagree
  exact hagree

end Main

/-! ### Runs -/

/-- One worker sorts two numbers for a node, set up forward or backward. -/
def scanned (forward : Bool) : State Nat :=
  Run.follow (step ((sortNats [] 1 2).scan [2, 1] forward))
    (init ((sortNats [] 1 2).scan [2, 1] forward) 3) (fetching 1 60 3)

theorem scanned_delivers (forward : Bool) :
    Delivers ((sortNats [] 1 2).scan [2, 1] forward) (if forward then [1, 2] else []) := by
  refine ⟨3, scanned forward, steps_of_follow _ (drain_fetching 1 60 3), ?_, ?_⟩
  · cases forward <;> decide +kernel
  · cases forward <;> decide +kernel

/-- The node of these runs. -/
def scanNats (prlSort : Bool) : SortNode Nat :=
  (sortNats [] 1 2).sortNode (List.insertionSort (· ≤ ·)) prlSort (fun _ => [2, 1])
    fun _ forward => if forward then [1, 2] else []

theorem sort_cursor_agrees_iff_forward :
    cursorOk 1 6 [.fetch true, .fetch true, .rescan true, .fetch true] = true ∧
      List.Forall₂ (SameReply compareNat) (replies (scanNats true) (execInitSort 6)
          [.fetch true, .fetch true, .rescan true, .fetch true])
        (replies (scanNats false) (execInitSort 6)
          [.fetch true, .fetch true, .rescan true, .fetch true]) := by
  have hok : cursorOk 1 6 [.fetch true, .fetch true, .rescan true, .fetch true] = true := by decide
  have hw := sortNats_sortsWell [] 1 2
  exact ⟨hok, (sort_cursor_agrees_iff hw (by decide) (by decide)
    (fun l => hw.perm 0 l) (fun l => hw.sorted 0 l) 6 _).mpr hok _ _
    fun _ forward => scanned_delivers forward⟩

/-- After two fetches forward a fetch backward finds nothing on the parallel path, and a
mark is an error. -/
theorem scanned_cannot_turn_or_mark : (∀ forward, Delivers ((sortNats [] 1 2).scan [2, 1] forward)
      ((scanNats true).merged 0 forward)) ∧
    (replies (scanNats true) (execInitSort 3) [.fetch true, .fetch true, .fetch false] =
        [.ok (.slot (some 1)), .ok (.slot (some 2)), .ok (.slot none)] ∧
      replies (scanNats false) (execInitSort 3) [.fetch true, .fetch true, .fetch false] =
        [.ok (.slot (some 1)), .ok (.slot (some 2)), .ok (.slot (some 1))]) ∧
    (replies (scanNats true) (execInitSort 3) [.fetch true, .markPos] =
        [.ok (.slot (some 1)), .error .invalidState] ∧
      replies (scanNats false) (execInitSort 3) [.fetch true, .markPos] =
        [.ok (.slot (some 1)), .ok .done]) ∧
    ∀ ops ∈ [[.fetch true, .fetch true, .fetch false], [.fetch true, .markPos]],
      ¬ List.Forall₂ (SameReply compareNat) (replies (scanNats true) (execInitSort 3) ops)
        (replies (scanNats false) (execInitSort 3) ops) := by
  have hturn : ¬ Forall₂ (SameReply compareNat)
      [.ok (.slot (some 1)), .ok (.slot (some 2)), .ok (.slot none)]
      [.ok (.slot (some 1)), .ok (.slot (some 2)), .ok (.slot (some 1))] := by
    simp [not_same_empty]
  have hmark : ¬ Forall₂ (SameReply compareNat)
      [.ok (.slot (some 1)), .error .invalidState] [.ok (.slot (some 1)), .ok .done] := by
    simp [not_same_error]
  refine ⟨scanned_delivers, ⟨rfl, rfl⟩, ⟨rfl, rfl⟩, fun ops hops => ?_⟩
  simp only [mem_cons, not_mem_nil, or_false] at hops
  rcases hops with rfl | rfl
  · exact hturn
  · exact hmark

end PrlPg
