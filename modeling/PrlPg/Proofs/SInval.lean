/-
No invalidation message is lost.

The counters of the segment say how far everybody is since they were last lowered; the
field `lowered` says by how much that has been so far, so that `lowered + nextMsgNum` is a
position in the sequence of all messages ever inserted.  `Delivered` is what the queue is
for: a backend that registered at position `a` and has been handed `log` since stands at
`c`, where every message was the next one and every reset skipped only messages that had
been inserted by then.

`BackendOk` is the invariant of one backend and `Inv` that of the system.  A reader holds
the read lock and keeps out `SICleanupQueue`, so the bound it has fetched stays above
`minMsgNum`; a writer holds the write lock, and the room it has checked for stays.  The
ring holds everything from `minMsgNum` on, with what a writer has put there but not yet
published (`Holds`).
-/
import PrlPg.Lib.RingBuffer
import PrlPg.Storage.SInvalAdt

namespace PrlPg.SInval

open Function List RingBuffer Run Sys

variable {α : Type*}
variable {log : List (Got α)} {sent : List α}

/-- Registered at position `a` and handed `log` since, a backend has come to position `c`
of the messages sent. -/
inductive Delivered (sent : List α) (a : Nat) : List (Got α) → Nat → Prop
  | start : Delivered sent a [] a
  | msg {log : List (Got α)} {c : Nat} (h : Delivered sent a log c) (hc : c < sent.length) :
      Delivered sent a (log ++ [.msg sent[c]?]) (c + 1)
  | reset {log : List (Got α)} {c g n : Nat} (h : Delivered sent a log c) (hcg : c ≤ g)
      (hgn : g ≤ n) (hn : n ≤ sent.length) : Delivered sent a (log ++ [.reset n]) g

/-- Messages sent later change nothing about what has been handed out. -/
theorem Delivered.append {a c : Nat} (h : Delivered sent a log c) (new : List α) :
    Delivered (sent ++ new) a log c := by
  induction h with
  | start => exact .start
  | msg _ hc ih =>
    have hnew := ih.msg (by rw [length_append]; omega)
    rwa [getElem?_append_left hc] at hnew
  | reset _ hcg hgn hn ih => exact ih.reset hcg hgn (by rw [length_append]; omega)

/-! ### The invariant -/

namespace ProcState

/-- The entry of a backend that is to be handed messages. -/
def receives (p : ProcState) : Prop := p.procPid ≠ 0 ∧ p.sendOnly = false

/-- The entries that hold back `minMsgNum`. -/
def counts (p : ProcState) : Prop := p.receives ∧ p.resetState = false

end ProcState

/-- How far a backend may read: what it has fetched, or `maxMsgNum` if it fetches now. -/
def Pc.limit (max : Int) : Pc α → Int
  | fetched mx _ | reading mx _ _ => mx
  | _ => max

/-- What a backend has put into the ring and not published. -/
def Pc.written : Pc α → List α
  | writing done _ _ => done
  | _ => []

variable {pc : Pc α}

theorem Pc.limit_of_not_holdsRead (max : Int) (h : pc.holdsRead = false) : pc.limit max = max := by
  cases pc <;> first | rfl | cases h

theorem Pc.eq_idle (h : pc.isIdle = true) : pc = .idle := by cases pc <;> first | rfl | cases h

/-- What is true of one backend. -/
structure BackendOk (min max : Int) (lowered : Nat) (sent : List α) (p : ProcState) (pc : Pc α)
    (since : Nat) (log : List (Got α)) : Prop where
  /-- An unused entry has no process in any of the routines. -/
  idle : p.procPid = 0 → pc = .idle
  /-- Nothing that may still be read has been given up. -/
  min_le : min ≤ pc.limit max
  le_max : pc.limit max ≤ max
  /-- Only backends that receive read, and the loop is for those that need no reset. -/
  reader : pc.holdsRead = true → p.sendOnly = false
  reading : ∀ mx datasize n, pc = .reading mx datasize n → p.resetState = false
  next : p.counts → min ≤ p.nextMsgNum ∧ p.nextMsgNum ≤ pc.limit max
  delivered : p.receives → ∃ c, Delivered sent since log c ∧ (c : Int) ≤ lowered + pc.limit max ∧
    (p.resetState = false → (c : Int) = lowered + p.nextMsgNum)

/-- What the holder of the write lock has put into the ring and not published. -/
def Sys.written (s : Sys α) : List α :=
  match s.writeLock with
  | none => []
  | some i => (s.pc i).written

/-- What is true of the system. -/
structure Inv (s : Sys α) : Prop where
  last_le : s.seg.lastBackend ≤ s.seg.maxBackends
  unused : ∀ i, s.seg.lastBackend ≤ i → (s.seg.procState i).procPid = 0
  lock : ∀ i, (s.pc i).holdsWrite = true → s.writeLock = some i
  min_nonneg : 0 ≤ s.seg.minMsgNum
  min_lt : s.seg.minMsgNum < msgNumWrapAround
  min_le_max : s.seg.minMsgNum ≤ s.seg.maxMsgNum
  span : s.seg.maxMsgNum - s.seg.minMsgNum ≤ maxNumMessages
  /-- The counters and the sequence of messages. -/
  sent : (s.lowered : Int) + s.seg.maxMsgNum = s.sent.length
  lowered : maxNumMessages ∣ s.lowered
  /-- The writer has room for its whole group. -/
  room : ∀ i done todo rest, s.pc i = .writing done todo rest →
    s.seg.maxMsgNum - s.seg.minMsgNum + done.length + todo.length ≤ maxNumMessages
  /-- The ring has everything that may still be read, and what is being written. -/
  ring : Holds maxNumMessages s.seg.buffer (s.sent ++ s.written) (s.lowered + s.seg.minMsgNum.toNat)
  backend : ∀ i, BackendOk s.seg.minMsgNum s.seg.maxMsgNum s.lowered s.sent
    (s.seg.procState i) (s.pc i) (s.since i) (s.log i)

theorem inv_init (maxBackends : Nat) : Inv (init maxBackends : Sys α) := by
  have hpos : (0 : Int) < msgNumWrapAround := by decide
  have hsize : (0 : Int) ≤ maxNumMessages := by decide
  refine ⟨Nat.zero_le _, fun _ _ => rfl, ?_, le_rfl, hpos, le_rfl, hsize, rfl,
    dvd_zero _, ?_, ?_, ?_⟩
  · intro i h
    simp [init, Pc.holdsWrite] at h
  · intro i done todo rest h
    simp [init] at h
  · intro g _ hlt
    simp [init, written] at hlt
  intro i
  refine ⟨fun _ => rfl, le_rfl, le_rfl, ?_, ?_, ?_, ?_⟩
  · intro h
    simp [init, Pc.holdsRead] at h
  · intro mx datasize n h
    simp [init] at h
  · intro h
    cases h.1.1 rfl
  · intro h
    cases h.1 rfl

/-! ### Where a message is -/

variable {lowered : Nat}

theorem slot_eq {n : Int} {g : Nat} (hg : (g : Int) = lowered + n)
    (hdvd : maxNumMessages ∣ lowered) : SISeg.slot n = g % maxNumMessages := by
  obtain ⟨k, rfl⟩ := hdvd
  unfold SISeg.slot
  simp only [maxNumMessages] at hg ⊢
  omega

namespace Inv

variable {s : Sys α}

theorem not_holdsRead (h : Inv s) (hfree : s.readLockFree = true) (i : Nat) :
    (s.pc i).holdsRead = false := by
  by_cases hi : i < s.seg.lastBackend
  · simp only [readLockFree, all_eq_true, mem_range, Bool.not_eq_true'] at hfree
    exact hfree i (lt_of_lt_of_le hi h.last_le)
  · rw [(h.backend i).idle (h.unused i (Nat.le_of_not_lt hi))]
    rfl

end Inv

/-! ### Cleaning up -/

variable {p : ProcState} {since : Nat}

namespace ProcState

/-- What the loop of `SICleanupQueue` may do to an entry. -/
def Swept (p q : ProcState) : Prop := q = p ∨ q = { p with resetState := true }

theorem Swept.trans {q r : ProcState} (h₁ : p.Swept q) (h₂ : q.Swept r) : p.Swept r := by
  rcases h₁ with rfl | rfl <;> rcases h₂ with rfl | rfl <;> simp [Swept]

theorem Swept.counts {q : ProcState} (h : p.Swept q) (hq : q.counts) : p = q := by
  rcases h with rfl | rfl
  · rfl
  · exact absurd hq.2 (by simp)

end ProcState

namespace Sweep

variable {lowbound : Int} {sw : Sweep} {i : Nat}

/-- What one turn can do: skip the entry, reset it, or take it into the minimum. -/
theorem visit_cases (lowbound : Int) (sw : Sweep) (i : Nat) :
    (¬ (sw.procState i).counts ∧ sw.visit lowbound i = sw) ∨
    ((sw.visit lowbound i).min = sw.min ∧ (sw.visit lowbound i).procState
      = update sw.procState i { sw.procState i with resetState := true }) ∨
    ((sw.procState i).counts ∧
      (sw.visit lowbound i).min = Min.min (sw.procState i).nextMsgNum sw.min ∧
      (sw.visit lowbound i).procState = sw.procState) := by
  by_cases hskip : (sw.procState i).procPid = 0 ∨ (sw.procState i).resetState = true ∨
      (sw.procState i).sendOnly = true
  · refine .inl ⟨?_, by simp only [visit, if_pos hskip]⟩
    rintro ⟨⟨hpid, hsend⟩, hreset⟩
    simp [hpid, hsend, hreset] at hskip
  by_cases hlow : (sw.procState i).nextMsgNum < lowbound
  · exact .inr (.inl (by simp only [visit, if_neg hskip, if_pos hlow, and_self]))
  refine .inr (.inr ⟨?_, ?_⟩)
  · simpa [ProcState.counts, ProcState.receives, and_assoc, and_comm] using hskip
  · simp only [visit, if_neg hskip, if_neg hlow]
    split_ifs <;> simp only [and_true] <;> omega

/-- One turn marks at most the entry it looks at. -/
theorem visit_swept (lowbound : Int) (sw : Sweep) (i j : Nat) :
    (sw.procState j).Swept ((sw.visit lowbound i).procState j) := by
  rcases visit_cases lowbound sw i with ⟨-, h⟩ | ⟨-, h⟩ | ⟨-, -, h⟩
  · exact .inl (by rw [h])
  · rw [h]
    by_cases hj : j = i
    · subst hj
      exact .inr (update_self ..)
    · exact .inl (update_of_ne hj ..)
  · exact .inl (by rw [h])

theorem visit_min_le : (sw.visit lowbound i).min ≤ sw.min := by
  rcases visit_cases lowbound sw i with ⟨-, h⟩ | ⟨h, -⟩ | ⟨-, h, -⟩ <;> rw [h]
  exact min_le_right ..

/-- An entry that still counts after its turn does not lie below the minimum. -/
theorem visit_min_le_next (h : ((sw.visit lowbound i).procState i).counts) :
    (sw.visit lowbound i).min ≤ (sw.procState i).nextMsgNum := by
  rcases visit_cases lowbound sw i with ⟨hnot, heq⟩ | ⟨-, heq⟩ | ⟨-, hmin, -⟩
  · rw [heq] at h
    exact absurd h hnot
  · rw [heq, update_self] at h
    exact absurd h.2 (by simp)
  · rw [hmin]
    exact min_le_left ..

/-- A bound of the minimum and of every entry that counts stays one. -/
theorem le_visit_min {b : Int} (hmin : b ≤ sw.min)
    (hi : (sw.procState i).counts → b ≤ (sw.procState i).nextMsgNum) :
    b ≤ (sw.visit lowbound i).min := by
  rcases visit_cases lowbound sw i with ⟨-, h⟩ | ⟨h, -⟩ | ⟨hcounts, h, -⟩
  · rwa [h]
  · rwa [h]
  · rw [h]
    exact le_min (hi hcounts) hmin

theorem foldl_swept (lowbound : Int) (l : List Nat) (j : Nat) :
    ∀ sw : Sweep, (sw.procState j).Swept ((l.foldl (visit lowbound) sw).procState j) := by
  induction l with
  | nil => intro sw; exact .inl rfl
  | cons i l ih => intro sw; exact (visit_swept lowbound sw i j).trans (ih _)

theorem foldl_min_le (l : List Nat) : ∀ sw : Sweep, (l.foldl (visit lowbound) sw).min ≤ sw.min := by
  induction l with
  | nil => intro sw; exact le_rfl
  | cons i l ih => intro sw; exact (ih _).trans visit_min_le

theorem foldl_min_le_next (l : List Nat) :
    ∀ sw : Sweep, ∀ j ∈ l, ((l.foldl (visit lowbound) sw).procState j).counts →
      (l.foldl (visit lowbound) sw).min ≤ (sw.procState j).nextMsgNum := by
  induction l with
  | nil => intro sw j hj; cases hj
  | cons i l ih =>
    intro sw j hj hcounts
    by_cases hij : j = i
    · subst hij
      have heq := (foldl_swept lowbound l j (sw.visit lowbound j)).counts hcounts
      exact (foldl_min_le l _).trans (visit_min_le_next (heq ▸ hcounts))
    have hmem : j ∈ l := (mem_cons.mp hj).resolve_left hij
    have hnext : ((sw.visit lowbound i).procState j).nextMsgNum = (sw.procState j).nextMsgNum := by
      rcases visit_swept lowbound sw i j with h | h <;> rw [h]
    rw [← hnext]
    exact ih _ j hmem hcounts

theorem le_foldl_min {b : Int} (l : List Nat) : ∀ sw : Sweep, b ≤ sw.min →
      (∀ j, (sw.procState j).counts → b ≤ (sw.procState j).nextMsgNum) →
      b ≤ (l.foldl (visit lowbound) sw).min := by
  induction l with
  | nil => intro sw hmin _; exact hmin
  | cons i l ih =>
    intro sw hmin hnext
    refine ih _ (le_visit_min hmin (hnext i)) ?_
    intro j hj
    have heq := (visit_swept lowbound sw i j).counts hj
    rw [← heq] at hj ⊢
    exact hnext j hj

end Sweep

/-- `SICleanupQueue` lowers the counters by a multiple of the ring size, gives up nothing
that an entry needs unless it marks it, and leaves the ring alone. -/
structure Cleaned (segP segP' : SISeg α) (d : Nat) : Prop where
  dvd : maxNumMessages ∣ d
  max : segP'.maxMsgNum = segP.maxMsgNum - d
  min_le : segP.minMsgNum ≤ segP'.minMsgNum + d
  min_le_max : segP'.minMsgNum ≤ segP'.maxMsgNum
  min_nonneg : 0 ≤ segP'.minMsgNum
  min_lt : segP'.minMsgNum < msgNumWrapAround
  buffer : segP'.buffer = segP.buffer
  last : segP'.lastBackend = segP.lastBackend
  maxBackends : segP'.maxBackends = segP.maxBackends
  pid : ∀ i, (segP'.procState i).procPid = (segP.procState i).procPid
  sendOnly : ∀ i, (segP'.procState i).sendOnly = (segP.procState i).sendOnly
  next : ∀ i, (segP'.procState i).counts → (segP.procState i).counts ∧
    (segP'.procState i).nextMsgNum = (segP.procState i).nextMsgNum - d ∧
    segP'.minMsgNum ≤ (segP'.procState i).nextMsgNum

namespace Cleaned

variable {segP segP' : SISeg α} {d : Nat}

theorem threshold (h : Cleaned segP segP' d) (n : Int) :
    Cleaned segP { segP' with nextThreshold := n } d where
  __ := h

/-- The flag that a backend has been signalled is nothing the queue depends on. -/
theorem signal (h : Cleaned segP segP' d) (j : Nat) :
    Cleaned segP (segP'.modifyProc j fun stateP => { stateP with signaled := true }) d := by
  have hproc : ∀ i, ∃ b, (segP'.modifyProc j fun stateP =>
      { stateP with signaled := true }).procState i
        = { segP'.procState i with signaled := b } := by
    intro i
    by_cases hi : i = j
    · subst hi
      exact ⟨true, by simp [SISeg.modifyProc]⟩
    · exact ⟨(segP'.procState i).signaled, by simp [SISeg.modifyProc, hi]⟩
  choose b hb using hproc
  refine { h with pid := fun i => ?_, sendOnly := fun i => ?_, next := fun i => ?_ }
  · rw [hb]
    exact h.pid i
  · rw [hb]
    exact h.sendOnly i
  · rw [hb]
    exact h.next i

end Cleaned

variable {s : Sys α}

section

variable (h : Inv s) (minFree : Nat)
include h minFree

/-- The counters after the loop, before they are lowered. -/
theorem sweep_spec : s.seg.minMsgNum ≤ (sweep s.seg minFree).min ∧
    (sweep s.seg minFree).min ≤ s.seg.maxMsgNum ∧
    ∀ i, (s.seg.procState i).Swept ((sweep s.seg minFree).procState i) ∧
      (((sweep s.seg minFree).procState i).counts →
        i < s.seg.lastBackend ∧ (sweep s.seg minFree).min ≤ (s.seg.procState i).nextMsgNum) := by
  refine ⟨?_, Sweep.foldl_min_le _ _, ?_⟩
  · refine Sweep.le_foldl_min _ _ h.min_le_max ?_
    intro i hi
    exact ((h.backend i).next hi).1
  intro i
  have hswept := Sweep.foldl_swept (s.seg.maxMsgNum - maxNumMessages + minFree)
    (range s.seg.lastBackend) i
    { min := s.seg.maxMsgNum, minsig := s.seg.maxMsgNum - sigThreshold, needSig := none,
      procState := s.seg.procState }
  refine ⟨hswept, fun hcounts => ?_⟩
  have hlast : i < s.seg.lastBackend := by
    by_contra hge
    have heq := hswept.counts hcounts
    exact hcounts.1.1 (heq ▸ h.unused i (Nat.le_of_not_lt hge))
  exact ⟨hlast, Sweep.foldl_min_le_next _ _ i (mem_range.mpr hlast) hcounts⟩

theorem rebase_cleaned :
    ∃ d, Cleaned s.seg (rebase { s.seg with procState := (sweep s.seg minFree).procState,
                                            minMsgNum := (sweep s.seg minFree).min }) d := by
  obtain ⟨hmin, hmax, hproc⟩ := sweep_spec h minFree
  have hspan := h.span
  have hnonneg := h.min_nonneg
  have hlt := h.min_lt
  have hwrap : (maxNumMessages : Int) < msgNumWrapAround := by decide
  have hpid : ∀ i, ((sweep s.seg minFree).procState i).procPid = (s.seg.procState i).procPid := by
    intro i
    rcases (hproc i).1 with heq | heq <;> rw [heq]
  have hsend : ∀ i, ((sweep s.seg minFree).procState i).sendOnly
      = (s.seg.procState i).sendOnly := by
    intro i
    rcases (hproc i).1 with heq | heq <;> rw [heq]
  unfold rebase
  split_ifs with hbig
  · simp only at hbig
    refine ⟨msgNumWrapAround, ⟨262144, rfl⟩, rfl, ?_, ?_, ?_, ?_, rfl, rfl, rfl, ?_, ?_, ?_⟩ <;>
      simp only
    · omega
    · omega
    · omega
    · omega
    · intro i
      split_ifs <;> exact hpid i
    · intro i
      split_ifs <;> exact hsend i
    intro i hcounts
    have hcounts' : ((sweep s.seg minFree).procState i).counts := by
      split_ifs at hcounts <;> exact hcounts
    obtain ⟨hlast, hle⟩ := (hproc i).2 hcounts'
    have heq := (hproc i).1.counts hcounts'
    rw [if_pos hlast, ← heq]
    exact ⟨heq ▸ hcounts', rfl, by simp only; omega⟩
  simp only [ge_iff_le, not_le] at hbig
  refine ⟨0, dvd_zero _, by simp, ?_, hmax, ?_, hbig, rfl, rfl, rfl, hpid, hsend, ?_⟩ <;> simp only
  · omega
  · omega
  intro i hcounts
  have heq := (hproc i).1.counts hcounts
  rw [← heq] at hcounts ⊢
  exact ⟨hcounts, by simp, ((hproc i).2 (heq ▸ hcounts)).2⟩

theorem siCleanupQueue_cleaned :
    ∃ d, Cleaned s.seg (siCleanupQueue s.seg minFree).1 d := by
  obtain ⟨d, hd⟩ := rebase_cleaned h minFree
  refine ⟨d, ?_⟩
  cases hsig : (sweep s.seg minFree).needSig with
  | none =>
    simp only [siCleanupQueue, hsig]
    exact hd.threshold _
  | some i =>
    simp only [siCleanupQueue, hsig]
    exact (hd.threshold _).signal i

end

/-- Cleaning up with nobody reading keeps what is true of a backend. -/
theorem BackendOk.cleaned {segP segP' : SISeg α} {d i : Nat} (hc : Cleaned segP segP' d)
    (h : BackendOk segP.minMsgNum segP.maxMsgNum lowered sent (segP.procState i) pc since log)
    (hread : pc.holdsRead = false) :
    BackendOk segP'.minMsgNum segP'.maxMsgNum (lowered + d) sent (segP'.procState i) pc since
      log := by
  have hlimit := fun max : Int => Pc.limit_of_not_holdsRead max hread
  refine ⟨?_, ?_, ?_, ?_, ?_, ?_, ?_⟩
  · intro hpid
    exact h.idle ((hc.pid i).symm.trans hpid)
  · rw [hlimit]
    exact hc.min_le_max
  · rw [hlimit]
  · intro hr
    rw [hread] at hr
    cases hr
  · intro mx datasize n heq
    rw [heq] at hread
    cases hread
  · intro hcounts
    obtain ⟨hold, hnext, hmin⟩ := hc.next i hcounts
    have hle := (h.next hold).2
    rw [hlimit] at hle ⊢
    have hmax := hc.max
    exact ⟨hmin, by omega⟩
  rintro ⟨hpid, hsend⟩
  rw [hc.pid i] at hpid
  rw [hc.sendOnly i] at hsend
  obtain ⟨c, hdel, hle, hpos⟩ := h.delivered ⟨hpid, hsend⟩
  rw [hlimit] at hle
  have hmax := hc.max
  refine ⟨c, hdel, ?_, ?_⟩
  · rw [hlimit]
    omega
  intro hreset
  have hcounts : (segP'.procState i).counts :=
    ⟨⟨(hc.pid i).symm ▸ hpid, (hc.sendOnly i).symm ▸ hsend⟩, hreset⟩
  obtain ⟨hold, hnext, -⟩ := hc.next i hcounts
  have := hpos hold.2
  omega

/-! ### Steps of one backend -/

variable {max : Int} {rest chunk : List α} {datasize : Nat} {min : Int} {sendOnly : Bool}

/-- Going from one place outside `SIGetDataEntries` to another. -/
theorem BackendOk.setPc {pc' : Pc α}
    (h : BackendOk min max lowered sent p pc since log) (hactive : p.procPid ≠ 0)
    (hold : pc.holdsRead = false) (hnew : pc'.holdsRead = false) :
    BackendOk min max lowered sent p pc' since log := by
  have hl := Pc.limit_of_not_holdsRead max hold
  have hl' := Pc.limit_of_not_holdsRead max hnew
  have hmin := h.min_le
  have hnext := h.next
  have hdel := h.delivered
  rw [hl] at hmin hnext hdel
  refine ⟨fun h0 => absurd h0 hactive, ?_, ?_, ?_, ?_, ?_, ?_⟩
  · rwa [hl']
  · rw [hl']
  · intro hr
    rw [hnew] at hr
    cases hr
  · rintro mx datasize n rfl
    cases hnew
  · rwa [hl']
  · rwa [hl']

/-- A backend outside all of the routines. -/
theorem BackendOk.ofIdle (hactive : p.procPid ≠ 0) (hle : min ≤ max)
    (hnext : p.counts → min ≤ p.nextMsgNum ∧ p.nextMsgNum ≤ max)
    (hdel : p.receives → ∃ c, Delivered sent since log c ∧ (c : Int) ≤ lowered + max ∧
      (p.resetState = false → (c : Int) = lowered + p.nextMsgNum)) :
    BackendOk min max lowered sent p .idle since log := by
  refine ⟨fun h0 => absurd h0 hactive, hle, le_rfl, ?_, ?_, hnext, hdel⟩
  · intro hr
    cases hr
  · intro mx datasize n heq
    cases heq

/-- A reader keeps the bound it has fetched, for the others it grows with `maxMsgNum`. -/
theorem BackendOk.publish (h : BackendOk min max lowered sent p pc since log)
    (new : List α) : BackendOk min (max + new.length) lowered (sent ++ new) p pc since log := by
  have hgrow : pc.limit max ≤ pc.limit (max + new.length) := by cases pc <;> simp [Pc.limit]
  have hmax := h.le_max
  refine ⟨h.idle, h.min_le.trans hgrow, ?_, h.reader, h.reading, ?_, ?_⟩
  · cases pc with
    | fetched mx _ | reading mx _ _ => simp only [Pc.limit] at hmax ⊢; omega
    | _ => exact le_rfl
  · intro hcounts
    obtain ⟨hlo, hhi⟩ := h.next hcounts
    exact ⟨hlo, hhi.trans hgrow⟩
  intro hrec
  obtain ⟨c, hdel, hle, hpos⟩ := h.delivered hrec
  exact ⟨c, hdel.append new, by omega, hpos⟩

namespace Inv

variable {s : Sys α} {i : Nat} {lock : Option Nat}

/-- The write lock being as `lock` says, a backend may stand at `pc`. -/
structure Placed (s : Sys α) (i : Nat) (pc : Pc α) (lock : Option Nat) : Prop where
  self : pc.holdsWrite = true → lock = some i
  others : ∀ j, j ≠ i → (s.pc j).holdsWrite = true → lock = some j
  room : ∀ done todo rest, pc = .writing done todo rest →
    s.seg.maxMsgNum - s.seg.minMsgNum + done.length + todo.length ≤ maxNumMessages
  written : ({ s with pc := update s.pc i pc, writeLock := lock } : Sys α).written = s.written

/-- A step that changes one entry and where its backend stands, and perhaps the write lock. -/
theorem own (h : Inv s) (i : Nat) (p : ProcState) (last since : Nat) (log : List (Got α))
    (hlast : last ≤ s.seg.maxBackends)
    (hunused : ∀ j, last ≤ j → (update s.seg.procState i p j).procPid = 0)
    (hplaced : Placed s i pc lock)
    (hok : BackendOk s.seg.minMsgNum s.seg.maxMsgNum s.lowered s.sent p pc since log) :
    Inv { s with
          seg := { s.seg with
                   lastBackend := last, procState := update s.seg.procState i p }
          pc := update s.pc i pc
          writeLock := lock
          since := update s.since i since
          log := update s.log i log } := by
  refine { h with last_le := hlast, unused := hunused, lock := fun j hj => ?_,
                  room := fun j done todo rest hj => ?_, ring := ?_, backend := fun j => ?_ }
  · by_cases hij : j = i
    · subst hij
      exact hplaced.self (by simpa using hj)
    · exact hplaced.others j hij (by simpa [hij] using hj)
  · by_cases hij : j = i
    · subst hij
      exact hplaced.room done todo rest (by simpa using hj)
    · exact h.room j done todo rest (by simpa [hij] using hj)
  · have hring := h.ring
    rw [← hplaced.written] at hring
    exact hring
  by_cases hij : j = i
  · subst hij
    simpa only [update_self] using hok
  · simpa only [update_of_ne hij] using h.backend j

/-- The same for a backend that stays registered. -/
theorem own_active (h : Inv s) (hactive : (s.seg.procState i).procPid ≠ 0) (p : ProcState)
    (log : List (Got α)) (hplaced : Placed s i pc lock)
    (hok : BackendOk s.seg.minMsgNum s.seg.maxMsgNum s.lowered s.sent p pc (s.since i) log) :
    Inv { s with
          seg := { s.seg with procState := update s.seg.procState i p }
          pc := update s.pc i pc
          writeLock := lock
          log := update s.log i log } := by
  have hown := h.own i p s.seg.lastBackend (s.since i) log h.last_le ?_ hplaced hok
  · rw [update_eq_self] at hown
    exact hown
  intro j hj
  have hne : j ≠ i := by
    rintro rfl
    exact hactive (h.unused j hj)
  rw [update_of_ne hne]
  exact h.unused j hj

theorem written_of_lock_none (hl : s.writeLock = none) : s.written = [] := by
  simp only [written, hl]

/-- What has been written is not touched by the others. -/
theorem written_update (hpc : pc.written = (s.pc i).written) :
    ({ s with pc := update s.pc i pc } : Sys α).written = s.written := by
  unfold written
  cases s.writeLock with
  | none => rfl
  | some j =>
    by_cases hij : j = i
    · subst hij
      simpa using hpc
    · simp [hij]

section

variable (h : Inv s) {done todo : List α}
include h

/-- The place of a backend that does not touch the write lock. -/
theorem placed_quiet (pc : Pc α) (hold : (s.pc i).holdsWrite = false)
    (hnew : pc.holdsWrite = false) :
    Placed s i pc s.writeLock := by
  have hnil : ∀ q : Pc α, q.holdsWrite = false → q.written = [] := by
    intro q hq
    cases q <;> first | rfl | cases hq
  refine ⟨fun hw => ?_, fun j _ => h.lock j, ?_, written_update (by rw [hnil pc hnew, hnil _ hold])⟩
  · rw [hnew] at hw
    cases hw
  · rintro done todo rest rfl
    cases hnew

section

variable (hactive : (s.seg.procState i).procPid ≠ 0)
include hactive

theorem move (hold : (s.pc i).holdsRead = false) (hnew : pc.holdsRead = false)
    (hplaced : Placed s i pc lock) : Inv { s.setPc i pc with writeLock := lock } := by
  have hown := h.own_active hactive _ _ hplaced ((h.backend i).setPc hactive hold hnew)
  rw [update_eq_self, update_eq_self] at hown
  exact hown

theorem setPc (hread : (s.pc i).holdsRead = false) (hwrite : (s.pc i).holdsWrite = false)
    (hread' : pc.holdsRead = false) (hwrite' : pc.holdsWrite = false) : Inv (s.setPc i pc) :=
  h.move hactive hread hread' (h.placed_quiet _ hwrite hwrite')

/-- Taking the write lock. -/
theorem acquire (hold : (s.pc i).holdsRead = false) (hl : s.writeLock = none) :
    Inv { s.setPc i (.inserting chunk rest) with writeLock := some i } := by
  refine h.move hactive hold rfl ⟨fun _ => rfl, fun j _ hj => ?_, fun _ _ _ heq => ?_, ?_⟩
  · have := h.lock j hj
    rw [hl] at this
    cases this
  · cases heq
  · rw [written_of_lock_none hl]
    simp [written, Pc.written]

end

theorem holdsWrite_unique {j : Nat} (hi : (s.pc i).holdsWrite = true)
    (hj : (s.pc j).holdsWrite = true) : j = i :=
  Option.some.inj ((h.lock j hj).symm.trans (h.lock i hi))

theorem written_of_holdsWrite (hi : (s.pc i).holdsWrite = true) : s.written = (s.pc i).written := by
  simp only [written, h.lock i hi]

section

variable (hactive : (s.seg.procState i).procPid ≠ 0) (hpc : s.pc i = .inserting chunk rest)
include hactive hpc

/-- Giving up the write lock to signal somebody. -/
theorem release : Inv { s.setPc i (.signaling chunk rest) with writeLock := none } := by
  have hholds : (s.pc i).holdsWrite = true := by rw [hpc]; rfl
  refine h.move hactive (by rw [hpc]; rfl) rfl ⟨fun hw => ?_, fun j hij hj => ?_,
    fun _ _ _ heq => ?_, ?_⟩
  · cases hw
  · exact absurd (h.holdsWrite_unique hholds hj) hij
  · cases heq
  · rw [h.written_of_holdsWrite hholds, hpc]
    rfl

/-- With the check of `SIInsertDataEntries` passed, the group is written. -/
theorem startWriting (hroom : s.seg.maxMsgNum - s.seg.minMsgNum + chunk.length ≤ maxNumMessages) :
    Inv (s.setPc i (.writing [] chunk rest)) := by
  have hholds : (s.pc i).holdsWrite = true := by rw [hpc]; rfl
  refine h.move hactive (by rw [hpc]; rfl) rfl ⟨fun _ => h.lock i hholds, fun j _ => h.lock j, ?_,
    written_update (by rw [hpc]; rfl)⟩
  intro done todo rest' heq
  cases heq
  simpa using hroom

end

theorem active_of_pc (hpc : s.pc i = pc) (hne : pc ≠ .idle) : (s.seg.procState i).procPid ≠ 0 :=
  fun h0 => hne (hpc.symm.trans ((h.backend i).idle h0))

theorem backend_setPc (hpc : s.pc i = .writing done todo rest)
    (hnew : pc.holdsRead = false) (j : Nat) :
    BackendOk s.seg.minMsgNum s.seg.maxMsgNum s.lowered s.sent (s.seg.procState j)
      ((s.setPc i pc).pc j) (s.since j) (s.log j) := by
  by_cases hij : j = i
  · subst hij
    simp only [Sys.setPc, update_self]
    exact (h.backend j).setPc (h.active_of_pc hpc (by simp)) (by rw [hpc]; rfl) hnew
  · simpa only [Sys.setPc, update_of_ne hij] using h.backend j

/-- One cell is written. -/
theorem writeCell {m : α} (hpc : s.pc i = .writing done (m :: todo) rest) :
    Inv { s.setPc i (.writing (done ++ [m]) todo rest) with
          seg := { s.seg with
                   buffer := update s.seg.buffer
                     (SISeg.slot (s.seg.maxMsgNum + done.length)) (some m) } } := by
  have hholds : (s.pc i).holdsWrite = true := by rw [hpc]; rfl
  have hroom := h.room i done (m :: todo) rest hpc
  have hsent := h.sent
  have hwritten : s.written = done := by rw [h.written_of_holdsWrite hholds, hpc]; rfl
  rw [length_cons] at hroom
  have hslot : SISeg.slot (s.seg.maxMsgNum + done.length)
      = (s.sent ++ done).length % maxNumMessages := by
    refine slot_eq ?_ h.lowered
    rw [length_append]
    omega
  refine { h with lock := fun j hj => ?_, room := fun j done' todo' rest' hj => ?_, ring := ?_,
                  backend := h.backend_setPc hpc rfl }
  · by_cases hij : j = i
    · rw [hij]
      exact h.lock i hholds
    · simp only [Sys.setPc, update_of_ne hij] at hj
      exact h.lock j hj
  · by_cases hij : j = i
    · subst hij
      simp only [Sys.setPc, update_self, Pc.writing.injEq] at hj
      obtain ⟨rfl, rfl, rfl⟩ := hj
      simp only [length_append, length_singleton]
      omega
    · simp only [Sys.setPc, update_of_ne hij] at hj
      exact h.room j done' todo' rest' hj
  have hring := h.ring
  rw [hwritten] at hring
  have hpush := hring.push m (by rw [length_append]; push_cast at hroom; omega)
  have hnew : ∀ segP, ({ s.setPc i (.writing (done ++ [m]) todo rest) with
      seg := segP } : Sys α).written = done ++ [m] := by
    intro segP
    simp [Sys.written, Sys.setPc, h.lock i hholds, Pc.written]
  rw [hnew, hslot, ← append_assoc]
  exact hpush

/-- The group is published, and with it the lock given up. -/
theorem publish {done : List α} (hpc : s.pc i = .writing done [] rest) :
    Inv { s.setPc i (.insert rest) with
          seg := { s.seg with maxMsgNum := s.seg.maxMsgNum + done.length }
          sent := s.sent ++ done
          writeLock := none } := by
  have hholds : (s.pc i).holdsWrite = true := by rw [hpc]; rfl
  have hroom := h.room i done [] rest hpc
  have hsent := h.sent
  have hmin := h.min_le_max
  have hwritten : s.written = done := by rw [h.written_of_holdsWrite hholds, hpc]; rfl
  have hnot : ∀ j, ((s.setPc i (.insert rest)).pc j).holdsWrite = false := by
    intro j
    by_cases hij : j = i
    · subst hij
      simp [Sys.setPc, Pc.holdsWrite]
    · simp only [Sys.setPc, update_of_ne hij, Bool.eq_false_iff]
      exact fun hj => hij (h.holdsWrite_unique hholds hj)
  refine { h with lock := fun j hj => ?_, min_le_max := ?_, span := ?_, sent := ?_,
                  room := fun j done' todo' rest' hj => ?_, ring := ?_,
                  backend := fun j => (h.backend_setPc hpc rfl j).publish done }
  · rw [hnot j] at hj
    cases hj
  · simp only
    omega
  · simp only
    omega
  · simp only [Sys.setPc, length_append]
    omega
  · have := hnot j
    rw [hj] at this
    cases this
  have hring := h.ring
  rw [hwritten] at hring
  rw [written_of_lock_none rfl, append_nil]
  exact hring

/-- Cleaning up with both locks. -/
theorem cleanup (minFree : Nat) (hread : s.readLockFree = true)
    (hidle : ∀ j done todo rest, s.pc j ≠ .writing done todo rest) : Inv (s.cleanup minFree).1 := by
  obtain ⟨d, hc⟩ := siCleanupQueue_cleaned h minFree
  have hlow : (s.cleanup minFree).1.lowered = s.lowered + d := by
    have := hc.max
    simp only [Sys.cleanup]
    omega
  have hdvd := hc.dvd
  have hmax := hc.max
  have hmin := hc.min_le
  have hspan := h.span
  have hsent := h.sent
  refine ⟨?_, ?_, h.lock, hc.min_nonneg, hc.min_lt, hc.min_le_max, ?_, ?_, ?_, ?_, ?_, ?_⟩
  · show (siCleanupQueue s.seg minFree).1.lastBackend ≤ _
    rw [hc.last]
    exact h.last_le.trans_eq hc.maxBackends.symm
  · intro j hj
    rw [show (s.cleanup minFree).1.seg = (siCleanupQueue s.seg minFree).1 from rfl] at hj ⊢
    rw [hc.last] at hj
    rw [hc.pid]
    exact h.unused j hj
  · show (siCleanupQueue s.seg minFree).1.maxMsgNum - (siCleanupQueue s.seg minFree).1.minMsgNum ≤ _
    omega
  · rw [hlow]
    show ((s.lowered + d : Nat) : Int) + (siCleanupQueue s.seg minFree).1.maxMsgNum = s.sent.length
    omega
  · rw [hlow]
    exact Nat.dvd_add h.lowered hdvd
  · intro j done todo rest hj
    exact absurd hj (hidle j done todo rest)
  · rw [hlow]
    show Holds _ (siCleanupQueue s.seg minFree).1.buffer (s.sent ++ s.written) (s.lowered + d
      + (siCleanupQueue s.seg minFree).1.minMsgNum.toNat)
    rw [hc.buffer]
    refine h.ring.mono ?_
    omega
  intro j
  rw [hlow]
  exact (h.backend j).cleaned hc (h.not_holdsRead hread j)

theorem cleanup_procPid (minFree i : Nat) :
    ((s.cleanup minFree).1.seg.procState i).procPid = (s.seg.procState i).procPid := by
  obtain ⟨d, hc⟩ := siCleanupQueue_cleaned h minFree
  exact hc.pid i

/-! ### Reading -/

/-- Entering `SIGetDataEntries`. -/
theorem fetch (hrec : (s.seg.procState i).receives) (hpc : s.pc i = .idle) (datasize : Nat) :
    Inv (s.setPc i (.fetched s.seg.maxMsgNum datasize)) := by
  have hi := h.backend i
  have hnext := hi.next
  have hdel := hi.delivered
  rw [hpc] at hnext hdel
  have hown := h.own_active hrec.1 (s.seg.procState i) (s.log i)
    (h.placed_quiet (.fetched s.seg.maxMsgNum datasize) (by rw [hpc]; rfl) rfl)
    ⟨fun h0 => absurd h0 hrec.1, h.min_le_max, le_rfl, fun _ => hrec.2,
      fun _ _ _ heq => (by cases heq), hnext, hdel⟩
  rw [update_eq_self, update_eq_self] at hown
  exact hown

section

variable (hpc : s.pc i = .fetched max datasize) (hactive : (s.seg.procState i).procPid ≠ 0)
include hpc hactive

/-- The backend is told to reset, and is taken to have dealt with what it has fetched. -/
theorem takeReset : Inv { (s.setPc i .idle).give i (.reset s.sent.length) with
          seg := s.seg.modifyProc i fun stateP =>
            { stateP with nextMsgNum := max, resetState := false, signaled := false } } := by
  have hi := h.backend i
  have hsend := hi.reader (by rw [hpc]; rfl)
  have hle := hi.le_max
  have hge := hi.min_le
  obtain ⟨c, hdel, hc, -⟩ := hi.delivered ⟨hactive, hsend⟩
  have hsent := h.sent
  rw [hpc] at hle hge hc
  simp only [Pc.limit] at hle hge hc
  refine h.own_active hactive _ _ (h.placed_quiet _ (by rw [hpc]; rfl) rfl)
    (BackendOk.ofIdle hactive h.min_le_max (fun _ => ⟨hge, hle⟩) ?_)
  intro _
  refine ⟨(s.lowered + max).toNat, hdel.reset ?_ ?_ (le_rfl), ?_, ?_⟩
  · omega
  · omega
  · omega
  intro _
  simp only
  omega

/-- Nothing to reset: the loop over the messages begins. -/
theorem startReading (hreset : (s.seg.procState i).resetState = false) :
    Inv (s.setPc i (.reading max datasize 0)) := by
  have hi := h.backend i
  rw [hpc] at hi
  have hown := h.own_active hactive (s.seg.procState i) (s.log i)
    (h.placed_quiet (.reading max datasize 0) (by rw [hpc]; rfl) rfl)
    ⟨fun h0 => absurd h0 hactive, hi.min_le, hi.le_max, fun _ => hi.reader rfl,
      fun _ _ _ _ => hreset, hi.next, hi.delivered⟩
  rw [update_eq_self, update_eq_self] at hown
  exact hown

end

/-- Where a backend stands in the sequence of all messages. -/
theorem position (hcounts : (s.seg.procState i).counts) :
    ∃ c : Nat, (c : Int) = s.lowered + (s.seg.procState i).nextMsgNum ∧
      Delivered s.sent (s.since i) (s.log i) c := by
  obtain ⟨c, hdel, -, hpos⟩ := (h.backend i).delivered hcounts.1
  exact ⟨c, hpos hcounts.2, hdel⟩

/-- A message that a backend has still to be handed is in its cell. -/
theorem buffer_eq (hcounts : (s.seg.procState i).counts) {g : Nat}
    (hle : s.lowered + (s.seg.procState i).nextMsgNum ≤ g) (hlt : g < s.sent.length) :
    s.seg.buffer (g % maxNumMessages) = s.sent[g]? := by
  have hmin := ((h.backend i).next hcounts).1
  have hnonneg := h.min_nonneg
  exact h.ring.of_append g (by omega) hlt

section

variable {n : Nat} (hpc : s.pc i = .reading max datasize n)
  (hactive : (s.seg.procState i).procPid ≠ 0)
include hpc hactive

/-- One message is taken. -/
theorem takeMessage (hlt : (s.seg.procState i).nextMsgNum < max) :
    Inv { (s.setPc i (.reading max datasize (n + 1))).give i
            (.msg (s.seg.buffer (SISeg.slot (s.seg.procState i).nextMsgNum))) with
          seg := s.seg.modifyProc i fun stateP =>
            { stateP with nextMsgNum := stateP.nextMsgNum + 1 } } := by
  have hi := h.backend i
  have hsend := hi.reader (by rw [hpc]; rfl)
  have hreset := hi.reading max datasize n hpc
  have hcounts : (s.seg.procState i).counts := ⟨⟨hactive, hsend⟩, hreset⟩
  obtain ⟨c, hc, hdel⟩ := h.position hcounts
  have hsent := h.sent
  obtain ⟨hlo, -⟩ := hi.next hcounts
  rw [hpc] at hi
  have hle := hi.le_max
  simp only [Pc.limit] at hle
  have hclt : c < s.sent.length := by omega
  rw [slot_eq hc h.lowered, h.buffer_eq hcounts hc.ge hclt]
  refine h.own_active hactive _ _ (h.placed_quiet _ (by rw [hpc]; rfl) rfl)
    ⟨fun h0 => absurd h0 hactive, hi.min_le, hi.le_max, fun _ => hsend, fun _ _ _ _ => hreset, ?_, ?_⟩
  · intro _
    simp only [Pc.limit]
    omega
  intro _
  refine ⟨c + 1, hdel.msg hclt, ?_, ?_⟩
  · simp only [Pc.limit]
    omega
  intro _
  push_cast
  omega

/-- The loop over the messages is left. -/
theorem stopReading (f : ProcState → Bool) : Inv { s.setPc i .idle with
          seg := s.seg.modifyProc i fun stateP => { stateP with signaled := f stateP } } := by
  have hi := h.backend i
  have hown := h.own_active hactive
    { s.seg.procState i with signaled := f (s.seg.procState i) } (s.log i)
    (h.placed_quiet .idle (by rw [hpc]; rfl) rfl)
    (BackendOk.ofIdle hactive h.min_le_max ?_ ?_)
  · rw [update_eq_self] at hown
    exact hown
  · intro hcounts
    obtain ⟨hlo, hhi⟩ := hi.next hcounts
    exact ⟨hlo, hhi.trans hi.le_max⟩
  intro hrec
  obtain ⟨c, hdel, hle, hpos⟩ := hi.delivered hrec
  have hmax := hi.le_max
  refine ⟨c, hdel, ?_, hpos⟩
  omega

end

end
end Inv

/-! ### Registering and leaving -/

theorem lastActive_le (procState : Nat → ProcState) (n : Nat) : lastActive procState n ≤ n := by
  induction n with
  | zero => exact le_rfl
  | succ n ih =>
    unfold lastActive
    split_ifs
    · exact le_rfl
    · omega

theorem unused_of_lastActive_le (procState : Nat → ProcState) :
    ∀ n j, lastActive procState n ≤ j → j < n → (procState j).procPid = 0 := by
  intro n
  induction n with
  | zero => intro j _ hj; omega
  | succ n ih =>
    intro j hle hlt
    unfold lastActive at hle
    split_ifs at hle with hn
    · omega
    by_cases hj : j = n
    · subst hj
      exact not_not.mp hn
    · exact ih j hle (by omega)

/-- A new backend gets an entry that was unused, at the end of what has been sent. -/
theorem sharedInvalBackendInit_spec (h : Inv s) {pid : Nat}
    {i : Nat} {seg : SISeg α} (hreg : sharedInvalBackendInit s.seg pid sendOnly = some (i, seg)) :
    ∃ last, last ≤ s.seg.maxBackends ∧ s.seg.lastBackend ≤ last ∧ i < last ∧
      (s.seg.procState i).procPid = 0 ∧
      seg = { s.seg with
              lastBackend := last
              procState := update s.seg.procState i
                { procPid := pid, nextMsgNum := s.seg.maxMsgNum, resetState := false,
                  signaled := false, sendOnly := sendOnly } } := by
  unfold sharedInvalBackendInit at hreg
  split at hreg
  · next j hj =>
    cases hreg
    exact ⟨s.seg.lastBackend, h.last_le, le_rfl,
      mem_range.mp (mem_of_find?_eq_some hj), by simpa using find?_some hj, rfl⟩
  split_ifs at hreg with hlt
  cases hreg
  exact ⟨s.seg.lastBackend + 1, hlt, Nat.le_succ _, Nat.lt_succ_self _, h.unused _ (le_rfl), rfl⟩

namespace Inv

variable {s : Sys α} {i : Nat}

theorem register (h : Inv s) {pid : Nat} {seg : SISeg α} (hpid : pid ≠ 0)
    (hreg : sharedInvalBackendInit s.seg pid sendOnly = some (i, seg)) :
    Inv { s with
          seg := seg
          pc := update s.pc i .idle
          since := update s.since i s.sent.length
          log := update s.log i [] } := by
  obtain ⟨last, hmax, hlast, hi, h0, rfl⟩ := sharedInvalBackendInit_spec h hreg
  have hpc := (h.backend i).idle h0
  refine h.own i _ last _ _ hmax ?_ (h.placed_quiet _ (by rw [hpc]; rfl) rfl) ?_
  · intro j hj
    rw [update_of_ne (by omega)]
    exact h.unused j (by omega)
  refine BackendOk.ofIdle hpid h.min_le_max (fun _ => ⟨h.min_le_max, le_rfl⟩) ?_
  intro _
  exact ⟨s.sent.length, .start, h.sent.ge, fun _ => h.sent.symm⟩

theorem leave (h : Inv s) (hl : s.writeLock = none) :
    Inv { s.setPc i .idle with seg := cleanupInvalidationState s.seg i } := by
  have hnot : (s.pc i).holdsWrite = false := by
    rw [Bool.eq_false_iff]
    intro hi
    have := h.lock i hi
    rw [hl] at this
    cases this
  have hplaced := h.placed_quiet .idle hnot rfl
  have hown := h.own i
    { s.seg.procState i with
      procPid := 0, nextMsgNum := 0, resetState := false, signaled := false }
    (cleanupInvalidationState s.seg i).lastBackend (s.since i) (s.log i) ?_ ?_ hplaced ?_
  · rw [update_eq_self, update_eq_self] at hown
    exact hown
  · exact (lastActive_le _ _).trans h.last_le
  · intro j hj
    by_cases hlast : j < s.seg.lastBackend
    · exact unused_of_lastActive_le _ _ j hj hlast
    by_cases hij : j = i
    · subst hij
      rw [update_self]
    · rw [update_of_ne hij]
      exact h.unused j (Nat.le_of_not_lt hlast)
  refine ⟨fun _ => rfl, h.min_le_max, le_rfl, ?_, ?_, ?_, ?_⟩
  · intro hr
    cases hr
  · intro mx datasize n heq
    cases heq
  · intro hcounts
    cases hcounts.1.1 rfl
  · intro hrec
    cases hrec.1 rfl

/-! ### Every step -/

theorem tick (h : Inv s) {t : Sys α} (hactive : (s.seg.procState i).procPid ≠ 0)
    (hst : tick s i = some t) : Inv t := by
  unfold SInval.tick at hst
  cases hpc : s.pc i with
  | idle => simp only [hpc, reduceCtorEq] at hst
  | insert data =>
    cases data with
    | nil =>
      simp only [hpc] at hst
      cases hst
      exact h.setPc hactive (by rw [hpc]; rfl) (by rw [hpc]; rfl) rfl rfl
    | cons m data =>
      simp only [hpc] at hst
      split_ifs at hst with hl
      cases hst
      exact h.acquire hactive (by rw [hpc]; rfl) hl
  | inserting chunk rest =>
    have hwriting : ∀ j done todo rest, s.pc j ≠ .writing done todo rest := by
      intro j done todo rest' hj
      have hij := h.holdsWrite_unique (i := i) (j := j) (by rw [hpc]; rfl) (by rw [hj]; rfl)
      rw [hij, hpc] at hj
      cases hj
    simp only [hpc] at hst
    split_ifs at hst with hfull hread
    swap
    · cases hst
      exact h.startWriting hactive hpc (by omega)
    have hclean := h.cleanup chunk.length hread hwriting
    split at hst
    · next t' heq =>
      rw [heq] at hclean
      cases hst
      exact hclean
    next t' j heq =>
    have hpid := h.cleanup_procPid chunk.length i
    have hpc' : (s.cleanup chunk.length).1.pc i = .inserting chunk rest := hpc
    rw [heq] at hclean hpid hpc'
    cases hst
    exact hclean.release (by rwa [hpid]) hpc'
  | signaling chunk rest =>
    simp only [hpc] at hst
    split_ifs at hst with hl
    cases hst
    exact h.acquire hactive (by rw [hpc]; rfl) hl
  | writing done todo rest =>
    cases todo with
    | nil =>
      simp only [hpc] at hst
      cases hst
      exact h.publish hpc
    | cons m todo =>
      simp only [hpc] at hst
      cases hst
      exact h.writeCell hpc
  | fetched max datasize =>
    simp only [hpc] at hst
    split_ifs at hst with hreset
    · cases hst
      exact h.takeReset hpc hactive
    · cases hst
      exact h.startReading hpc hactive (by simpa using hreset)
  | reading max datasize n =>
    simp only [hpc] at hst
    split_ifs at hst with hmore
    · cases hst
      exact h.takeMessage hpc hactive hmore.2
    · cases hst
      exact h.stopReading hpc hactive _

theorem step (h : Inv s) {e : Event α} {t : Sys α} (hst : step s e = some t) : Inv t := by
  cases e <;> simp only [SInval.step] at hst
  case backendInit pid sendOnly =>
    split_ifs at hst with hcond
    split at hst
    · cases hst
    next i seg hreg =>
    cases hst
    exact h.register hcond.2 hreg
  case backendExit i =>
    split_ifs at hst with hcond
    cases hst
    exact h.leave hcond.2.1
  case insertDataEntries i data =>
    split_ifs at hst with hcond
    cases hst
    have hpc := Pc.eq_idle hcond.2
    exact h.setPc (of_decide_eq_true hcond.1) (by rw [hpc]; rfl) (by rw [hpc]; rfl) rfl rfl
  case getDataEntries i datasize =>
    split_ifs at hst with hcond
    cases hst
    exact h.fetch ⟨of_decide_eq_true hcond.1, hcond.2.2⟩ (Pc.eq_idle hcond.2.1) datasize
  case cleanupQueue i minFree =>
    split_ifs at hst with hcond
    cases hst
    refine h.cleanup minFree hcond.2.2.2 ?_
    intro j done todo rest hj
    have := h.lock j (by rw [hj]; rfl)
    rw [hcond.2.2.1] at this
    cases this
  case tick i =>
    split_ifs at hst with hactive
    exact h.tick (of_decide_eq_true hactive) hst

end Inv

theorem inv_follow (maxBackends : Nat) (es : List (Event α)) :
    Inv (follow step (init maxBackends) es) :=
  (steps_of_follow (P := fun _ _ => True) es fun _ _ _ => trivial).invariant
    (inv_init maxBackends) fun _ _ _ h _ hst => h.step hst

/-! ### A call of `SIGetDataEntries` -/

/-- The position of a backend in the sequence of all messages, while it needs no reset. -/
def Sys.position (s : Sys α) (i : Nat) : Nat := (s.lowered + (s.seg.procState i).nextMsgNum).toNat

/-- The backend of an entry is to be handed messages. -/
def Sys.receives (s : Sys α) (i : Nat) : Prop := (s.seg.procState i).receives

/-- The cell that a writer writes next. -/
def Sys.nextWrite (s : Sys α) (w : Nat) : Option Nat :=
  match s.pc w with
  | .writing done (_ :: _) _ => some (SISeg.slot (s.seg.maxMsgNum + done.length))
  | _ => none

section Reading

variable {s : Sys α} {i : Nat}

theorem step_tick (hactive : (s.seg.procState i).procPid ≠ 0) : step s (.tick i) = tick s i := by
  have h : s.active i = true := decide_eq_true hactive
  simp only [step, if_pos h]

/-- The loop of `SIGetDataEntries` hands over the next `k` messages, where `k` is how many
the caller has room for and the fetched bound allows. -/
theorem reading_run (max : Int) (datasize : Nat) :
    ∀ (k n : Nat) (s : Sys α), Inv s → s.receives i → s.pc i = .reading max datasize n →
      Min.min (datasize - n) (max - (s.seg.procState i).nextMsgNum).toNat = k →
      ∃ t, exec step s (replicate (k + 1) (.tick i)) = some t ∧ t.pc i = .idle ∧
        t.log i = s.log i ++ ((s.sent.drop (s.position i)).take k).map fun m => .msg (some m) := by
  intro k
  induction k with
  | zero =>
    intro n s h hrec hpc hk
    have hstop : ¬ (n < datasize ∧ (s.seg.procState i).nextMsgNum < max) := by omega
    have hst : step s (.tick i) = _ := (step_tick hrec.1).trans (by
      simp only [tick, hpc]
      rw [if_neg hstop])
    refine ⟨_, by simp only [replicate, exec, hst]; rfl, ?_, ?_⟩
    · simp [setPc]
    · simp [setPc]
  | succ k ih =>
    intro n s h hrec hpc hk
    have hmore : n < datasize ∧ (s.seg.procState i).nextMsgNum < max := by omega
    have hst : step s (.tick i) = _ := (step_tick hrec.1).trans (by
      simp only [tick, hpc]
      rw [if_pos hmore])
    have hcounts : (s.seg.procState i).counts := ⟨hrec, (h.backend i).reading max datasize n hpc⟩
    have hlo := ((h.backend i).next hcounts).1
    have hle := (h.backend i).le_max
    have hnonneg := h.min_nonneg
    have hsent := h.sent
    rw [hpc] at hle
    simp only [Pc.limit] at hle
    have hpos : ((s.position i : Nat) : Int) = s.lowered + (s.seg.procState i).nextMsgNum := by
      unfold position
      omega
    have hlt : s.position i < s.sent.length := by omega
    obtain ⟨t, hrun, hidle, hlog⟩ := ih (n + 1) _ (h.step hst)
      (by simpa [receives, SISeg.modifyProc, ProcState.receives] using hrec)
      (by simp [setPc, give])
      (by simp only [SISeg.modifyProc, update_self]; omega)
    refine ⟨t, ?_, hidle, ?_⟩
    · rw [replicate_succ]
      simp only [exec, hst]
      exact hrun
    have hstep : (s.lowered + ((s.seg.procState i).nextMsgNum + 1)).toNat
        = s.position i + 1 := by omega
    rw [hlog, drop_eq_getElem_cons hlt, take_succ_cons, map_cons,
      slot_eq hpos h.lowered, h.buffer_eq hcounts hpos.ge hlt, getElem?_eq_getElem hlt,
      append_cons]
    congr 1
    · simp only [give, setPc, update_self]
    simp only [give, setPc, position, SISeg.modifyProc, update_self]
    rw [hstep]
    rfl

/-- With `maxMsgNum` just fetched, the rest of the call hands over the next messages, as many
as the caller has room for; or a reset that covers everything sent so far. -/
theorem fetched_run (h : Inv s) (hrec : s.receives i) (datasize : Nat)
    (hpc : s.pc i = .fetched s.seg.maxMsgNum datasize) :
    ∃ n t, exec step s (replicate n (.tick i)) = some t ∧ t.pc i = .idle ∧ t.log i = s.log i ++
        if (s.seg.procState i).resetState then [.reset s.sent.length]
        else ((s.sent.drop (s.position i)).take datasize).map fun m => .msg (some m) := by
  by_cases hreset : (s.seg.procState i).resetState = true
  · have hst : step s (.tick i) = _ := (step_tick hrec.1).trans (by
      simp only [tick, hpc]
      rw [if_pos hreset])
    refine ⟨1, _, by simp only [exec, replicate, hst]; rfl, ?_, ?_⟩
    · simp [setPc, give]
    · simp [setPc, give, hreset]
  have hst : step s (.tick i) = _ := (step_tick hrec.1).trans (by
    simp only [tick, hpc]
    rw [if_neg hreset])
  have hcounts : (s.seg.procState i).counts := ⟨hrec, by simpa using hreset⟩
  have hnext := (h.backend i).next hcounts
  have hnonneg := h.min_nonneg
  have hsent := h.sent
  have hlen : (s.seg.maxMsgNum - (s.seg.procState i).nextMsgNum).toNat
      = (s.sent.drop (s.position i)).length := by
    rw [length_drop]
    unfold position
    omega
  obtain ⟨t, hrun, hidle, hlog⟩ := reading_run s.seg.maxMsgNum datasize
    (Min.min datasize (s.sent.drop (s.position i)).length) 0 _ (h.step hst) hrec
    (by simp [setPc]) (by rw [← hlen]; rfl)
  refine ⟨Min.min datasize (s.sent.drop (s.position i)).length + 1 + 1, t, ?_, hidle, ?_⟩
  · rw [replicate_succ]
    simp only [exec, hst]
    exact hrun
  have htake : ∀ l : List α, l.take (Min.min datasize l.length) = l.take datasize := by
    intro l
    rw [take_eq_take_iff]
    omega
  rw [hlog, if_neg hreset, ← htake]
  rfl

theorem getDataEntries_run (h : Inv s) (hrec : s.receives i) (hpc : s.pc i = .idle)
    (datasize : Nat) :
    ∃ n t, exec step s (.getDataEntries i datasize :: replicate n (.tick i)) = some t ∧
      t.pc i = .idle ∧
      t.log i = s.log i ++
        if (s.seg.procState i).resetState then [.reset s.sent.length]
        else ((s.sent.drop (s.position i)).take datasize).map fun m => .msg (some m) := by
  have hactive : s.active i = true := decide_eq_true hrec.1
  have hget : step s (.getDataEntries i datasize)
      = some (s.setPc i (.fetched s.seg.maxMsgNum datasize)) := by
    simp only [step]
    rw [if_pos ⟨hactive, by rw [hpc]; rfl, hrec.2⟩]
  obtain ⟨n, t, hrun, hidle, hlog⟩ := fetched_run (h.fetch hrec hpc datasize) hrec datasize
    (by simp [setPc])
  refine ⟨n, t, ?_, hidle, hlog⟩
  simp only [exec, hget]
  exact hrun

end Reading

/-- The cell that is written next is no cell that anybody has still to read. -/
theorem nextWrite_ne {i g : Nat} (h : Inv s) (hcounts : (s.seg.procState i).counts)
    (hle : s.position i ≤ g) (hlt : g < s.sent.length) (w : Nat) :
    s.nextWrite w ≠ some (g % maxNumMessages) := by
  unfold nextWrite
  split
  swap
  · simp
  next done m todo rest hpc =>
  have hroom := h.room w done (m :: todo) rest hpc
  have hmin := ((h.backend i).next hcounts).1
  have hsent := h.sent
  have hslot : SISeg.slot (s.seg.maxMsgNum + done.length)
      = (s.sent.length + done.length) % maxNumMessages := by
    refine slot_eq ?_ h.lowered
    omega
  unfold position at hle
  rw [length_cons] at hroom
  rw [hslot]
  have hlt' : g < s.sent.length + done.length := by omega
  have hwin : s.sent.length + done.length < g + maxNumMessages := by omega
  intro heq
  exact cell_ne hlt' hwin (Option.some.inj heq).symm

/--
Whatever the backends do and however their steps are interleaved: the ring never has more
than `MAXNUMMESSAGES` messages in it and the counters stay `int`s; a registered backend that
receives has been handed every message sent since it registered, once and in order, up to
its position, but for those that a reset given after they were sent has covered; as long as
it needs no reset, what is after its position is in the ring, in cells that no writer writes
next; and a call of `SIGetDataEntries` gives it the next messages, or a reset.
-/
theorem no_lost_invalidation (maxBackends : Nat) (es : List (Event α)) :
    let s := Run.follow step (init maxBackends) es
    (0 ≤ s.seg.minMsgNum ∧ s.seg.minMsgNum ≤ s.seg.maxMsgNum ∧
      s.seg.maxMsgNum - s.seg.minMsgNum ≤ maxNumMessages ∧ s.seg.maxMsgNum < 2 ^ 31) ∧
    ∀ i, s.receives i → (∃ c, c ≤ s.sent.length ∧ Delivered s.sent (s.since i) (s.log i) c ∧
        ((s.seg.procState i).resetState = false → c = s.position i)) ∧
      ((s.seg.procState i).resetState = false → ∀ g, s.position i ≤ g → g < s.sent.length →
        s.seg.buffer (g % maxNumMessages) = s.sent[g]? ∧
        ∀ w, s.nextWrite w ≠ some (g % maxNumMessages)) ∧
      (s.pc i = .idle → ∀ datasize, ∃ n t,
        Run.exec step s (.getDataEntries i datasize :: List.replicate n (.tick i)) = some t ∧
        t.pc i = .idle ∧
        t.log i = s.log i ++
          if (s.seg.procState i).resetState then [.reset s.sent.length]
          else ((s.sent.drop (s.position i)).take datasize).map fun m => .msg (some m)) := by
  intro s
  have h : Inv s := inv_follow maxBackends es
  have hnonneg := h.min_nonneg
  have hsent := h.sent
  have hspan := h.span
  have hlt := h.min_lt
  refine ⟨⟨hnonneg, h.min_le_max, hspan, ?_⟩, ?_⟩
  · have hsmall : (msgNumWrapAround : Int) + maxNumMessages < 2 ^ 31 := by decide
    omega
  intro i hrec
  refine ⟨?_, ?_, ?_⟩
  · obtain ⟨c, hdel, hle, hpos⟩ := (h.backend i).delivered hrec
    have hmax := (h.backend i).le_max
    refine ⟨c, by omega, hdel, ?_⟩
    intro hreset
    have := hpos hreset
    unfold position
    omega
  · intro hreset g hle hg
    have hcounts : (s.seg.procState i).counts := ⟨hrec, hreset⟩
    refine ⟨h.buffer_eq hcounts ?_ hg, fun w => nextWrite_ne h hcounts hle hg w⟩
    unfold position at hle
    omega
  · intro hidle datasize
    exact getDataEntries_run h hrec hidle datasize

/-- Two backends; one inserts twice, the other has read once and registered in between. -/
theorem no_lost_invalidation_two :
    let s := Run.follow step (init 2)
      ([.backendInit 10 false, .insertDataEntries 0 [5], .tick 0, .tick 0, .tick 0, .tick 0,
        .backendInit 11 false, .tick 0, .insertDataEntries 0 [7, 8], .tick 0, .tick 0, .tick 0,
        .tick 0, .tick 0, .getDataEntries 1 1, .tick 1, .tick 1] : List (Event Nat))
    s.sent = [5, 7, 8] ∧ s.since 1 = 1 ∧ s.log 1 = [.msg (some 7)] ∧
    ∃ c, c ≤ s.sent.length ∧ Delivered s.sent (s.since 1) (s.log 1) c ∧
      ((s.seg.procState 1).resetState = false → c = s.position 1) :=
  ⟨by decide +kernel, by decide +kernel, by decide +kernel,
    ((no_lost_invalidation 2 _).2 1 ⟨by decide +kernel, by decide +kernel⟩).1⟩

end PrlPg.SInval
