/-
Every read of a MultiXact set returns, and returns the set.

A reader is held up in two places.  While somebody holds `MultiXactGenLock` it cannot see the
counters: that backend is in the loop of `ExtendMultiXactMember`, which ends.  While the offset of
the next set is zero it tries again: the creator of that set is about to write it.  In both cases
the run below first lets the other backend take its steps.
-/
import PrlPg.Proofs.MultiXactSteps

namespace PrlPg.MultiXact

open Mvcc Option Run
open Function (update update_of_ne update_self)

variable {B : Type} [DecidableEq B] [Fintype B] {s : State B} {b : B}
variable {vid : Nat} {s₁ : State B}

/-- The id whose members are being read. -/
def Stage.reading? : Stage → Option Nat
  | readLimits _ vid => some vid
  | readOffset _ _ _ vid => some vid
  | readNextOffset _ _ _ _ vid => some vid
  | readMember _ _ _ _ vid => some vid
  | _ => none

/-- The call a backend is in can return. -/
def Returns (s : State B) (b : B) (vid : Nat) : Prop :=
  ∃ es s' result, Run.exec step s es = some s' ∧
    s'.answers = ⟨vid, (s.backend b).oldestVisibleMXactId, result⟩ :: s.answers

theorem returns_of_step {e : Event B} (hst : step s e = some s₁)
    (hans : s₁.answers = s.answers)
    (hvis : (s₁.backend b).oldestVisibleMXactId = (s.backend b).oldestVisibleMXactId)
    (h : Returns s₁ b vid) : Returns s b vid := by
  obtain ⟨es, s', result, hrun, heq⟩ := h
  refine ⟨e :: es, s', result, ?_, ?_⟩
  · simp only [exec, hst]
    exact hrun
  · rw [heq, hans, hvis]

omit [Fintype B] in
theorem setStage_self (stage : Stage) :
    (s.setStage b stage).backend b = { s.backend b with stage := stage } :=
  update_self ..

theorem returns_of_setStage {stage : Stage} (hst : step s (.go b) = some (s.setStage b stage))
    (h : Returns (s.setStage b stage) b vid) : Returns s b vid := by
  refine returns_of_step hst rfl ?_ h
  rw [setStage_self]

/-! ### Reading the members -/

variable {multi : Nat}

theorem returns_readMember :
    ∀ (n : Nat) {s : State B} {offset : Nat} {length : Int} {ptr : List TransactionId},
      length.toNat = n → (s.backend b).stage = .readMember multi offset length ptr vid →
      Returns s b vid := by
  intro n
  induction n with
  | zero =>
    intro s offset length ptr hn hst
    have hend : ¬ 0 < length := by omega
    refine ⟨[.go b], (s.cachePut b multi ptr vid).answer b vid (some ptr), some ptr, ?_, ?_⟩
    · simp only [exec, step, go, hst, MultiXact.readMemberStep, if_neg hend]
    change ⟨vid, ((s.cachePut b multi ptr vid).backend b).oldestVisibleMXactId, some ptr⟩
      :: s.answers = _
    have hvis : ((s.cachePut b multi ptr vid).backend b).oldestVisibleMXactId
        = (s.backend b).oldestVisibleMXactId := by
      change (update s.backend b _ b).oldestVisibleMXactId = _
      rw [update_self]
    rw [hvis]
  | succ n ih =>
    intro s offset length ptr hn hst
    have hpos : 0 < length := by omega
    have hgo : step s (.go b) = some (s.setStage b (.readMember multi (uint32 (offset + 1))
        (length - 1) (if !transactionIdIsValid (s.logs.members offset) then ptr
          else ptr ++ [s.logs.members offset]) vid)) := by
      simp only [step, go, hst, MultiXact.readMemberStep, if_pos hpos]
    have hless : (length - 1).toNat = n := by omega
    exact returns_of_setStage hgo (ih hless (congrArg Backend.stage (setStage_self _)))

/-! ### Reading the offsets -/

variable {nextOffset nextMXact : Nat}

/-- The offset of the next set is there, or there was no next set. -/
def NextReady (s : State B) (nextMXact vid : Nat) : Prop :=
  nextMXact = uint32 (vid + 1) ∨ s.logs.offsets (uint32 (skipZero (vid + 1))) ≠ 0

theorem returns_readNextOffset {offset : Nat}
    (hst : (s.backend b).stage = .readNextOffset (uint32 vid) nextMXact nextOffset offset vid)
    (hready : NextReady s nextMXact vid) : Returns s b vid := by
  have htmp : uint32 (uint32 vid + 1) = uint32 (vid + 1) := uint32_uint32_add vid 1
  by_cases hlast : nextMXact = uint32 (vid + 1)
  · have hgo : step s (.go b) = some (s.setStage b (.readMember (uint32 vid) offset
        (int32 (uint32Sub nextOffset offset)) [] vid)) := by
      simp only [step, go, hst, MultiXact.readNextOffsetStep, htmp, if_pos hlast]
    exact returns_of_setStage hgo
      (returns_readMember _ rfl (congrArg Backend.stage (setStage_self _)))
  have hz := hready.resolve_left hlast
  have hgo : step s (.go b) = some (s.setStage b (.readMember (uint32 vid) offset
      (int32 (uint32Sub (s.logs.offsets (uint32 (skipZero (vid + 1)))) offset)) [] vid)) := by
    simp only [step, go, hst, MultiXact.readNextOffsetStep, htmp, if_neg hlast, ite_first_eq,
      if_neg hz]
  exact returns_of_setStage hgo
    (returns_readMember _ rfl (congrArg Backend.stage (setStage_self _)))

theorem returns_readOffset_of_ready
    (hst : (s.backend b).stage = .readOffset (uint32 vid) nextMXact nextOffset vid)
    (hready : NextReady s nextMXact vid) : Returns s b vid := by
  have hgo : step s (.go b) = some (s.setStage b (.readNextOffset (uint32 vid) nextMXact
      nextOffset (s.logs.offsets (uint32 vid)) vid)) := by
    simp only [step, go, hst]
  exact returns_of_setStage hgo
    (returns_readNextOffset (congrArg Backend.stage (setStage_self _)) hready)

omit [DecidableEq B] [Fintype B] in
/-- A next set whose offset is not there yet has a creator that will write it. -/
theorem Inv.creator (h : Inv s) (hr : Ready s.logs multi vid)
    (hlim : Limits s.logs nextMXact nextOffset vid) (hready : ¬ NextReady s nextMXact vid) :
    ∃ q c, (s.backend q).stage = .recordOffset c ∧ c.vid = skipZero (vid + 1) := by
  rw [NextReady, not_or, not_not] at hready
  obtain ⟨hnew, hz⟩ := hready
  obtain ⟨m, hm⟩ := hr.made h.logs
  obtain ⟨vn, on, hn, -, hlt, hle, -, -, hnext⟩ := hlim
  have hnext := hnext fun hvn => hnew (by rw [hn, hvn])
  rcases h.logs.next vid m hm with ⟨heq, -⟩ | ⟨-, m₂, hm₂, -⟩
  · have := le_skipZero (vid + 1)
    omega
  refine h.creating _ (by rw [hm₂]; rfl) (Bool.eq_false_iff.2 fun hd => ?_)
  have hlive₂ : s.logs.oldest ≤ skipZero (vid + 1) :=
    le_trans hr.live (le_trans (Nat.le_succ _) (le_skipZero _))
  have hword := h.logs.offset _ m₂ hm₂ hlive₂
  rw [hd, hz] at hword
  exact (h.logs.made _ m₂ hm₂).2.2.1 hword.symm

theorem returns_readOffset (h : Inv s)
    (hst : (s.backend b).stage = .readOffset multi nextMXact nextOffset vid) : Returns s b vid := by
  obtain ⟨hr, hlim⟩ := h.stage_at hst
  rw [hr.multi] at hst
  by_cases hready : NextReady s nextMXact vid
  · exact returns_readOffset_of_ready hst hready
  obtain ⟨q, c, hq, hc⟩ := h.creator hr hlim hready
  have hqb : b ≠ q := by
    rintro rfl
    rw [hst] at hq
    cases hq
  have hrec := h.stage q
  rw [hq] at hrec
  have hsame : (recordOffsetStep s q c).backend b = s.backend b := update_of_ne hqb _ _
  have hgo : step s (.go q) = some (recordOffsetStep s q c) := by simp only [step, go, hq]
  refine returns_of_step hgo rfl (by rw [hsame])
    (returns_readOffset_of_ready (by rw [hsame]; exact hst) (.inr ?_))
  change update s.logs.offsets c.multi c.offset (uint32 (skipZero (vid + 1))) ≠ 0
  rw [hrec.ok.multi, hc, update_self, hrec.ok.offset]
  exact (h.logs.made _ _ hrec.made).2.2.1

/-! ### Waiting for the lock -/

/-- The lock can be given back, with nothing done to the backend. -/
abbrev Unlocks (s : State B) (b : B) : Prop :=
  ∃ es s', exec step s es = some s' ∧ s'.multiXactGenLock = none ∧
    s'.answers = s.answers ∧ s'.backend b = s.backend b

/-- Whoever holds the lock gives it back. -/
theorem unlock {q : B} (hqb : b ≠ q) {c : Creation} {nxids : Nat} :
    ∀ (n : Nat) {s : State B} {offset : Nat} {nmembers : Int}, nmembers.toNat ≤ n →
      (s.backend q).stage = .extendMember c offset nmembers nxids →
      Unlocks s b := by
  have hlast : ∀ {s : State B} {offset : Nat} {nmembers : Int}, ¬ 0 < nmembers →
      (s.backend q).stage = .extendMember c offset nmembers nxids →
      Unlocks s b := by
    intro s offset nmembers hend hst
    refine ⟨[.go q], endReserve s q c nxids, ?_, rfl, rfl, update_of_ne hqb _ _⟩
    simp only [exec, step, go, hst, if_neg hend]
  intro n
  induction n with
  | zero =>
    intro s offset nmembers hn hst
    exact hlast (by omega) hst
  | succ n ih =>
    intro s offset nmembers hn hst
    by_cases hpos : 0 < nmembers
    swap
    · exact hlast hpos hst
    have hentry : offset % entriesPerPage < entriesPerPage := Nat.mod_lt _ (by decide)
    have hless : (nmembers - (entriesPerPage - offset % entriesPerPage : Nat)).toNat ≤ n := by omega
    obtain ⟨es, s', hrun, hlock, hans, hback⟩ := ih
      (s := extendMemberStep s q c offset nmembers nxids) hless
      (congrArg Backend.stage (setStage_self _))
    refine ⟨.go q :: es, s', ?_, hlock, hans, hback.trans (update_of_ne hqb _ _)⟩
    simp only [exec, step, go, hst, if_pos hpos]
    exact hrun

theorem Inv.unlock (h : Inv s) (hb : (s.backend b).stage.locking = false) : Unlocks s b := by
  cases hlock : s.multiXactGenLock with
  | none => exact ⟨[], s, rfl, hlock, rfl, rfl⟩
  | some q =>
    have hq := h.locked q hlock
    have hqb : b ≠ q := by
      rintro rfl
      rw [hq] at hb
      cases hb
    cases hst : (s.backend q).stage with
    | extendOffset args =>
      obtain ⟨es, s', hrun, hl, hans, hback⟩ := MultiXact.unlock hqb _
        (s := MultiXact.extendOffsetStep s q args) (le_rfl)
        (congrArg Backend.stage (setStage_self _))
      refine ⟨.go q :: es, s', ?_, hl, hans, hback.trans (update_of_ne hqb _ _)⟩
      simp only [exec, step, go, hst]
      exact hrun
    | extendMember c offset nmembers nxids => exact MultiXact.unlock hqb _ (le_rfl) hst
    | _ =>
      rw [hst] at hq
      cases hq

theorem returns_of_exec {es : List (Event B)} (hrun : exec step s es = some s₁)
    (hans : s₁.answers = s.answers) (hback : s₁.backend b = s.backend b) (h : Returns s₁ b vid) :
    Returns s b vid := by
  obtain ⟨es', s', result, hrun', heq⟩ := h
  refine ⟨es ++ es', s', result, ?_, ?_⟩
  · rw [exec_append, hrun]
    exact hrun'
  · rw [heq, hans, hback]

theorem returns_readLimits (h : Inv s) (hst : (s.backend b).stage = .readLimits multi vid) :
    Returns s b vid := by
  obtain ⟨es, s₁, hrun, hlock, hans, hback⟩ := h.unlock (b := b) (by rw [hst]; rfl)
  refine returns_of_exec hrun hans hback ?_
  have h₁ := inv_of_exec h hrun
  have hst₁ : (s₁.backend b).stage = .readLimits multi vid := by rw [hback]; exact hst
  have hr := h₁.stage b
  rw [hst₁] at hr
  have hprec := (h₁.limits hr hlock).1
  have hgo : step s₁ (.go b)
      = some (s₁.setStage b (.readOffset multi s₁.nextMXact s₁.nextOffset vid)) := by
    simp only [step, go, hst₁, hlock, isSome_none, Bool.false_eq_true, if_false,
      readLimitsStep, hprec, Bool.not_true]
  exact returns_of_setStage hgo
    (returns_readOffset (inv_step h₁ hgo) (congrArg Backend.stage (setStage_self _)))

theorem returns_of_reading (h : Inv s) (hreading : (s.backend b).stage.reading? = some vid) :
    Returns s b vid := by
  cases hst : (s.backend b).stage with
  | readLimits multi v =>
    rw [hst] at hreading
    obtain rfl := some.inj hreading
    exact returns_readLimits h hst
  | readOffset multi nextMXact nextOffset v =>
    rw [hst] at hreading
    obtain rfl := some.inj hreading
    exact returns_readOffset h hst
  | readNextOffset multi nextMXact nextOffset offset v =>
    rw [hst] at hreading
    obtain rfl := some.inj hreading
    obtain rfl := (h.stage_at hst).1.multi
    by_cases hready : NextReady s nextMXact v
    · exact returns_readNextOffset hst hready
    -- the next set is not there: the reader sleeps and tries again
    rw [NextReady, not_or, not_not] at hready
    have hgo : step s (.go b)
        = some (s.setStage b (.readOffset (uint32 v) nextMXact nextOffset v)) := by
      simp only [step, go, hst, MultiXact.readNextOffsetStep, uint32_uint32_add,
        if_neg hready.1, ite_first_eq, if_pos hready.2]
    exact returns_of_setStage hgo
      (returns_readOffset (inv_step h hgo) (congrArg Backend.stage (setStage_self _)))
  | readMember multi offset length ptr v =>
    rw [hst] at hreading
    obtain rfl := some.inj hreading
    exact returns_readMember _ rfl hst
  | _ =>
    rw [hst] at hreading
    exact absurd hreading (by simp [Stage.reading?])

/-! ### Membership is exact -/

/--
In every run of creators and readers, a call of `GetMultiXactIdMembers` for an id that is not
before the oldest one its caller can see returns the transaction ids the set was created with, and
no zero id.  A call under way can return.
-/
theorem getMultiXactIdMembers_exact {s₀ s : State B} (h₀ : Start s₀) (es : List (Event B))
    (hrun : Run.exec step s₀ es = some s) :
    (∀ a ∈ s.answers, multiXactIdPrecedes (uint32 a.vid) a.oldestVisibleMXactId = false →
      ∃ m xids, s.logs.made a.vid = some m ∧ a.result = some xids ∧ xids.Perm m.args ∧
        0#32 ∉ xids) ∧
    ∀ b vid, (s.backend b).stage.reading? = some vid → Returns s b vid := by
  have h := inv_of_exec (inv_start h₀) hrun
  refine ⟨fun a ha hvis => ?_, fun b vid hreading => returns_of_reading h hreading⟩
  obtain ⟨m, hm, hresult | hprec⟩ := (h.answers a ha).made
  · refine ⟨m, m.xids, hm, hresult, sortXids_perm m.args, fun hzero => ?_⟩
    have hvalid := (h.logs.made _ m hm).2.2.2.2 _ ((sortXids_perm m.args).mem_iff.1 hzero)
    cases hvalid
  · rw [hvis] at hprec
    cases hprec

/-- In every run the two logs keep each live set whole: once it is written its offset and its
members are read back, and no two live sets share a 32-bit id or a member slot. -/
theorem live_sets_kept {s₀ s : State B} (h₀ : Start s₀) (es : List (Event B))
    (hrun : Run.exec step s₀ es = some s) :
    (∀ v m, s.logs.made v = some m → s.logs.oldest ≤ v → s.logs.membersDone v = true →
      s.logs.offsets (uint32 v) = uint32 m.start ∧
        ∀ j x, m.xids[j]? = some x → s.logs.members (uint32 (m.start + j)) = x) ∧
    ∀ v m w m', s.logs.made v = some m → s.logs.made w = some m' → s.logs.oldest ≤ v → v < w →
      uint32 v ≠ uint32 w ∧ ∀ i j, i < m.xids.length → j < m'.xids.length →
        uint32 (m.start + i) ≠ uint32 (m'.start + j) := by
  have h := (inv_of_exec (inv_start h₀) hrun).logs
  refine ⟨fun v m hv hlive hdone => ⟨?_, h.member v m hv hlive hdone⟩, ?_⟩
  · rw [h.offset v m hv hlive, if_pos ((h.done v).1 hdone)]
  intro v m w m' hv hw hlive hlt
  have hlive' := hlive.trans hlt.le
  refine ⟨fun heq => hlt.ne (h.word_inj (h.made v m hv).1 hlive (h.made w m' hw).1 hlive' heq),
    fun i j hi hj heq => ?_⟩
  have horder := (le_skipZero m.stop).trans (h.order v m w m' hv hw hlt)
  have hslot := h.slot_eq hv hw hlive hlive' (Nat.add_le_add_left hi.le _)
    (Nat.add_le_add_left hj.le _) heq
  unfold Made.stop at horder
  omega

/-! ### Two sets, the second of which is not finished -/

def sampleStart : State Bool where
  nextMXact := 1
  nextOffset := 0
  multiXactGenLock := none
  logs := ⟨fun _ => 77, fun _ => 99#32, 1, 0, fun _ => none, fun _ => false, fun _ => false, 1, 0⟩
  backend := fun _ => ⟨.idle, [], 1⟩
  answers := []

theorem sampleStart_start : Start sampleStart :=
  ⟨rfl, rfl, rfl, fun _ => rfl, fun _ => rfl, rfl, rfl, rfl, fun _ => rfl, fun _ => rfl,
    fun _ => rfl, rfl, rfl⟩

/-- One backend reads its set back while the other has not written the offset of the next. -/
def sampleEvents : List (Event Bool) :=
  [.create false [7#32, 5#32], .go false, .go false, .go false, .go false, .go false, .go false,
   .go false, .endTransaction false, .create true [9#32], .go true, .go true, .go true,
   .ask false 1, .go false, .go false, .go false, .go true, .go false, .go false, .go false,
   .go false, .go false]

theorem sampleEvents_run : (exec step sampleStart sampleEvents).isSome = true := by decide +kernel

def sampleEnd : State Bool := (Run.exec step sampleStart sampleEvents).get sampleEvents_run

theorem getMultiXactIdMembers_exact_waiting : sampleEnd.answers = [⟨1, 1, some [5#32, 7#32]⟩] ∧
    ∀ a ∈ sampleEnd.answers, multiXactIdPrecedes (uint32 a.vid) a.oldestVisibleMXactId = false →
      ∃ m xids, sampleEnd.logs.made a.vid = some m ∧ a.result = some xids ∧ xids.Perm m.args ∧
        0#32 ∉ xids :=
  ⟨by decide +kernel, (getMultiXactIdMembers_exact sampleStart_start sampleEvents
    (Option.some_get sampleEvents_run).symm).1⟩

theorem live_sets_kept_sample : sampleEnd.logs.membersDone 1 = true ∧
    sampleEnd.logs.offsets 1 = 1 ∧ sampleEnd.logs.members 2 = 7#32 := by
  have hdone : sampleEnd.logs.membersDone 1 = true := by decide +kernel
  obtain ⟨hoff, hmem⟩ := (live_sets_kept sampleStart_start sampleEvents
    (Option.some_get sampleEvents_run).symm).1 1 ⟨1, [7#32, 5#32]⟩ (by decide +kernel)
      (by decide +kernel) hdone
  exact ⟨hdone, hoff, hmem 1 7#32 (by decide +kernel)⟩

end PrlPg.MultiXact
