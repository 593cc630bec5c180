/-
The steps of creators and readers of MultiXact sets, and whole runs of them.

Every step of `CreateMultiXactId` and of `GetMultiXactIdMembers` keeps `Inv`.  A reader may have
to wait: for the lock while somebody extends the logs, and for the offset of the next set while
its creator has not written it yet.  In both cases the one it waits for can go on, so every call
can return.
-/
import PrlPg.Proofs.MultiXact

namespace PrlPg.MultiXact

open Mvcc Option List

variable {B : Type} [DecidableEq B] {s : State B} {b : B}

/-! ### Sorting -/

section

variable (xids : List TransactionId)
include xids

theorem sortXids_perm : (sortXids xids).Perm xids :=
  perm_insertionSort _ _

theorem sortXids_sortXids :
    sortXids (sortXids xids) = sortXids xids := by
  exact (pairwise_insertionSort (fun a b : TransactionId => a.toNat ≤ b.toNat)
    xids).insertionSort_eq

theorem length_sortXids : (sortXids xids).length = xids.length :=
  (sortXids_perm xids).length_eq

end

/-! ### Creating -/

variable {vid offset multi nxids : Nat} {c : Creation} {args : List TransactionId}
  {nmembers : Int} {m : Made}

omit [DecidableEq B] in
theorem Inv.lock_of_locking (h : Inv s) (hb : (s.backend b).stage.locking = true) :
    s.multiXactGenLock = some b := by
  have hst := h.stage b
  generalize (s.backend b).stage = st at hb hst
  cases st with
  | extendOffset args => exact hst.1
  | extendMember c offset nmembers nxids => exact hst.1
  | _ => cases hb

omit [DecidableEq B] in
theorem Inv.not_locking (h : Inv s) (hb : s.multiXactGenLock = some b) {q : B} (hq : q ≠ b) :
    (s.backend q).stage.locking = false := by
  refine Bool.eq_false_iff.2 fun hl => hq ?_
  exact some.inj ((h.lock_of_locking hl).symm.trans hb)

theorem Inv.beginCreate (h : Inv s) (hidle : (s.backend b).stage = .idle)
    (hlock : s.multiXactGenLock = none) (hcan : CanReserve s.logs args) :
    Inv (beginCreate s b args) := by
  obtain ⟨hn, hrest⟩ := h.free hlock
  have hskip : (if s.nextMXact < firstMultiXactId then firstMultiXactId else s.nextMXact)
      = uint32 (skipZero s.logs.vnext) := by
    rw [hn, ite_first_eq]
  refine h.update h.logs Grows.refl rfl h.nextOffset (fun hf => absurd hf (by simp))
    (fun q _ hq => ?_) ⟨rfl, hskip, hcan, hrest⟩
    ⟨fun q hq heq => absurd (some.inj heq) (Ne.symm hq), fun _ => rfl⟩
    (fun v hm hd => .inr ⟨hm, hd, fun c hc => ?_⟩) (h.cache b) h.answers
  · rw [h.lock_of_locking hq] at hlock
    cases hlock
  · rw [hidle] at hc
    cases hc

theorem Inv.extendOffsetStep (h : Inv s) (hst : (s.backend b).stage = .extendOffset args) :
    Inv (extendOffsetStep s b args) := by
  obtain ⟨hlock, hn, hcan, hrest⟩ := h.stage_at hst
  have hoff : (if s.nextOffset = 0 then 1 else s.nextOffset) = uint32 (skipZero s.logs.onext) := by
    rw [uint32_skipZero, h.nextOffset]
  have hnx : s.logs.onext + (if s.nextOffset = 0 then (sortXids args).length + 1
      else (sortXids args).length) = skipZero s.logs.onext + (sortXids args).length := by
    rw [h.nextOffset]
    split_ifs with h0
    · rw [skipZero_of_eq h0]
      omega
    · rw [skipZero_of_ne h0]
  unfold MultiXact.extendOffsetStep
  rw [hn]
  refine h.update (h.logs.extendOffset hcan.id)
    ⟨fun _ _ => id, fun _ => id, fun _ => id, le_rfl, le_rfl,
      fun _ _ _ _ _ _ _ => id⟩ rfl h.nextOffset (fun hf => absurd (hlock.symm.trans hf) (by simp))
    (fun q hq hl => ?_) ⟨hlock, hn, ⟨hcan.valid, hcan.id, hcan.slots⟩, ⟨rfl, hoff, rfl⟩,
      s.logs.onext, rfl, rfl, extendOffset_fresh hrest, hnx, le_rfl, h.nextOffset, ?_,
      .inl rfl, fun hne => absurd rfl hne⟩
    ⟨fun _ _ => id, fun _ => rfl⟩ (fun v hm hd => .inr ⟨hm, hd, fun c hc => ?_⟩)
    (fun e he => ?_) (fun a ha => ?_)
  · rw [h.not_locking hlock hq] at hl
    cases hl
  · push_cast
    omega
  · rw [hst] at hc
    cases hc
  · exact ⟨(h.cache b e he).multi, (h.cache b e he).live, (h.cache b e he).made⟩
  · exact ⟨(h.answers a ha).made⟩

/-- The members log after one round of the loop of `ExtendMultiXactMember`. -/
def Logs.zeroAt (l : Logs) (offset : Nat) : Logs :=
  { l with
    members := if offset % entriesPerPage = 0 then
        zeroPage 0#32 l.members (offset / entriesPerPage)
      else l.members }

variable {l : Logs}

theorem Extending.next {p : Nat} (h : Extending l c offset nmembers nxids p) :
    Extending (l.zeroAt offset) c (uint32 (offset + (entriesPerPage - offset % entriesPerPage)))
      (nmembers - (entriesPerPage - offset % entriesPerPage : Nat)) nxids
      (p + (2048 - p % 2048)) := by
  have hentry : offset % entriesPerPage = p % 2048 := by
    rw [h.word]
    unfold uint32 entriesPerPage
    omega
  rw [hentry]
  refine ⟨h.vid, h.start, h.fresh, h.stop, Nat.le_add_right_of_le h.le, ?_, ?_, .inr ?_,
    fun _ h0 => ?_⟩
  · rw [h.word, uint32_uint32_add]
    rfl
  · change _ = (l.onext + nxids : Int) - _
    rw [h.left, entriesPerPage]
    omega
  · omega
  have h0 : uint32 l.onext = 0 := h0
  change (if offset % entriesPerPage = 0 then zeroPage 0#32 l.members (offset / entriesPerPage)
    else l.members) 0 = 0#32
  rw [hentry]
  by_cases hp : p = l.onext
  · -- the first round zeroes page zero
    have hfirst : p % 2048 = 0 := by
      unfold uint32 at h0
      omega
    rw [if_pos hfirst, h.word, hp, h0]
    exact if_pos rfl
  split_ifs with hfirst
  · rw [h.word]
    exact zeroMember_zero (h.zero hp h0)
  · exact h.zero hp h0

section

variable (h : Inv s) (hst : (s.backend b).stage = .extendMember c offset nmembers nxids)
include h hst

theorem Inv.extendMemberStep (hpos : 0 < nmembers) :
    Inv (extendMemberStep s b c offset nmembers nxids) := by
  obtain ⟨hlock, hn, hcan, hok, p, hp⟩ := h.stage_at hst
  have hslots := hcan.slots
  have hlt : p < s.logs.oldestStart + 2147483648 := by
    have hlen := hp.stop
    have hnm := hp.left
    rw [hok.xids, hp.start] at hlen
    omega
  have hboth : LogsInv (s.logs.zeroAt offset) ∧ Grows s.logs (s.logs.zeroAt offset) := by
    unfold Logs.zeroAt
    by_cases hfirst : offset % entriesPerPage = 0
    · have hpage : p % 2048 = 0 := by
        rw [hp.word] at hfirst
        unfold uint32 entriesPerPage at hfirst
        omega
      rw [if_pos hfirst, hp.word]
      exact h.logs.zeroMember hp.le hpage hlt
    · rw [if_neg hfirst]
      exact ⟨h.logs, Grows.refl⟩
  refine h.update hboth.1 hboth.2 rfl h.nextOffset
    (fun hf => absurd (hlock.symm.trans hf) (by simp))
    (fun q hq hl => ?_) ⟨hlock, hn, ⟨hcan.valid, hcan.id, hcan.slots⟩, hok, _, hp.next⟩
    ⟨fun _ _ => id, fun _ => rfl⟩ (fun v hm hd => .inr ⟨hm, hd, fun c hc => ?_⟩)
    (fun e he => (h.cache b e he).grows hboth.2 (h.cache b e he).live)
    (fun a ha => (h.answers a ha).grows hboth.2)
  · rw [h.not_locking hlock hq] at hl
    cases hl
  · rw [hst] at hc
    cases hc

theorem Inv.endReserve (hend : ¬ 0 < nmembers) : Inv (endReserve s b c nxids) := by
  obtain ⟨hlock, hn, hcan, hok, p, hp⟩ := h.stage_at hst
  have hfresh : Fresh s.logs (skipZero s.logs.vnext) := hp.vid ▸ hp.fresh
  have hzero : uint32 s.logs.onext = 0 → s.logs.members 0 = 0#32 := by
    intro h0
    refine hp.zero (fun hpo => ?_) h0
    have hlen := hp.stop
    have hnm := hp.left
    rw [hp.start, skipZero_of_eq h0] at hlen
    omega
  have hl := h.logs.reserve hcan.valid hcan.id hcan.slots hfresh hzero
  have hg := h.logs.reserve_grows c.args
  have hlogs : { s.logs with
      vnext := c.vid + 1
      onext := c.start + c.xids.length
      made := Function.update s.logs.made c.vid (some ⟨c.start, c.args⟩) }
        = s.logs.reserve c.args := by
    rw [hp.vid, hp.start, hok.xids]
    rfl
  unfold MultiXact.endReserve
  rw [hlogs]
  refine h.update hl hg rfl ?_ (fun _ => ⟨?_, rest_reserve hfresh⟩) (fun q hq hlk => ?_)
    ⟨hok, ?_, ?_⟩ ⟨fun q _ hf => absurd hf (by simp), fun hf => absurd hf (by simp)⟩
    (fun v hm hd => ?_)
    (fun e he => (h.cache b e he).grows hg (h.cache b e he).live)
    (fun a ha => (h.answers a ha).grows hg)
  · rw [h.nextOffset, uint32_uint32_add, hp.stop, hp.start, hok.xids]
    rfl
  · rw [hn, uint32_uint32_add]
    rfl
  · rw [h.not_locking hlock hq] at hlk
    cases hlk
  · rw [hp.vid, hp.start]
    exact reserve_made_self c.args
  · rw [hp.vid]
    exact le_trans h.logs.oldest.1 (le_skipZero _)
  by_cases hv : v = skipZero s.logs.vnext
  · exact .inl ⟨c, rfl, hp.vid.trans hv.symm⟩
  rw [reserve_made_of_ne c.args hv] at hm
  refine .inr ⟨hm, hd, fun c' hc' => ?_⟩
  rw [hst] at hc'
  cases hc'

end

section

variable (h : Inv s)
include h

/-- A step of a creator that has given the lock back. -/
theorem Inv.record {stage : Stage}
    (hc : (s.backend b).stage = .recordOffset c ∨ ∃ i, (s.backend b).stage = .recordMember c i)
    (hl : LogsInv l ∧ Grows s.logs l ∧ Keeps s.logs l) (hold : l.oldest = s.logs.oldest)
    (hmade : l.made = s.logs.made)
    (hundone : ∀ v, l.offsetDone v = false →
      s.logs.offsetDone v = false ∧ ((s.backend b).stage = .recordOffset c → c.vid ≠ v))
    (hstage : StageInv l s.nextMXact s.multiXactGenLock b stage) :
    Inv { s.setStage b stage with logs := l } := by
  obtain ⟨hl, hg, hk⟩ := hl
  have hunlocked : (s.backend b).stage.locking = false := by
    rcases hc with hc | ⟨i, hc⟩ <;> rw [hc] <;> rfl
  refine h.update hl hg hold ?_ (fun hf => ⟨?_, ((h.free hf).2).keeps hk⟩)
    (fun _ _ _ => ⟨hk, rfl, rfl⟩) hstage ⟨fun _ _ => id, fun hb => ?_⟩
    (fun v hm hd => .inr ⟨hmade ▸ hm, (hundone v hd).1, fun c' hc' => ?_⟩)
    (fun e he => (h.cache b e he).grows hg (hold ▸ (h.cache b e he).live))
    (fun a ha => (h.answers a ha).grows hg)
  · rw [hk.onext]
    exact h.nextOffset
  · rw [hk.vnext]
    exact (h.free hf).1
  · rw [h.locked b hb] at hunlocked
    cases hunlocked
  rcases hc with hc | ⟨i, hc⟩
  · rw [hc] at hc'
    obtain rfl := Stage.recordOffset.inj hc'
    exact (hundone v hd).2 hc
  · rw [hc] at hc'
    cases hc'

theorem Inv.recordOffsetStep (hst : (s.backend b).stage = .recordOffset c) :
    Inv (recordOffsetStep s b c) := by
  have hrec := h.stage b
  rw [hst] at hrec
  have hl := h.logs.writeOffset hrec.made hrec.live
  have hdone : Function.update s.logs.offsetDone c.vid true c.vid = true := Function.update_self ..
  unfold MultiXact.recordOffsetStep
  rw [hrec.ok.multi, hrec.ok.offset]
  refine h.record (.inl hst) hl rfl rfl (fun v hd => ?_)
    ⟨hrec.grows hl.2.1 hrec.live, hdone, fun j x hj => absurd hj (Nat.not_lt_zero _)⟩
  have hv : v ≠ c.vid := by
    rintro rfl
    exact absurd (hdone.symm.trans hd) (by simp)
  change Function.update s.logs.offsetDone c.vid true v = false at hd
  rw [Function.update_of_ne hv] at hd
  exact ⟨hd, fun _ => hv.symm⟩

theorem Inv.recordMemberStep {i : Nat} {xid : TransactionId}
    (hst : (s.backend b).stage = .recordMember c i) (hi : c.xids[i]? = some xid) :
    Inv (recordMemberStep s b c i xid) := by
  obtain ⟨hrec, hoff, hwritten⟩ := h.stage_at hst
  have hxids : c.xids = (Made.mk c.start c.args).xids := hrec.ok.xids
  have hi' := hi
  rw [hxids] at hi'
  have hl := h.logs.writeMember hrec.made hrec.live hi'
  have hslot : uint32 (c.offset + i) = uint32 (c.start + i) := by
    rw [hrec.ok.offset, uint32_uint32_add]
  unfold MultiXact.recordMemberStep
  rw [hslot]
  refine h.record (.inr ⟨i, hst⟩) hl rfl rfl (fun v hd => ⟨hd, fun hc => ?_⟩)
    ⟨hrec.grows hl.2.1 hrec.live, hoff, fun j x hj hx => ?_⟩
  · rw [hst] at hc
    cases hc
  rcases Nat.lt_or_ge j i with hlt | hge
  · have hx' := hx
    rw [hxids] at hx'
    exact hl.2.1.member _ _ hrec.made hrec.live j x hx' (hwritten j x hlt hx)
  obtain rfl : j = i := by omega
  rw [hi] at hx
  cases hx
  exact Function.update_self ..

/-- A set goes to the cache of the backend that created it or read it. -/
theorem Inv.cachePut {xids : List TransactionId}
    (hfrom : (s.backend b).stage.locking = false) (hmulti : multi = uint32 vid)
    (hm : s.logs.made vid = some m) (hlive : s.logs.oldest ≤ vid) (hx : xids = m.xids) :
    Inv (s.cachePut b multi xids vid) := by
  refine h.setBackend (h.stage b) hfrom (fun _ hc => hc) (fun e he => ?_) h.answers
  rcases mem_cons.1 he with rfl | he
  · refine ⟨hmulti, hlive, m, hm, ?_⟩
    rw [hx]
    exact sortXids_sortXids m.args
  · exact h.cache b e he

theorem Inv.endCreate {i : Nat} (hst : (s.backend b).stage = .recordMember c i)
    (hi : c.xids[i]? = none) : Inv (endCreate s b c) := by
  obtain ⟨hrec, hoff, hwritten⟩ := h.stage_at hst
  have hall : ∀ j x, (Made.mk c.start c.args).xids[j]? = some x →
      s.logs.members (uint32 (c.start + j)) = x := by
    intro j x hx
    have hx' : c.xids[j]? = some x := hrec.ok.xids ▸ hx
    refine hwritten j x ?_ hx'
    obtain ⟨hlt, -⟩ := List.getElem?_eq_some_iff.1 hx'
    exact lt_of_lt_of_le hlt (List.getElem?_eq_none_iff.1 hi)
  have hl := h.logs.finish hrec.made hoff hall
  have hidle : Inv { s.setStage b .idle with logs := s.logs.finish c.vid } := by
    refine h.record (.inr ⟨i, hst⟩) hl rfl rfl (fun v hd => ⟨hd, fun hc => ?_⟩) trivial
    rw [hst] at hc
    cases hc
  have hstage : ({ s.setStage b .idle with logs := s.logs.finish c.vid }.backend b).stage
      = .idle := by
    change (Function.update s.backend b _ b).stage = .idle
    rw [Function.update_self]
  refine hidle.cachePut ?_ hrec.ok.multi hrec.made hrec.live hrec.ok.xids
  rw [hstage]
  rfl

end

/-! ### Reading -/

variable {ptr : List TransactionId} {length : Int} {nextMXact nextOffset : Nat}

/-- Where a backend neither has the lock nor an offset to record. -/
abbrev Stage.Free (stage : Stage) : Prop :=
  stage.locking = false ∧ ∀ c, stage ≠ .recordOffset c

theorem Inv.setStage (h : Inv s) {stage : Stage} (hfree : (s.backend b).stage.Free)
    (hstage : StageInv s.logs s.nextMXact s.multiXactGenLock b stage) : Inv (s.setStage b stage) :=
  h.setBackend hstage hfree.1 (fun c hc => absurd hc (hfree.2 c)) (h.cache b) h.answers

theorem Inv.answer (h : Inv s) {result : Option (List TransactionId)}
    (hfree : (s.backend b).stage.Free)
    (hok : Answer.Ok s.logs ⟨vid, (s.backend b).oldestVisibleMXactId, result⟩) :
    Inv (s.answer b vid result) := by
  refine h.setBackend trivial hfree.1 (fun c hc => absurd hc (hfree.2 c)) (h.cache b) fun a ha => ?_
  rcases mem_cons.1 ha with rfl | ha
  · exact hok
  · exact h.answers a ha

omit [DecidableEq B] in
/-- What a reader learns from the counters. -/
theorem Inv.limits (h : Inv s) (hr : Ready s.logs multi vid) (hlock : s.multiXactGenLock = none) :
    multiXactIdPrecedes multi s.nextMXact = true ∧ Limits s.logs s.nextMXact s.nextOffset vid := by
  obtain ⟨m, hm⟩ := hr.made h.logs
  have hlt := (h.logs.made vid m hm).1
  have hlive := hr.live
  have hwin := h.logs.window.1
  have hn := (h.free hlock).1
  refine ⟨?_, s.logs.vnext, s.logs.onext, hn, h.nextOffset, hlt, le_rfl, by omega, ?_, ?_⟩
  · rw [hr.multi, hn]
    exact precedes_of_lt hlt (by omega)
  · intro heq m' hm'
    rw [hm] at hm'
    cases hm'
    rcases h.logs.next vid m hm with ⟨-, hstop⟩ | ⟨hlt', -⟩
    · exact hstop
    · have := le_skipZero (vid + 1)
      omega
  intro hne
  rcases h.logs.next vid m hm with ⟨heq, -⟩ | ⟨hlt', -⟩
  · exact absurd heq hne
  · exact hlt'

theorem Inv.readLimitsStep (h : Inv s) (hst : (s.backend b).stage = .readLimits multi vid)
    (hlock : s.multiXactGenLock = none) : Inv (readLimitsStep s b multi vid) := by
  have hr := h.stage b
  rw [hst] at hr
  obtain ⟨hprec, hlim⟩ := h.limits hr hlock
  unfold MultiXact.readLimitsStep
  rw [hprec]
  refine h.setStage (by rw [hst]; exact ⟨rfl, by simp⟩) ⟨hr, hlim⟩

theorem Inv.readOffsetStep (h : Inv s)
    (hst : (s.backend b).stage = .readOffset multi nextMXact nextOffset vid) :
    Inv (s.setStage b (.readNextOffset multi nextMXact nextOffset (s.logs.offsets multi) vid)) := by
  obtain ⟨hr, hlim⟩ := h.stage_at hst
  refine h.setStage (by rw [hst]; exact ⟨rfl, by simp⟩) ⟨hr, hlim, fun m hm => ?_⟩
  rw [hr.multi, h.logs.offset vid m hm hr.live, (h.logs.done vid).1 hr.done, if_pos rfl]

/-- The first slot a reader looks at, and the last. -/
theorem reading_start {e : Nat} (h : LogsInv l) (hm : l.made vid = some m) (hlive : l.oldest ≤ vid)
    (he : e = m.stop ∨ (e = m.stop + 1 ∧ uint32 m.stop = 0 ∧ m.stop < l.onext)) :
    Reading l m (uint32 m.start) (int32 (uint32Sub (uint32 e) (uint32 m.start))) [] := by
  obtain ⟨-, -, -, hstop, -⟩ := h.made vid m hm
  have hlow := h.live vid m hm hlive
  have hwin := h.window.2
  have hle : m.start ≤ m.stop := Nat.le_add_right _ _
  refine ⟨m.start, e, le_rfl, by omega, he, rfl, int32_uint32Sub (by omega) (by omega), ?_⟩
  rw [Nat.sub_self, take_zero]

theorem Inv.readNextOffsetStep (h : Inv s)
    (hst : (s.backend b).stage = .readNextOffset multi nextMXact nextOffset offset vid) :
    Inv (readNextOffsetStep s b multi nextMXact nextOffset offset vid) := by
  obtain ⟨hr, hlim, hoff⟩ := h.stage_at hst
  obtain ⟨m, hm⟩ := hr.made h.logs
  have hfree : (s.backend b).stage.Free := by rw [hst]; exact ⟨rfl, by simp⟩
  have honly : ∀ m', s.logs.made vid = some m' → m' = m := fun m' hm' =>
    some.inj (hm'.symm.trans hm)
  have htmp : uint32 (multi + 1) = uint32 (vid + 1) := by rw [hr.multi, uint32_uint32_add]
  have hoff' := hoff m hm
  unfold MultiXact.readNextOffsetStep
  dsimp only
  rw [htmp]
  by_cases hlast : nextMXact = uint32 (vid + 1)
  · -- the newest set when the counters were read
    obtain ⟨vn, on, hn, ho, hlt, -, hhalf, hstop, -⟩ := hlim
    rw [if_pos hlast]
    have hvn : vn = vid + 1 := uint32_inj (hn.symm.trans hlast) (by omega) (by omega)
    refine h.setStage hfree ⟨hr, fun m' hm' => ?_⟩
    rw [honly m' hm', ho, hoff', hstop hvn m hm]
    exact reading_start h.logs hm hr.live (.inl rfl)
  rw [if_neg hlast]
  rw [ite_first_eq]
  split_ifs with hz
  · exact h.setStage hfree ⟨hr, hlim⟩
  obtain ⟨vn, on, hn, -, hlt, hle, hhalf, -, hnext⟩ := hlim
  have hnext := hnext fun hvn => hlast (by rw [hn, hvn])
  refine h.setStage hfree ⟨hr, fun m' hm' => ?_⟩
  rw [honly m' hm', hoff']
  rcases h.logs.next vid m hm with ⟨heq, -⟩ | ⟨-, m₂, hm₂, hstart⟩
  · have := le_skipZero (vid + 1)
    omega
  have hlive₂ : s.logs.oldest ≤ skipZero (vid + 1) :=
    le_trans hr.live (le_trans (Nat.le_succ _) (le_skipZero _))
  have hword := h.logs.offset _ m₂ hm₂ hlive₂
  have hdone : s.logs.offsetDone (skipZero (vid + 1)) = true := by
    refine Bool.eq_true_of_not_eq_false fun hd => hz ?_
    rw [hword, hd, if_neg Bool.false_ne_true]
  rw [hword, hdone, hstart]
  refine reading_start h.logs hm hr.live ?_
  by_cases hgap : uint32 m.stop = 0
  · rw [skipZero_of_eq hgap]
    obtain ⟨-, -, -, hstop₂, -⟩ := h.logs.made _ m₂ hm₂
    have hle₂ : m₂.start ≤ m₂.stop := Nat.le_add_right _ _
    rw [hstart, skipZero_of_eq hgap] at hle₂
    exact .inr ⟨rfl, hgap, by omega⟩
  · exact .inl (skipZero_of_ne hgap)

/-- One member is read, or the empty slot is passed over. -/
theorem Reading.next (h : Reading l m offset length ptr) (hl : LogsInv l)
    (hm : l.made vid = some m) (hlive : l.oldest ≤ vid) (hdone : l.membersDone vid = true)
    (hpos : 0 < length) :
    Reading l m (uint32 (offset + 1)) (length - 1)
      (if !transactionIdIsValid (l.members offset) then ptr else ptr ++ [l.members offset]) := by
  obtain ⟨p, e, hsp, hpe, he, rfl, rfl, rfl⟩ := h
  refine ⟨p + 1, e, by omega, by omega, he, uint32_uint32_add p 1, by push_cast; omega, ?_⟩
  have hindex : p + 1 - m.start = p - m.start + 1 := by omega
  rw [hindex]
  by_cases hlt : p < m.stop
  · have hj : p - m.start < m.xids.length := by
      unfold Made.stop at hlt
      omega
    have hget := getElem?_eq_getElem hj
    have hslot := hl.member vid m hm hlive hdone _ _ hget
    rw [Nat.add_sub_cancel' hsp] at hslot
    have hvalid : transactionIdIsValid m.xids[p - m.start] = true :=
      (hl.made vid m hm).2.2.2.2 _ ((sortXids_perm m.args).mem_iff.1 (getElem_mem hj))
    rw [hslot, hvalid]
    exact take_append_getElem hj
  rcases he with he | ⟨he, hgap, hn⟩
  · omega
  -- the slot that was left out
  obtain rfl : p = m.stop := by omega
  rw [hgap, hl.gap vid m hm hlive hgap hn, if_pos (by decide)]
  have hlen : m.xids.length ≤ m.stop - m.start := by
    unfold Made.stop
    omega
  rw [take_of_length_le hlen, take_of_length_le (Nat.le_succ_of_le hlen)]

theorem Reading.all (h : Reading l m offset length ptr) (hend : ¬ 0 < length) : ptr = m.xids := by
  obtain ⟨p, e, hsp, hpe, he, -, rfl, rfl⟩ := h
  refine take_of_length_le ?_
  have hstop : m.stop = m.start + m.xids.length := rfl
  rcases he with he | ⟨he, -⟩ <;> omega

theorem Inv.readMemberStep (h : Inv s)
    (hst : (s.backend b).stage = .readMember multi offset length ptr vid) :
    Inv (readMemberStep s b multi offset length ptr vid) := by
  obtain ⟨hr, hread⟩ := h.stage_at hst
  obtain ⟨m, hm⟩ := hr.made h.logs
  have hfree : (s.backend b).stage.Free := by rw [hst]; exact ⟨rfl, by simp⟩
  unfold MultiXact.readMemberStep
  split_ifs with hpos
  · refine h.setStage hfree ⟨hr, fun m' hm' => ?_⟩
    exact (hread m' hm').next h.logs hm' hr.live hr.done hpos
  have hall := (hread m hm).all hpos
  have hput := h.cachePut hfree.1 hr.multi hm hr.live hall
  have hsame : ((s.cachePut b multi ptr vid).backend b).stage = (s.backend b).stage := by
    change (Function.update s.backend b _ b).stage = _
    rw [Function.update_self]
  refine hput.answer (by rw [hsame]; exact hfree) ⟨m, hm, .inl ?_⟩
  rw [hall]

/-! ### Every step -/

variable {s' : State B}

theorem inv_go (h : Inv s) (hgo : go s b = some s') : Inv s' := by
  unfold go at hgo
  split at hgo
  · cases hgo
  · rename_i args hst
    cases hgo
    exact h.extendOffsetStep hst
  · rename_i c offset nmembers nxids hst
    cases hgo
    split_ifs with hpos
    · exact h.extendMemberStep hst hpos
    · exact h.endReserve hst hpos
  · rename_i c hst
    cases hgo
    exact h.recordOffsetStep hst
  · rename_i c i hst
    split at hgo
    · rename_i xid hi
      cases hgo
      exact h.recordMemberStep hst hi
    rename_i hi
    cases hgo
    exact h.endCreate hst hi
  · rename_i multi vid hst
    split at hgo
    · cases hgo
    rename_i hlock
    cases hgo
    exact h.readLimitsStep hst (not_isSome_iff_eq_none.1 hlock)
  · rename_i multi nextMXact nextOffset vid hst
    cases hgo
    exact h.readOffsetStep hst
  · rename_i multi nextMXact nextOffset offset vid hst
    cases hgo
    exact h.readNextOffsetStep hst
  rename_i multi offset length ptr vid hst
  cases hgo
  exact h.readMemberStep hst

theorem inv_create (h : Inv s) (hcreate : create s b args = some s') : Inv s' := by
  unfold create at hcreate
  split at hcreate
  · cases hcreate
  rename_i hguard
  rw [not_or, not_not, Bool.not_eq_true, Bool.not_eq_false', List.all_eq_true] at hguard
  split at hcreate
  · exact some.inj hcreate ▸ h
  split at hcreate
  · cases hcreate
  rename_i hlock
  split at hcreate
  · cases hcreate
  rename_i hroom
  rw [not_or, not_le, not_le] at hroom
  cases hcreate
  refine h.beginCreate hguard.1 (not_isSome_iff_eq_none.1 hlock) ⟨hguard.2, hroom.1, ?_⟩
  rw [length_sortXids]
  exact hroom.2

theorem inv_ask (h : Inv s) (hask : ask s b vid = some s') : Inv s' := by
  unfold ask at hask
  split at hask
  · cases hask
  rename_i hguard
  rw [not_or, not_not, not_lt] at hguard
  obtain ⟨hidle, hlive⟩ := hguard
  have hfree : (s.backend b).stage.Free := by rw [hidle]; exact ⟨rfl, by simp⟩
  split at hask
  · cases hask
  rename_i hdone
  have hr : Ready s.logs (uint32 vid) vid := ⟨rfl, hlive, by simpa using hdone⟩
  obtain ⟨m, hm⟩ := hr.made h.logs
  split at hask
  · rename_i entry hentry
    cases hask
    have hok := h.cache b entry (mem_of_find?_eq_some hentry)
    have hword : entry.multi = uint32 vid := by
      have hfound := find?_some hentry
      exact of_decide_eq_true hfound
    obtain ⟨m', hm', hx⟩ := hok.made
    -- two live ids with the same word are the same id
    have hvid : entry.vid = vid := h.logs.word_inj (h.logs.made _ m' hm').1 hok.live
      (h.logs.made vid m hm).1 hlive (hok.multi.symm.trans hword)
    refine h.answer hfree ⟨m, hm, .inl ?_⟩
    rw [hvid, hm] at hm'
    rw [hx, ← some.inj hm']
  split at hask
  · rename_i hprec
    cases hask
    exact h.answer hfree ⟨m, hm, .inr hprec⟩
  · cases hask
    exact h.setStage hfree hr

omit [DecidableEq B] in
/-- The oldest live id moves on to one that nobody's memory is before. -/
theorem Inv.retire (h : Inv s) {oldest oldestStart : Nat} (hle : s.logs.oldest ≤ oldest)
    (hunused : Unused s oldest)
    (hto : (oldest = s.logs.vnext ∧ oldestStart = s.logs.onext) ∨
      ∃ m, s.logs.made oldest = some m ∧ oldestStart = m.start) :
    Inv { s with logs := s.logs.retire oldest oldestStart } := by
  obtain ⟨hl, hk⟩ := h.logs.retire hle hto
  have hg : Grows s.logs (s.logs.retire oldest oldestStart) :=
    ⟨fun _ _ => id, fun _ => id, fun _ => id, le_rfl, le_rfl, fun _ _ _ _ _ _ _ => id⟩
  refine ⟨hl, h.nextOffset, fun hf => ⟨(h.free hf).1, (h.free hf).2.keeps hk⟩, fun q => ?_,
    h.locked, h.creating, fun q e he => ?_, fun a ha => (h.answers a ha).grows hg⟩
  · exact (h.stage q).mono h.logs hg (hunused q).1 fun _ => ⟨hk, rfl, rfl⟩
  · exact (h.cache q e he).grows hg ((hunused q).2 e he)

theorem inv_step [Fintype B] {e : Event B} (h : Inv s) (hst : step s e = some s') : Inv s' := by
  cases e with
  | create b args => exact inv_create h hst
  | ask b vid => exact inv_ask h hst
  | go b => exact inv_go h hst
  | setOldestVisible b multi | endTransaction b =>
    simp only [step] at hst
    split at hst
    · cases hst
    rename_i hidle
    rw [not_not] at hidle
    cases hst
    refine h.setBackend (h.stage b) (by rw [hidle]; rfl) (fun _ hc => hc) ?_ h.answers
    first
    | exact h.cache b
    | exact fun e he => absurd he not_mem_nil
  | retire oldest =>
    simp only [step, retire] at hst
    split at hst
    · cases hst
    rename_i hguard
    rw [not_or, not_not, not_lt] at hguard
    split at hst
    · rename_i hnew
      cases hst
      exact h.retire hguard.1 hguard.2 (.inl ⟨hnew, rfl⟩)
    split at hst
    · cases hst
    rename_i m hm
    cases hst
    exact h.retire hguard.1 hguard.2 (.inr ⟨m, hm, rfl⟩)

theorem inv_of_exec [Fintype B] {es : List (Event B)} (h : Inv s)
    (hrun : Run.exec step s es = some s') : Inv s' := by
  induction es generalizing s with
  | nil => exact some.inj hrun ▸ h
  | cons e es ih =>
    obtain ⟨s₁, hst, hrun⟩ := Run.exists_of_exec_cons hrun
    exact ih (inv_step h hst) hrun

end PrlPg.MultiXact
