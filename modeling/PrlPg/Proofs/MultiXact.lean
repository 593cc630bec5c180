/-
`GetMultiXactIdMembers` returns the set the id was created with.

`StageInv` says what a backend knows at each place it can be in: the one that holds
`MultiXactGenLock` knows the words ahead are zero, a creator that records knows how much it has
written, and a reader knows where its set stops, or one slot further if that slot is the one that
was left out.  `Inv.update` reduces every step to what it does to the logs (`Grows`, `Keeps`) and
to the stage of the backend that took it.
-/
import PrlPg.Proofs.MultiXactLogs

namespace PrlPg.MultiXact

open Mvcc Option Bool

/-! ### What a backend knows -/

/-- There is room for one more set. -/
structure CanReserve (l : Logs) (args : List TransactionId) : Prop where
  valid : ∀ x ∈ args, transactionIdIsValid x = true
  id : skipZero l.vnext < l.oldest + 2147483648
  slots : skipZero l.onext + (sortXids args).length < l.oldestStart + 2147483648

/-- The words of a creation are those of its unwrapped id and offset. -/
structure Creation.Ok (c : Creation) : Prop where
  multi : c.multi = uint32 c.vid
  offset : c.offset = uint32 c.start
  xids : c.xids = sortXids c.args

/-- The loop of `ExtendMultiXactMember` has come to the slot `p`. -/
structure Extending (l : Logs) (c : Creation) (offset : Nat) (nmembers : Int) (nxids p : Nat) :
    Prop where
  vid : c.vid = skipZero l.vnext
  start : c.start = skipZero l.onext
  fresh : Fresh l c.vid
  stop : l.onext + nxids = c.start + c.xids.length
  le : l.onext ≤ p
  word : offset = uint32 p
  left : nmembers = (l.onext + nxids : Int) - p
  page : p = l.onext ∨ p % 2048 = 0
  zero : p ≠ l.onext → uint32 l.onext = 0 → l.members 0 = 0#32

structure Recording (l : Logs) (c : Creation) : Prop where
  ok : c.Ok
  made : l.made c.vid = some ⟨c.start, c.args⟩
  live : l.oldest ≤ c.vid

/-- The set can be read. -/
structure Ready (l : Logs) (multi vid : Nat) : Prop where
  multi : multi = uint32 vid
  live : l.oldest ≤ vid
  done : l.membersDone vid = true

/-- The counters a reader has seen, and whether there was a next set then. -/
def Limits (l : Logs) (nextMXact nextOffset vid : Nat) : Prop :=
  ∃ vn on, nextMXact = uint32 vn ∧ nextOffset = uint32 on ∧ vid < vn ∧ vn ≤ l.vnext ∧
    vn ≤ vid + 2147483648 ∧
    (vn = vid + 1 → ∀ m, l.made vid = some m → on = m.stop) ∧
    (vn ≠ vid + 1 → skipZero (vid + 1) < vn)

/-- A reader has come to the slot `p` and will stop at `e`. -/
def Reading (l : Logs) (m : Made) (offset : Nat) (length : Int) (ptr : List TransactionId) : Prop :=
  ∃ p e, m.start ≤ p ∧ p ≤ e ∧
    (e = m.stop ∨ (e = m.stop + 1 ∧ uint32 m.stop = 0 ∧ m.stop < l.onext)) ∧
    offset = uint32 p ∧ length = (e : Int) - p ∧ ptr = m.xids.take (p - m.start)

section Stages

variable {B : Type}

def Stage.locking : Stage → Bool
  | extendOffset _ => true
  | extendMember _ _ _ _ => true
  | _ => false

def StageInv (l : Logs) (nextMXact : Nat) (lock : Option B) (b : B) : Stage → Prop
  | .idle => True
  | .extendOffset args => lock = some b ∧ nextMXact = uint32 (skipZero l.vnext) ∧
      CanReserve l args ∧ Rest l
  | .extendMember c offset nmembers nxids => lock = some b ∧
      nextMXact = uint32 (skipZero l.vnext) ∧ CanReserve l c.args ∧ c.Ok ∧
      ∃ p, Extending l c offset nmembers nxids p
  | .recordOffset c => Recording l c
  | .recordMember c i => Recording l c ∧ l.offsetDone c.vid = true ∧
      ∀ j x, j < i → c.xids[j]? = some x → l.members (uint32 (c.start + j)) = x
  | .readLimits multi vid => Ready l multi vid
  | .readOffset multi nextMXact nextOffset vid => Ready l multi vid ∧
      Limits l nextMXact nextOffset vid
  | .readNextOffset multi nextMXact nextOffset offset vid => Ready l multi vid ∧
      Limits l nextMXact nextOffset vid ∧ ∀ m, l.made vid = some m → offset = uint32 m.start
  | .readMember multi offset length ptr vid => Ready l multi vid ∧
      ∀ m, l.made vid = some m → Reading l m offset length ptr

/-! ### Steps of the others -/

variable {l l' : Logs} {multi vid : Nat} {c : Creation}

theorem CanReserve.keeps {args : List TransactionId} (h : CanReserve l args) (hk : Keeps l l') :
    CanReserve l' args := by
  refine ⟨h.valid, ?_, ?_⟩
  · rw [hk.vnext]
    exact lt_of_lt_of_le h.id (Nat.add_le_add_right hk.oldest _)
  · rw [hk.onext]
    exact lt_of_lt_of_le h.slots (Nat.add_le_add_right hk.oldestStart _)

theorem Rest.keeps (h : Rest l) (hk : Keeps l l') : Rest l' := by
  intro h1 w hw hpage
  rw [hk.vnext] at h1 hw hpage
  exact hk.offsets w hw (by omega) (h h1 w hw hpage)

theorem Fresh.keeps (h : Fresh l (skipZero l.vnext)) (hk : Keeps l l') :
    Fresh l' (skipZero l.vnext) := by
  intro w hw hpage
  have hle := le_skipZero l.vnext
  have hle' := skipZero_le l.vnext
  exact hk.offsets w (by omega) (by omega) (h w hw hpage)

theorem Extending.keeps {offset nxids p : Nat} {nmembers : Int}
    (h : Extending l c offset nmembers nxids p) (hk : Keeps l l') :
    Extending l' c offset nmembers nxids p := by
  have hfresh := h.fresh
  rw [h.vid] at hfresh
  have hfresh' := hfresh.keeps hk
  rw [← h.vid] at hfresh'
  refine ⟨?_, ?_, hfresh', ?_, ?_, h.word, ?_, ?_, ?_⟩
  · rw [hk.vnext]
    exact h.vid
  · rw [hk.onext]
    exact h.start
  · rw [hk.onext]
    exact h.stop
  · rw [hk.onext]
    exact h.le
  · rw [hk.onext]
    exact h.left
  · rw [hk.onext]
    exact h.page
  · rw [hk.onext]
    exact fun hp h0 => hk.members h0 (h.zero hp h0)

theorem Recording.grows (h : Recording l c) (hg : Grows l l')
    (hlive : l'.oldest ≤ c.vid) : Recording l' c := ⟨h.ok, hg.made _ _ h.made, hlive⟩

theorem Ready.grows (h : Ready l multi vid) (hg : Grows l l')
    (hlive : l'.oldest ≤ vid) : Ready l' multi vid := ⟨h.multi, hlive, hg.membersDone _ h.done⟩

theorem Ready.made (h : Ready l multi vid) (hl : LogsInv l) :
    ∃ m, l.made vid = some m :=
  isSome_iff_exists.1 ((hl.done vid).2 ((hl.done vid).1 h.done))

theorem Limits.grows {nextMXact nextOffset multi vid : Nat} (h : Limits l nextMXact nextOffset vid)
    (hg : Grows l l') (hl : LogsInv l) (hr : Ready l multi vid) :
    Limits l' nextMXact nextOffset vid := by
  obtain ⟨vn, on, hn, ho, hlt, hle, hhalf, hstop, hnext⟩ := h
  refine ⟨vn, on, hn, ho, hlt, le_trans hle hg.vnext, hhalf, fun heq m hm => ?_, hnext⟩
  obtain ⟨m₀, hm₀⟩ := hr.made hl
  rw [hg.made _ _ hm₀] at hm
  exact some.inj hm ▸ hstop heq m₀ hm₀

/-- What a backend knows stays true while the others take their steps. -/
theorem StageInv.mono {nextMXact nextMXact' : Nat} {lock lock' : Option B} {b : B} {stage : Stage}
    (h : StageInv l nextMXact lock b stage) (hl : LogsInv l) (hg : Grows l l')
    (hlive : ∀ v ∈ stage.vid?, l'.oldest ≤ v)
    (hlock : stage.locking = true → Keeps l l' ∧ nextMXact' = nextMXact ∧ lock' = lock) :
    StageInv l' nextMXact' lock' b stage := by
  cases stage with
  | idle => trivial
  | extendOffset args =>
    obtain ⟨hk, rfl, rfl⟩ := hlock rfl
    obtain ⟨hb, hn, hcan, hrest⟩ := h
    exact ⟨hb, by rw [hk.vnext]; exact hn, hcan.keeps hk, hrest.keeps hk⟩
  | extendMember c offset nmembers nxids =>
    obtain ⟨hk, rfl, rfl⟩ := hlock rfl
    obtain ⟨hb, hn, hcan, hok, p, hp⟩ := h
    exact ⟨hb, by rw [hk.vnext]; exact hn, hcan.keeps hk, hok, p, hp.keeps hk⟩
  | recordOffset c => exact Recording.grows h hg (hlive _ rfl)
  | recordMember c i =>
    obtain ⟨hrec, hoff, hwritten⟩ := h
    refine ⟨hrec.grows hg (hlive _ rfl), hg.offsetDone _ hoff, fun j x hj hx => ?_⟩
    rw [hrec.ok.xids] at hx
    refine hg.member _ _ hrec.made hrec.live j x hx ?_
    rw [← hrec.ok.xids] at hx
    exact hwritten j x hj hx
  | readLimits multi vid => exact Ready.grows h hg (hlive _ rfl)
  | readOffset multi nm no vid =>
    obtain ⟨hr, hlim⟩ := h
    exact ⟨hr.grows hg (hlive _ rfl), hlim.grows hg hl hr⟩
  | readNextOffset multi nm no offset vid =>
    obtain ⟨hr, hlim, hoff⟩ := h
    refine ⟨hr.grows hg (hlive _ rfl), hlim.grows hg hl hr, fun m hm => ?_⟩
    obtain ⟨m₀, hm₀⟩ := hr.made hl
    rw [hg.made _ _ hm₀] at hm
    exact some.inj hm ▸ hoff m₀ hm₀
  | readMember multi offset length ptr vid =>
    obtain ⟨hr, hread⟩ := h
    refine ⟨hr.grows hg (hlive _ rfl), fun m hm => ?_⟩
    obtain ⟨m₀, hm₀⟩ := hr.made hl
    rw [hg.made _ _ hm₀] at hm
    obtain rfl := some.inj hm
    obtain ⟨p, e, hsp, hpe, he, hoff, hlen, hptr⟩ := hread m₀ hm₀
    refine ⟨p, e, hsp, hpe, he.imp id ?_, hoff, hlen, hptr⟩
    rintro ⟨h1, h2, h3⟩
    exact ⟨h1, h2, lt_of_lt_of_le h3 hg.onext⟩

end Stages

/-! ### The invariant -/

structure CacheEntry.Ok (l : Logs) (e : CacheEntry) : Prop where
  multi : e.multi = uint32 e.vid
  live : l.oldest ≤ e.vid
  made : ∃ m, l.made e.vid = some m ∧ e.xids = m.xids

structure Answer.Ok (l : Logs) (a : Answer) : Prop where
  made : ∃ m, l.made a.vid = some m ∧ (a.result = some m.xids ∨
    multiXactIdPrecedes (uint32 a.vid) a.oldestVisibleMXactId = true)

variable {B : Type}

structure Inv (s : State B) : Prop where
  logs : LogsInv s.logs
  nextOffset : s.nextOffset = uint32 s.logs.onext
  free : s.multiXactGenLock = none → s.nextMXact = uint32 s.logs.vnext ∧ Rest s.logs
  stage : ∀ b, StageInv s.logs s.nextMXact s.multiXactGenLock b (s.backend b).stage
  locked : ∀ b, s.multiXactGenLock = some b → (s.backend b).stage.locking = true
  creating : ∀ v, (s.logs.made v).isSome = true → s.logs.offsetDone v = false →
    ∃ b c, (s.backend b).stage = .recordOffset c ∧ c.vid = v
  cache : ∀ b, ∀ e ∈ (s.backend b).cache, e.Ok s.logs
  answers : ∀ a ∈ s.answers, a.Ok s.logs

theorem Inv.stage_at {s : State B} (h : Inv s) {b : B} {st : Stage}
    (hst : (s.backend b).stage = st) : StageInv s.logs s.nextMXact s.multiXactGenLock b st :=
  hst ▸ h.stage b

theorem CacheEntry.Ok.grows {l l' : Logs} {e : CacheEntry} (h : e.Ok l) (hg : Grows l l')
    (hlive : l'.oldest ≤ e.vid) : e.Ok l' := by
  obtain ⟨m, hm, hx⟩ := h.made
  exact ⟨h.multi, hlive, m, hg.made _ _ hm, hx⟩

theorem Answer.Ok.grows {l l' : Logs} {a : Answer} (h : a.Ok l) (hg : Grows l l') : a.Ok l' := by
  obtain ⟨m, hm, hx⟩ := h.made
  exact ⟨m, hg.made _ _ hm, hx⟩

theorem inv_start {s : State B} (h : Start s) : Inv s := by
  have hnone : ∀ {v m} {P : Prop}, s.logs.made v = some m → P := fun {v m P} hm => by
    rw [h.made v] at hm
    cases hm
  refine ⟨⟨fun v m hm => hnone hm, fun v m _ _ hm => hnone hm, fun v m hm => hnone hm, ?_, ?_,
    fun v m hm => hnone hm, fun v => ?_, fun v m hm => hnone hm, fun v m hm => hnone hm,
    fun v m hm => hnone hm⟩, ?_, fun _ => ⟨?_, fun h1 => ?_⟩, fun b => ?_, fun b hb => ?_,
    fun v hv => ?_, fun b e he => ?_, fun a ha => ?_⟩
  · rw [h.oldest, h.vnext, h.oldestStart, h.onext]
    decide
  · rw [h.oldest, h.vnext, h.oldestStart, h.onext]
    decide
  · rw [h.membersDone, h.offsetDone]
    exact ⟨id, fun hf => absurd hf false_ne_true⟩
  · rw [h.nextOffset, h.onext]
    rfl
  · rw [h.nextMXact, h.vnext]
    rfl
  · rw [h.vnext] at h1
    cases h1 rfl
  · rw [h.stage b]
    trivial
  · rw [h.genLock] at hb
    cases hb
  · rw [h.made v] at hv
    cases hv
  · rw [h.cache b] at he
    cases he
  · rw [h.answers] at ha
    cases ha

variable [DecidableEq B] {s : State B} {b : B} {answers : List Answer} {bk : Backend}

/-- A step of one backend: what it does to the logs, to the counters and to its own memory. -/
theorem Inv.update (h : Inv s) {l : Logs} {nextMXact nextOffset : Nat} {lock : Option B}
    (hl : LogsInv l) (hg : Grows s.logs l)
    (hold : l.oldest = s.logs.oldest) (hno : nextOffset = uint32 l.onext)
    (hfree : lock = none → nextMXact = uint32 l.vnext ∧ Rest l)
    (hothers : ∀ q, q ≠ b → (s.backend q).stage.locking = true →
      Keeps s.logs l ∧ nextMXact = s.nextMXact ∧ lock = s.multiXactGenLock)
    (hstage : StageInv l nextMXact lock b bk.stage)
    (hlocked : (∀ q, q ≠ b → lock = some q → s.multiXactGenLock = some q) ∧
      (lock = some b → bk.stage.locking = true))
    (hcreating : ∀ v, (l.made v).isSome = true → l.offsetDone v = false →
      (∃ c, bk.stage = .recordOffset c ∧ c.vid = v) ∨
        ((s.logs.made v).isSome = true ∧ s.logs.offsetDone v = false ∧
          ∀ c, (s.backend b).stage = .recordOffset c → c.vid ≠ v))
    (hcache : ∀ e ∈ bk.cache, e.Ok l) (hanswers : ∀ a ∈ answers, a.Ok l) :
    Inv ⟨nextMXact, nextOffset, lock, l, Function.update s.backend b bk, answers⟩ := by
  have hlive : ∀ q, ∀ v ∈ (s.backend q).stage.vid?, l.oldest ≤ v := by
    intro q v hv
    rw [hold]
    have hq := h.stage q
    generalize (s.backend q).stage = st at hv hq
    cases st with
    | idle | extendOffset _ | extendMember _ _ _ _ => exact absurd hv (by simp [Stage.vid?])
    | recordOffset c | readLimits _ vid => exact some.inj hv ▸ hq.live
    | recordMember c i | readOffset _ _ _ vid | readNextOffset _ _ _ _ vid
    | readMember _ _ _ _ vid => exact some.inj hv ▸ hq.1.live
  have hself : Function.update s.backend b bk b = bk := Function.update_self _ _ _
  have hother : ∀ q, q ≠ b → Function.update s.backend b bk q = s.backend q := fun q hq =>
    Function.update_of_ne hq _ _
  refine ⟨hl, hno, hfree, fun q => ?_, fun q hq => ?_, fun v hm hd => ?_, fun q e he => ?_,
    hanswers⟩
  · change StageInv l nextMXact lock q (Function.update s.backend b bk q).stage
    by_cases hqb : q = b
    · rw [hqb, hself]
      exact hstage
    · rw [hother q hqb]
      exact (h.stage q).mono h.logs hg (hlive q) (hothers q hqb)
  · change (Function.update s.backend b bk q).stage.locking = true
    by_cases hqb : q = b
    · rw [hqb, hself]
      exact hlocked.2 (hqb ▸ hq)
    · rw [hother q hqb]
      exact h.locked q (hlocked.1 q hqb hq)
  · change ∃ q c, (Function.update s.backend b bk q).stage = .recordOffset c ∧ c.vid = v
    rcases hcreating v hm hd with ⟨c, hc, hv⟩ | ⟨hm', hd', hne⟩
    · exact ⟨b, c, by rw [hself]; exact hc, hv⟩
    obtain ⟨q, c, hc, hv⟩ := h.creating v hm' hd'
    have hqb : q ≠ b := by
      rintro rfl
      exact hne c hc hv
    exact ⟨q, c, by rw [hother q hqb]; exact hc, hv⟩
  change e ∈ (Function.update s.backend b bk q).cache at he
  by_cases hqb : q = b
  · rw [hqb, hself] at he
    exact hcache e he
  rw [hother q hqb] at he
  have hok := h.cache q e he
  exact hok.grows hg (hold ▸ hok.live)

/-- A backend that does not hold the lock changes its own memory only. -/
theorem Inv.setBackend (h : Inv s)
    (hstage : StageInv s.logs s.nextMXact s.multiXactGenLock b bk.stage)
    (hfrom : (s.backend b).stage.locking = false)
    (hrecord : ∀ c, (s.backend b).stage = .recordOffset c → bk.stage = .recordOffset c)
    (hcache : ∀ e ∈ bk.cache, e.Ok s.logs) (hanswers : ∀ a ∈ answers, a.Ok s.logs) :
    Inv { s with backend := Function.update s.backend b bk, answers := answers } := by
  refine h.update h.logs Grows.refl rfl h.nextOffset h.free
    (fun _ _ _ => ⟨Keeps.refl, rfl, rfl⟩) hstage ⟨fun _ _ => id, fun hb => ?_⟩
    (fun v hm hd => ?_) hcache hanswers
  · rw [h.locked b hb] at hfrom
    cases hfrom
  by_cases hb : ∃ c, (s.backend b).stage = .recordOffset c ∧ c.vid = v
  · obtain ⟨c, hc, hv⟩ := hb
    exact .inl ⟨c, hrecord c hc, hv⟩
  · exact .inr ⟨hm, hd, fun c hc hv => hb ⟨c, hc, hv⟩⟩

end PrlPg.MultiXact
