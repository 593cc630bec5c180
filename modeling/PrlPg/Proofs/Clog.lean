/-
A transaction tree commits at one instant.

The instant is the step that marks the page of the top-level transaction.  Before it no member of
the tree has the committed status, so no chain of reads ends in it.  After it the top-level
transaction is committed and every other member is either committed or sub-committed, so a chain
of reads climbs until it ends in a committed one.  `Before` and `After` say this of the pages and
of the calls still to be made; what the readers hold follows from it.
-/
import PrlPg.Access.Clog
import Mathlib.Data.List.SplitBy

namespace PrlPg.CommitLog

open Function List Mvcc Option Run Bool

/-! ### Two bits in a byte -/

variable {x : TransactionId} {y : TransactionId}

theorem mask_getLsbD (i : Nat) : (0x03#8).getLsbD i = decide (i < 2) := by
  rw [BitVec.getLsbD_ofNat, show 3 = 2 ^ 2 - 1 from rfl, Nat.testBit_two_pow_sub_one]
  by_cases h : i < 2
  · rw [decide_eq_true (lt_trans h (by decide)), Bool.true_and]
  · rw [decide_eq_false h, Bool.and_false]

theorem and_mask_getLsbD (x : BitVec 8) {i : Nat} (hi : ¬ i < 2) :
    (x &&& 0x03#8).getLsbD i = false := by
  rw [BitVec.getLsbD_and, mask_getLsbD, decide_eq_false hi, Bool.and_false]

theorem bits_and_mask (status : XidStatus) : status.bits &&& 0x03#8 = status.bits := by
  cases status <;> rfl

theorem bits_getLsbD (status : XidStatus) {i : Nat} (hi : ¬ i < 2) :
    status.bits.getLsbD i = false := by
  rw [← bits_and_mask, and_mask_getLsbD _ hi]

theorem ofBits_bits (status : XidStatus) : XidStatus.ofBits status.bits = status := by
  cases status <;> rfl

section

variable {b : Nat} (byteval : BitVec 8) (a : Nat) (hb : b < 4) (status : XidStatus)
include byteval a hb status

theorem setBits_and_mask : (setBits byteval a status >>> (b * 2)) &&& 0x03#8
      = if a = b then status.bits else (byteval >>> (b * 2)) &&& 0x03#8 := by
  apply BitVec.eq_of_getLsbD_eq
  intro i _
  by_cases hi : i < 2
  · have hin : b * 2 + i < 8 := by omega
    simp only [setBits, BitVec.getLsbD_and, BitVec.getLsbD_ushiftRight, BitVec.getLsbD_or,
      BitVec.getLsbD_not, BitVec.getLsbD_shiftLeft, mask_getLsbD, hi, hin, decide_true,
      Bool.true_and, Bool.and_true]
    -- bit `b * 2 + i` is one of the two bits at `a * 2` only for `a = b`
    rcases Nat.lt_trichotomy a b with hab | rfl | hab
    · have hout : ¬ b * 2 + i - a * 2 < 2 := by omega
      simp [hout, bits_getLsbD, mask_getLsbD, hi, Nat.ne_of_lt hab]
    · have hfrom : ¬ a * 2 + i < a * 2 := by omega
      simp [hfrom, hi]
    · have hlow : b * 2 + i < a * 2 := by omega
      simp [hlow, mask_getLsbD, hi, Nat.ne_of_gt hab]
  rw [and_mask_getLsbD _ hi]
  split
  · rw [bits_getLsbD _ hi]
  · rw [and_mask_getLsbD _ hi]

theorem getBits_setBits :
    getBits (setBits byteval a status) b = if a = b then status else getBits byteval b := by
  unfold getBits
  rw [setBits_and_mask byteval a hb, apply_ite XidStatus.ofBits, ofBits_bits]

end

theorem transactionIdToBIndex_lt (x : TransactionId) : transactionIdToBIndex x < 4 :=
  Nat.mod_lt _ (by decide)

theorem eq_of_place (hp : transactionIdToPage x = transactionIdToPage y)
    (hb : transactionIdToByte x = transactionIdToByte y)
    (hi : transactionIdToBIndex x = transactionIdToBIndex y) : x = y := by
  unfold transactionIdToPage clogXactsPerPage at hp
  unfold transactionIdToByte clogXactsPerPage clogXactsPerByte at hb
  unfold transactionIdToBIndex clogXactsPerByte at hi
  apply BitVec.eq_of_toNat_eq
  omega

theorem getStatus_setStatusBit (pages : Pages) (x y : TransactionId) (status : XidStatus) :
    transactionIdGetStatus (transactionIdSetStatusBit pages x status) y
      = if y = x then status else transactionIdGetStatus pages y := by
  unfold transactionIdGetStatus transactionIdSetStatusBit
  by_cases hplace : transactionIdToPage y = transactionIdToPage x
      ∧ transactionIdToByte y = transactionIdToByte x
  · rw [if_pos hplace, getBits_setBits _ _ (transactionIdToBIndex_lt y)]
    by_cases hyx : y = x
    · rw [if_pos hyx, hyx, if_pos rfl]
    · rw [if_neg hyx, if_neg fun hi => hyx (eq_of_place hplace.1 hplace.2 hi.symm)]
  rw [if_neg hplace, if_neg]
  intro hyx
  exact hplace ⟨congrArg _ hyx, congrArg _ hyx⟩

theorem getStatus_setStatusBits (status : XidStatus) (y : TransactionId) :
    ∀ (xids : List TransactionId) (pages : Pages),
      transactionIdGetStatus (setStatusBits pages xids status) y
        = if y ∈ xids then status else transactionIdGetStatus pages y := by
  intro xids
  induction xids with
  | nil => intro pages; rfl
  | cons x xids ih =>
    intro pages
    have hcons : setStatusBits pages (x :: xids) status
        = setStatusBits (transactionIdSetStatusBit pages x status) xids status := rfl
    rw [hcons, ih, getStatus_setStatusBit]
    split
    next hmem => rw [if_pos (mem_cons_of_mem _ hmem)]
    next hmem =>
      split
      next hyx => rw [if_pos (mem_cons.2 (.inl hyx))]
      next hyx => rw [if_neg fun h => (mem_cons.1 h).elim hyx hmem]

/-- What one call of `TransactionIdSetPageStatus` leaves behind, whatever it did in between. -/
theorem getStatus_setPageStatus (pages : Pages) (u : PageUpdate) (y : TransactionId) :
    transactionIdGetStatus (transactionIdSetPageStatus pages u) y
      = if y ∈ u.subxids ∨ (transactionIdIsValid u.xid = true ∧ y = u.xid) then u.status
        else transactionIdGetStatus pages y := by
  unfold transactionIdSetPageStatus
  rw [getStatus_setStatusBits]
  split
  next hsub => rw [if_pos (.inl hsub)]
  next hsub =>
    split
    next hvalid =>
      rw [getStatus_setStatusBit]
      split
      next hy => rw [if_pos (.inr ⟨hvalid, hy⟩)]
      next hy =>
        have hnot : ¬ (y ∈ u.subxids ∨ (transactionIdIsValid u.xid = true ∧ y = u.xid)) :=
          fun h => h.elim hsub fun h => hy h.2
        rw [if_neg hnot]
        by_cases hcommit : u.status = .committed
        · rw [if_pos hcommit, getStatus_setStatusBits, if_neg hsub]
        · rw [if_neg hcommit]
    next hvalid => rw [if_neg fun h => h.elim hsub fun h => hvalid h.1]

/-! ### The calls that mark a tree -/

variable {t : Tree}
variable {pages : Pages} {todo us : List PageUpdate} {u : PageUpdate} {status : XidStatus}
  {xs : List TransactionId} {pages' : Pages}

theorem valid_of_member (hx : x ∈ t.members) : transactionIdIsValid x = true := by
  refine bne_iff_ne.2 fun h0 => ?_
  have hn := t.normal x hx
  rw [h0] at hn
  cases hn

/-- A call that gives subtransactions of the tree this status, and nothing else. -/
structure SubUpdate (t : Tree) (status : XidStatus) (u : PageUpdate) : Prop where
  xid : u.xid = invalidTransactionId
  subset : ∀ x ∈ u.subxids, x ∈ t.subs
  status : u.status = status

theorem SubUpdate.getStatus (hu : SubUpdate t status u) (pages : Pages) (y : TransactionId) :
    transactionIdGetStatus (transactionIdSetPageStatus pages u) y
      = if y ∈ u.subxids then status else transactionIdGetStatus pages y := by
  rw [getStatus_setPageStatus, hu.xid, hu.status]
  by_cases hy : y ∈ u.subxids
  · rw [if_pos hy, if_pos (.inl hy)]
  rw [if_neg hy, if_neg]
  rintro (h | ⟨h, -⟩)
  · exact hy h
  · cases h

/-- `set_status_by_pages` reaches every id it is given. -/
theorem mem_setStatusByPages (hx : x ∈ xs) :
    ∃ u ∈ setStatusByPages xs status, x ∈ u.subxids := by
  have hflat : x ∈ (xs.splitBy fun a b =>
      transactionIdToPage a == transactionIdToPage b).flatten := by
    rw [flatten_splitBy]
    exact hx
  obtain ⟨chunk, hchunk, hxc⟩ := mem_flatten.1 hflat
  exact ⟨_, mem_map_of_mem hchunk, hxc⟩

theorem subUpdate_of_mem (hxs : ∀ x ∈ xs, x ∈ t.subs)
    (hu : u ∈ setStatusByPages xs status) : SubUpdate t status u := by
  obtain ⟨chunk, hchunk, rfl⟩ := mem_map.1 hu
  refine ⟨rfl, fun x hx => hxs x ?_, rfl⟩
  have hflat := mem_flatten.2 ⟨chunk, hchunk, hx⟩
  rwa [flatten_splitBy] at hflat

/-- The call that marks the top-level transaction. -/
structure TopUpdate (t : Tree) (u : PageUpdate) : Prop where
  xid : u.xid = t.top
  subset : ∀ x ∈ u.subxids, x ∈ t.subs
  status : u.status = .committed

theorem TopUpdate.getStatus (hu : TopUpdate t u) (pages : Pages) (y : TransactionId) :
    transactionIdGetStatus (transactionIdSetPageStatus pages u) y
      = if y ∈ u.subxids ∨ y = t.top then .committed else transactionIdGetStatus pages y := by
  have hvalid : transactionIdIsValid u.xid = true := by
    rw [hu.xid]
    exact valid_of_member mem_cons_self
  rw [getStatus_setPageStatus, hu.status]
  refine if_congr ?_ rfl rfl
  rw [hvalid, hu.xid]
  exact or_congr Iff.rfl (and_iff_right rfl)

/-- The top-level transaction is still to be marked. -/
structure Before (t : Tree) (pages : Pages) (todo : List PageUpdate) : Prop where
  top : transactionIdGetStatus pages t.top = .inProgress
  subs : ∀ x ∈ t.subs, transactionIdGetStatus pages x = .inProgress
    ∨ transactionIdGetStatus pages x = .subCommitted
  calls : ∃ pre u post, todo = pre ++ u :: post ∧
    (∀ v ∈ pre, SubUpdate t .subCommitted v) ∧ TopUpdate t u ∧
    (∀ v ∈ post, SubUpdate t .committed v) ∧
    ∀ x ∈ t.subs, x ∈ u.subxids ∨
      ((transactionIdGetStatus pages x = .subCommitted ∨ ∃ v ∈ pre, x ∈ v.subxids) ∧
        ∃ v ∈ post, x ∈ v.subxids)

/-- The top-level transaction is marked. -/
structure After (t : Tree) (pages : Pages) (todo : List PageUpdate) : Prop where
  top : transactionIdGetStatus pages t.top = .committed
  subs : ∀ x ∈ t.subs, transactionIdGetStatus pages x = .committed
    ∨ (transactionIdGetStatus pages x = .subCommitted ∧ ∃ v ∈ todo, x ∈ v.subxids)
  calls : ∀ v ∈ todo, SubUpdate t .committed v

theorem mem_onFirst_or_onOther {xid : TransactionId} {subxids : List TransactionId} :
    x ∈ subxids ↔ x ∈ onFirstPage xid subxids ∨ x ∈ onOtherPages xid subxids := by
  rw [← mem_append, onFirstPage, onOtherPages, takeWhile_append_dropWhile]

theorem before_start (hpages : ∀ x ∈ t.members, transactionIdGetStatus pages x = .inProgress) :
    Before t pages (transactionIdSetTreeStatus t.top t.subs .committed) := by
  have hother : ∀ x ∈ onOtherPages t.top t.subs, x ∈ t.subs := fun x hx =>
    (dropWhile_sublist _).subset hx
  have hfirst : ∀ x ∈ onFirstPage t.top t.subs, x ∈ t.subs := fun x hx =>
    (takeWhile_sublist _).subset hx
  refine ⟨hpages _ mem_cons_self, fun x hx => .inl (hpages x (mem_cons_of_mem _ hx)), ?_⟩
  unfold transactionIdSetTreeStatus
  split
  · exact ⟨[], _, [], rfl, fun v hv => absurd hv not_mem_nil, ⟨rfl, fun x hx => hx, rfl⟩,
      fun v hv => absurd hv not_mem_nil, fun x hx => .inl hx⟩
  refine ⟨_, _, _, rfl, fun v hv => subUpdate_of_mem hother hv, ⟨rfl, hfirst, rfl⟩,
    fun v hv => subUpdate_of_mem hother hv, fun x hx => ?_⟩
  rcases mem_onFirst_or_onOther.1 hx with h | h
  · exact .inl h
  · exact .inr ⟨.inr (mem_setStatusByPages h), mem_setStatusByPages h⟩

/-- One more page is marked: the tree stays uncommitted, or this is the instant. -/
theorem Before.mark (h : Before t pages (u :: us)) :
    Before t (transactionIdSetPageStatus pages u) us
      ∨ After t (transactionIdSetPageStatus pages u) us := by
  obtain ⟨pre, w, post, htodo, hpre, hw, hpost, hcover⟩ := h.calls
  cases pre with
  | nil =>
    -- the page of the top-level transaction
    obtain ⟨rfl, rfl⟩ := cons.inj htodo
    refine .inr ⟨?_, fun x hx => ?_, hpost⟩
    · rw [hw.getStatus, if_pos (.inr rfl)]
    rw [hw.getStatus]
    by_cases hxu : x ∈ u.subxids ∨ x = t.top
    · exact .inl (if_pos hxu)
    rw [if_neg hxu]
    rcases hcover x hx with hmem | ⟨hsub | ⟨v, hv, -⟩, hlater⟩
    · exact absurd (.inl hmem) hxu
    · exact .inr ⟨hsub, hlater⟩
    · cases hv
  | cons p pre =>
    obtain ⟨rfl, rfl⟩ := cons.inj htodo
    have hu := hpre u mem_cons_self
    refine .inl ⟨?_, fun x hx => ?_, pre, w, post, rfl,
      fun v hv => hpre v (mem_cons_of_mem _ hv), hw, hpost, fun x hx => ?_⟩
    · rw [hu.getStatus, if_neg fun hmem => t.top_notMem (hu.subset _ hmem)]
      exact h.top
    · rw [hu.getStatus]
      by_cases hxu : x ∈ u.subxids
      · exact .inr (if_pos hxu)
      · rw [if_neg hxu]
        exact h.subs x hx
    rcases hcover x hx with hmem | ⟨hsub, hlater⟩
    · exact .inl hmem
    refine .inr ⟨?_, hlater⟩
    rw [hu.getStatus]
    by_cases hxu : x ∈ u.subxids
    · exact .inl (if_pos hxu)
    rw [if_neg hxu]
    rcases hsub with hsub | ⟨v, hv, hxv⟩
    · exact .inl hsub
    rcases mem_cons.1 hv with rfl | hv
    · exact absurd hxv hxu
    · exact .inr ⟨v, hv, hxv⟩

theorem After.mark (h : After t pages (u :: us)) :
    After t (transactionIdSetPageStatus pages u) us := by
  have hu := h.calls u mem_cons_self
  refine ⟨?_, fun x hx => ?_, fun v hv => h.calls v (mem_cons_of_mem _ hv)⟩
  · rw [hu.getStatus, if_neg fun hmem => t.top_notMem (hu.subset _ hmem)]
    exact h.top
  rw [hu.getStatus]
  by_cases hxu : x ∈ u.subxids
  · exact .inl (if_pos hxu)
  rw [if_neg hxu]
  rcases h.subs x hx with hc | ⟨hsub, v, hv, hxv⟩
  · exact .inl hc
  rcases mem_cons.1 hv with rfl | hv
  · exact absurd hxv hxu
  · exact .inr ⟨hsub, v, hv, hxv⟩

/-! ### What a whole call of `TransactionIdSetTreeStatus` leaves behind -/

theorem getStatus_setStatusByPages (xs : List TransactionId) (pages : Pages) (y : TransactionId) :
    transactionIdGetStatus ((setStatusByPages xs status).foldl transactionIdSetPageStatus pages) y
      = if y ∈ xs then status else transactionIdGetStatus pages y := by
  have hflat := flatten_splitBy (fun a b => transactionIdToPage a == transactionIdToPage b) xs
  unfold setStatusByPages
  generalize xs.splitBy _ = chunks at hflat ⊢
  subst hflat
  have hinvalid : transactionIdIsValid invalidTransactionId = false := rfl
  induction chunks generalizing pages with
  | nil => rfl
  | cons chunk chunks ih =>
    rw [map_cons, foldl_cons, ih, getStatus_setPageStatus]
    grind [flatten_cons]

/-- For any status and any number of pages: every member of the tree has it afterwards, and
nothing else has changed. -/
theorem transactionIdSetTreeStatus_exact (t : Tree) (status : XidStatus) (pages : Pages)
    (y : TransactionId) :
    transactionIdGetStatus
      ((transactionIdSetTreeStatus t.top t.subs status).foldl transactionIdSetPageStatus pages) y
      = if y ∈ t.members then status else transactionIdGetStatus pages y := by
  have htop : transactionIdIsValid t.top = true := valid_of_member mem_cons_self
  have hsubs := @mem_onFirst_or_onOther y t.top t.subs
  unfold transactionIdSetTreeStatus Tree.members
  split
  · rw [foldl_cons, foldl_nil, getStatus_setPageStatus]
    grind
  -- the subtransactions on other pages are marked twice if the tree commits
  rw [foldl_append, foldl_cons, getStatus_setStatusByPages, getStatus_setPageStatus]
  split_ifs <;> grind [getStatus_setStatusByPages]

theorem getStatus_other (hx : x ∉ t.members) (hy : y ∈ t.members) :
    transactionIdGetStatus (transactionIdSetStatusBit pages x status) y
      = transactionIdGetStatus pages y := by
  rw [getStatus_setStatusBit, if_neg]
  intro hyx
  exact hx (hyx ▸ hy)

theorem Before.congr (h : Before t pages todo)
    (hsame : ∀ y ∈ t.members, transactionIdGetStatus pages' y = transactionIdGetStatus pages y) :
    Before t pages' todo := by
  have hsub : ∀ y ∈ t.subs, transactionIdGetStatus pages' y = transactionIdGetStatus pages y :=
    fun y hy => hsame y (mem_cons_of_mem _ hy)
  obtain ⟨pre, w, post, htodo, hpre, hw, hpost, hcover⟩ := h.calls
  refine ⟨(hsame _ mem_cons_self).trans h.top, fun x hx => ?_, pre, w, post, htodo, hpre, hw,
    hpost, fun x hx => ?_⟩
  · rw [hsub x hx]
    exact h.subs x hx
  · rw [hsub x hx]
    exact hcover x hx

theorem After.congr (h : After t pages todo)
    (hsame : ∀ y ∈ t.members, transactionIdGetStatus pages' y = transactionIdGetStatus pages y) :
    After t pages' todo := by
  refine ⟨(hsame _ mem_cons_self).trans h.top, fun x hx => ?_, h.calls⟩
  rw [hsame x (mem_cons_of_mem _ hx)]
  exact h.subs x hx

/-! ### What a reader fetches -/

theorem getStatus_of_before (h : Before t pages todo) (hx : x ∈ t.members) :
    transactionIdGetStatus pages x = .inProgress
      ∨ (transactionIdGetStatus pages x = .subCommitted ∧ x ≠ t.top) := by
  rcases mem_cons.1 hx with rfl | hsub
  · exact .inl h.top
  refine (h.subs x hsub).imp id fun hs => ⟨hs, ?_⟩
  rintro rfl
  exact t.top_notMem hsub

theorem getStatus_of_after (h : After t pages todo) (hx : x ∈ t.members) :
    transactionIdGetStatus pages x = .committed
      ∨ (transactionIdGetStatus pages x = .subCommitted ∧ x ≠ t.top ∧ todo ≠ []) := by
  rcases mem_cons.1 hx with rfl | hsub
  · exact .inl h.top
  refine (h.subs x hsub).imp id fun hs => ⟨hs.1, ?_, ?_⟩
  · rintro rfl
    exact t.top_notMem hsub
  · obtain ⟨-, v, hv, -⟩ := hs
    exact ne_nil_of_mem hv

/-- The memory afterwards is the one before, or its cache holds a final status just read. -/
theorem fetch_reader (pages : Pages) (rd : Reader) (x : TransactionId) :
    (transactionLogFetch pages rd x).2 = rd ∨ ((transactionLogFetch pages rd x).2 = { rd with
          cachedFetchXid := x, cachedFetchXidStatus := transactionIdGetStatus pages x } ∧
        transactionIdGetStatus pages x ≠ .inProgress ∧
        transactionIdGetStatus pages x ≠ .subCommitted) := by
  unfold transactionLogFetch
  split
  · exact .inl rfl
  split
  · split
    · exact .inl rfl
    · split <;> exact .inl rfl
  dsimp only
  split
  · rename_i hfinal
    exact .inr ⟨rfl, hfinal⟩
  · exact .inl rfl

theorem fetch_xmin (pages : Pages) (rd : Reader) (x : TransactionId) :
    (transactionLogFetch pages rd x).2.transactionXmin = rd.transactionXmin := by
  rcases fetch_reader pages rd x with h | ⟨h, -⟩ <;> rw [h]

theorem fetch_status (pages : Pages) (rd : Reader) (hx : transactionIdIsNormal x = true) :
    (x = rd.cachedFetchXid ∧ (transactionLogFetch pages rd x).1 = rd.cachedFetchXidStatus) ∨
      (transactionLogFetch pages rd x).1 = transactionIdGetStatus pages x := by
  unfold transactionLogFetch
  by_cases hc : x = rd.cachedFetchXid
  · exact .inl ⟨hc, by rw [if_pos hc]⟩
  right
  rw [if_neg hc, if_neg (by rw [hx]; decide)]
  dsimp only
  split <;> rfl

/-! ### The invariant -/

variable {instant : Option Nat} {c : Call} {rd : Reader} {value : Bool}

section Invariant

variable {R : Type} {s : State R}

/-- What an answer about a member of the tree tells, if the tree committed at `instant`. -/
structure Answer.Good (instant : Option Nat) (a : Answer) : Prop where
  abort : a.question = .didAbort → a.value = false
  commit : a.question = .didCommit → a.value = true → ∃ k, instant = some k ∧ k ≤ a.ended
  notYet : a.question = .didCommit → a.value = false → ∀ k, instant = some k → a.started < k

/-- The instant at which the tree committed, if it has, and the pages to match. -/
def Phase (t : Tree) (instant : Option Nat) (s : State R) : Prop :=
  (instant = none ∧ Before t s.pages s.todo) ∨
    ∃ k, instant = some k ∧ k < s.clock ∧ After t s.pages s.todo

/-- What holds of one reader. -/
structure ReaderInv (t : Tree) (instant : Option Nat) (todo : List PageUpdate) (clock : Nat)
    (rd : Reader) : Prop where
  cache : rd.cachedFetchXid ∈ t.members →
    rd.cachedFetchXidStatus = .committed ∧ instant.isSome = true
  xmin : todo ≠ [] → ∀ x ∈ t.members, transactionIdPrecedes x rd.transactionXmin = false
  call : ∀ c, rd.call = some c → c.xid ∈ t.members →
    c.current ∈ t.members ∧ (c.climbing = true → c.current ≠ t.top) ∧ c.started < clock

structure Inv (t : Tree) (instant : Option Nat) (s : State R) : Prop where
  phase : Phase t instant s
  reader : ∀ r, ReaderInv t instant s.todo s.clock (s.reader r)
  answers : ∀ a ∈ s.answers, a.xid ∈ t.members →
    a.Good instant ∧ a.started < s.clock ∧ a.ended < s.clock

theorem inv_start (h : Start t s) : Inv t none s := by
  refine ⟨.inl ⟨rfl, ?_⟩, fun r => ⟨fun hmem => absurd hmem (h.cache r), fun _ => h.xmin r,
    fun c hc => ?_⟩, fun a ha => ?_⟩
  · rw [h.todo]
    exact before_start h.pages
  · rw [h.idle r] at hc
    cases hc
  · rw [h.answers] at ha
    cases ha

/-- What a reader gets when it fetches the status of a member. -/
theorem fetch_member (h : Inv t instant s) (r : R) (hx : x ∈ t.members) :
    (instant = none ∧ (transactionLogFetch s.pages (s.reader r) x).1 = .inProgress) ∨
      ((∃ k, instant = some k ∧ k < s.clock) ∧
        (transactionLogFetch s.pages (s.reader r) x).1 = .committed) ∨
      ((transactionLogFetch s.pages (s.reader r) x).1 = .subCommitted ∧ x ≠ t.top ∧
        s.todo ≠ []) := by
  rcases fetch_status s.pages (s.reader r) (t.normal x hx) with ⟨hcached, hst⟩ | hst
  · rw [hst]
    obtain ⟨hcommitted, hsome⟩ := (h.reader r).cache (hcached ▸ hx)
    rcases h.phase with ⟨hnone, -⟩ | ⟨k, hk, hlt, -⟩
    · rw [hnone] at hsome
      cases hsome
    · exact .inr (.inl ⟨⟨k, hk, hlt⟩, hcommitted⟩)
  rw [hst]
  rcases h.phase with ⟨hnone, hbefore⟩ | ⟨k, hk, hlt, hafter⟩
  · rcases getStatus_of_before hbefore hx with hs | ⟨hs, htop⟩
    · exact .inl ⟨hnone, hs⟩
    obtain ⟨pre, u, post, htodo, -⟩ := hbefore.calls
    refine .inr (.inr ⟨hs, htop, ?_⟩)
    rw [htodo]
    exact append_ne_nil_of_right_ne_nil _ (cons_ne_nil _ _)
  rcases getStatus_of_after hafter hx with hs | ⟨hs, htop, htodo⟩
  · exact .inr (.inl ⟨⟨k, hk, hlt⟩, hs⟩)
  · exact .inr (.inr ⟨hs, htop, htodo⟩)

/-- The cache a reader has after fetching any status at all. -/
theorem fetch_cache_inv (h : Inv t instant s) (r : R) (x : TransactionId)
    (hmem : (transactionLogFetch s.pages (s.reader r) x).2.cachedFetchXid ∈ t.members) :
    (transactionLogFetch s.pages (s.reader r) x).2.cachedFetchXidStatus = .committed ∧
      instant.isSome = true := by
  rcases fetch_reader s.pages (s.reader r) x with hrd | ⟨hrd, hip, hsc⟩
  · rw [hrd] at hmem ⊢
    exact (h.reader r).cache hmem
  rw [hrd] at hmem ⊢
  rcases h.phase with ⟨-, hbefore⟩ | ⟨k, hk, -, hafter⟩
  · exact ((getStatus_of_before hbefore hmem).elim hip fun hs => hsc hs.1).elim
  · rw [hk]
    exact ⟨(getStatus_of_after hafter hmem).resolve_right fun hs => hsc hs.1, rfl⟩

/-- The list of pages to mark only gets shorter, and the clock only goes on. -/
theorem ReaderInv.mono {instant' : Option Nat} {todo' : List PageUpdate} {clock : Nat}
    (h : ReaderInv t instant todo clock rd)
    (hsome : instant.isSome = true → instant'.isSome = true) (htodo : todo' ≠ [] → todo ≠ []) :
    ReaderInv t instant' todo' (clock + 1) rd := by
  refine ⟨fun hmem => (h.cache hmem).imp id hsome, fun hne => h.xmin (htodo hne),
    fun c hc hmem => ?_⟩
  obtain ⟨hcur, hclimb, hstart⟩ := h.call c hc hmem
  exact ⟨hcur, hclimb, Nat.lt_succ_of_lt hstart⟩

theorem Inv.answers_tick (h : Inv t instant s) {a : Answer} (ha : a ∈ s.answers)
    (hmem : a.xid ∈ t.members) :
    a.Good instant ∧ a.started < s.clock + 1 ∧ a.ended < s.clock + 1 := by
  obtain ⟨hgood, hstart, hend⟩ := h.answers a ha hmem
  exact ⟨hgood, Nat.lt_succ_of_lt hstart, Nat.lt_succ_of_lt hend⟩

theorem Phase.tick {s' : State R} (h : Phase t instant s) (hpages : ∀ y ∈ t.members,
      transactionIdGetStatus s'.pages y = transactionIdGetStatus s.pages y)
    (htodo : s'.todo = s.todo) (hclock : s'.clock = s.clock + 1) : Phase t instant s' := by
  rcases h with ⟨hnone, hbefore⟩ | ⟨k, hk, hlt, hafter⟩
  · refine .inl ⟨hnone, ?_⟩
    rw [htodo]
    exact hbefore.congr hpages
  refine .inr ⟨k, hk, hclock ▸ Nat.lt_succ_of_lt hlt, ?_⟩
  rw [htodo]
  exact hafter.congr hpages

/-- The next page is marked. -/
theorem Inv.mark (h : Inv t instant s) (htodo : s.todo = u :: us) :
    ∃ instant', Inv t instant'
      { s with pages := transactionIdSetPageStatus s.pages u, todo := us }.tick := by
  have hne : us ≠ [] → s.todo ≠ [] := fun _ => by
    rw [htodo]
    exact cons_ne_nil _ _
  rcases h.phase with ⟨rfl, hbefore⟩ | ⟨k, hk, hlt, hafter⟩
  swap
  · rw [htodo] at hafter
    exact ⟨instant, .inr ⟨k, hk, Nat.lt_succ_of_lt hlt, hafter.mark⟩,
      fun r => (h.reader r).mono id hne, fun a ha => h.answers_tick ha⟩
  rw [htodo] at hbefore
  rcases hbefore.mark with hb | ha
  · exact ⟨none, .inl ⟨rfl, hb⟩, fun r => (h.reader r).mono id hne, fun a ha => h.answers_tick ha⟩
  -- this step is the instant: no answer so far says that the tree has committed
  refine ⟨some s.clock, .inr ⟨s.clock, rfl, Nat.lt_succ_self _, ha⟩,
    fun r => (h.reader r).mono (fun _ => rfl) hne, fun a ha hmem => ?_⟩
  obtain ⟨hgood, hstart, hend⟩ := h.answers a ha hmem
  refine ⟨⟨hgood.abort, fun hq hv => ?_, fun hq hv k hk => ?_⟩, Nat.lt_succ_of_lt hstart,
    Nat.lt_succ_of_lt hend⟩
  · obtain ⟨k, hk, -⟩ := hgood.commit hq hv
    cases hk
  · rw [← some.inj hk]
    exact hstart

theorem Inv.other (h : Inv t instant s) (hx : x ∉ t.members) :
    Inv t instant { s with pages := transactionIdSetStatusBit s.pages x status }.tick :=
  ⟨h.phase.tick (fun _ hy => getStatus_other hx hy) rfl rfl,
    fun r => (h.reader r).mono id id, fun _ ha => h.answers_tick ha⟩

variable {r : R}

/-- The value a call may return with the status it fetched is a good one. -/
theorem good_of_fetch (h : Inv t instant s)
    (hcur : c.current ∈ t.members)
    (hv : afterFetch c.question (transactionLogFetch s.pages (s.reader r) c.current).1 c.current
      (s.reader r).transactionXmin = some value) :
    Answer.Good instant ⟨c.question, c.xid, c.started, s.clock, value⟩ := by
  unfold afterFetch at hv
  rcases fetch_member h r hcur with ⟨hnone, hst⟩ | ⟨⟨k, hk, hlt⟩, hst⟩ | ⟨hst, -, htodo⟩
  · rw [hst] at hv
    refine ⟨fun hq => ?_, fun hq hval => ?_, fun _ _ k hk => ?_⟩
    · rw [← some.inj hv, show c.question = .didAbort from hq]
      rfl
    · rw [show c.question = .didCommit from hq] at hv
      rw [show value = true from hval] at hv
      cases hv
    · rw [hnone] at hk
      cases hk
  · rw [hst] at hv
    refine ⟨fun hq => ?_, fun _ _ => ⟨k, hk, le_of_lt hlt⟩, fun hq hval => ?_⟩
    · rw [← some.inj hv, show c.question = .didAbort from hq]
      rfl
    rw [show c.question = .didCommit from hq] at hv
    rw [show value = false from hval] at hv
    cases hv
  · rw [hst, (h.reader r).xmin htodo _ hcur] at hv
    cases hv

/-- The memory of a reader after a fetch, whatever becomes of its call. -/
theorem readerInv_fetch (h : Inv t instant s) (r : R) (x : TransactionId)
    (call : Option Call)
    (hcall : ∀ c, call = some c → c.xid ∈ t.members →
      c.current ∈ t.members ∧ (c.climbing = true → c.current ≠ t.top) ∧ c.started < s.clock + 1) :
    ReaderInv t instant s.todo (s.clock + 1)
      { (transactionLogFetch s.pages (s.reader r) x).2 with call := call } := by
  refine ⟨fetch_cache_inv h r x, fun hne => ?_, hcall⟩
  rw [fetch_xmin]
  exact (h.reader r).xmin hne

end Invariant

section Steps

variable {R : Type} [DecidableEq R] {s : State R}

section

variable (h : Inv t instant s)
include h

/-- A reader changes nothing but its own memory. -/
theorem Inv.setReader (hrd : ReaderInv t instant s.todo (s.clock + 1) rd) :
    Inv t instant (s.setReader r rd).tick := by
  refine ⟨h.phase.tick (fun _ _ => rfl) rfl rfl, fun q => ?_, fun a ha => h.answers_tick ha⟩
  change ReaderInv t instant s.todo (s.clock + 1) (update s.reader r rd q)
  by_cases hq : q = r
  · rw [hq, update_self]
    exact hrd
  · rw [update_of_ne hq]
    exact (h.reader q).mono id id

theorem Inv.answer (hrd : ReaderInv t instant s.todo (s.clock + 1) { rd with call := none })
    (hgood : c.xid ∈ t.members →
      Answer.Good instant ⟨c.question, c.xid, c.started, s.clock, value⟩ ∧ c.started < s.clock) :
    Inv t instant (s.answer r rd c value).tick := by
  have hset : Inv t instant (s.setReader r { rd with call := none }).tick := h.setReader hrd
  refine ⟨hset.phase, hset.reader, fun a ha hmem => ?_⟩
  rcases mem_cons.1 ha with rfl | ha
  · obtain ⟨hg, hstart⟩ := hgood hmem
    exact ⟨hg, Nat.lt_succ_of_lt hstart, Nat.lt_succ_self _⟩
  · exact h.answers_tick ha hmem

theorem Inv.fetchStep (hc : (s.reader r).call = some c) : Inv t instant (fetchStep s r c).tick := by
  unfold CommitLog.fetchStep
  have hxmin := fetch_xmin s.pages (s.reader r) c.current
  dsimp only
  split
  · rename_i value hv
    rw [hxmin] at hv
    refine h.answer (readerInv_fetch h r c.current none fun d hd => absurd hd (by simp))
      fun hmem => ?_
    obtain ⟨hcur, -, hstart⟩ := (h.reader r).call c hc hmem
    exact ⟨good_of_fetch h hcur hv, hstart⟩
  rename_i hv
  refine h.setReader (readerInv_fetch h r c.current _ fun d hd hmem => ?_)
  cases hd
  obtain ⟨hcur, -, hstart⟩ := (h.reader r).call c hc hmem
  refine ⟨hcur, fun _ htop => ?_, Nat.lt_succ_of_lt hstart⟩
  -- only a sub-committed transaction has a parent to climb to
  unfold afterFetch at hv
  rcases fetch_member h r hcur with ⟨-, hst⟩ | ⟨-, hst⟩ | ⟨-, hne, -⟩
  · rw [hst] at hv
    cases hv
  · rw [hst] at hv
    cases hv
  · exact hne htop

end

/-- The parent of a subtransaction is a member, and so it is a valid id. -/
theorem parent_member (hx : x ∈ t.members) (htop : x ≠ t.top) :
    t.subTransGetParent x ∈ t.members := by
  have hsub : x ∈ t.subs := (mem_cons.1 hx).resolve_left htop
  obtain ⟨before, after, hsplit⟩ := append_of_mem hsub
  rcases mem_cons.1 (t.parent_mem before x after hsplit) with hp | hp
  · rw [hp]
    exact mem_cons_self
  refine mem_cons_of_mem _ ?_
  rw [hsplit]
  exact mem_append_left _ hp

theorem Inv.climbStep (h : Inv t instant s)
    (hc : (s.reader r).call = some c) (hclimb : c.climbing = true) :
    Inv t instant (climbStep t s r c).tick := by
  have hrd := h.reader r
  unfold CommitLog.climbStep
  dsimp only
  split_ifs with hvalid
  · refine h.answer ⟨hrd.cache, hrd.xmin, fun d hd => absurd hd (by simp)⟩ fun hmem => ?_
    obtain ⟨hcur, htop, -⟩ := hrd.call c hc hmem
    rw [valid_of_member (parent_member hcur (htop hclimb))] at hvalid
    cases hvalid
  refine h.setReader ⟨hrd.cache, hrd.xmin, fun d hd hmem => ?_⟩
  cases hd
  obtain ⟨hcur, htop, hstart⟩ := hrd.call c hc hmem
  exact ⟨parent_member hcur (htop hclimb), fun hf => absurd hf false_ne_true,
    Nat.lt_succ_of_lt hstart⟩

theorem inv_step {s' : State R} {e : Event R} (h : Inv t instant s) (hst : step t s e = some s') :
    ∃ instant', Inv t instant' s' := by
  obtain ⟨s₁, hact, rfl⟩ := map_eq_some_iff.1 hst
  cases e <;> simp only [act] at hact
  case mark =>
    split at hact
    · cases hact
    rename_i u us htodo
    cases hact
    exact h.mark htodo
  case other x status =>
    split at hact
    · cases hact
    rename_i hx
    cases hact
    exact ⟨instant, h.other hx⟩
  case ask r question x =>
    split at hact
    · cases hact
    cases hact
    refine ⟨instant, h.setReader ⟨(h.reader r).cache, (h.reader r).xmin, fun c hc hmem => ?_⟩⟩
    cases hc
    exact ⟨hmem, fun hf => absurd hf false_ne_true, Nat.lt_succ_self _⟩
  case fetch r =>
    split at hact
    · cases hact
    rename_i c hc
    split at hact
    · cases hact
    · cases hact
      exact ⟨instant, h.fetchStep hc⟩
  case climb r =>
    split at hact
    · cases hact
    rename_i c hc
    split at hact
    · rename_i hclimb
      cases hact
      exact ⟨instant, h.climbStep hc hclimb⟩
    · cases hact
  case snapshot r xmin =>
    split at hact
    · cases hact
    split at hact
    · cases hact
    rename_i hbusy hguard
    cases hact
    refine ⟨instant, h.setReader ⟨(h.reader r).cache, fun hne x hx => ?_, fun c hc => ?_⟩⟩
    · by_contra hpre
      exact hguard ⟨hne, any_eq_true.2 ⟨x, hx, eq_true_of_not_eq_false hpre⟩⟩
    · rw [show (s.reader r).call = some c from hc] at hbusy
      cases hbusy rfl

theorem inv_of_exec {s : State R} : ∀ {es : List (Event R)} {s' : State R} {instant : Option Nat},
    Inv t instant s → exec (step t) s es = some s' → ∃ instant', Inv t instant' s' := by
  intro es
  induction es generalizing s with
  | nil =>
    intro s' instant h hrun
    cases hrun
    exact ⟨instant, h⟩
  | cons e es ih =>
    intro s' instant h hrun
    obtain ⟨s₁, hst, hrun⟩ := exists_of_exec_cons hrun
    obtain ⟨instant₁, h₁⟩ := inv_step h hst
    exact ih h₁ hrun

/-! ### Every call returns -/

/-- The answer to this call has been given. -/
def Answered (s : State R) (c : Call) : Prop :=
  ∃ a ∈ s.answers, a.question = c.question ∧ a.xid = c.xid ∧ a.started = c.started

theorem fetch_returns_or_climbs (hc : (s.reader r).call = some c)
    (hclimb : c.climbing = false) :
    ∃ s', step t s (.fetch r) = some s' ∧
      (Answered s' c ∨ (s'.reader r).call = some { c with climbing := true }) := by
  refine ⟨(fetchStep s r c).tick, ?_, ?_⟩
  · simp only [step, act, hc, hclimb, false_eq_true, if_false, map_some]
  unfold fetchStep
  dsimp only
  split
  · exact .inl ⟨_, mem_cons_self, rfl, rfl, rfl⟩
  refine .inr ?_
  change (update s.reader r _ r).call = _
  rw [update_self]

theorem climb_goes_on (h : Inv t instant s)
    (hc : (s.reader r).call = some c) (hclimb : c.climbing = true) (hmem : c.xid ∈ t.members) :
    ∃ s', step t s (.climb r) = some s' ∧ (s'.reader r).call
        = some { c with current := t.subTransGetParent c.current, climbing := false } := by
  obtain ⟨hcur, htop, -⟩ := (h.reader r).call c hc hmem
  have hvalid := valid_of_member (parent_member hcur (htop hclimb))
  refine ⟨(climbStep t s r c).tick, ?_, ?_⟩
  · simp only [step, act, hc, hclimb, if_true, map_some]
  unfold climbStep
  dsimp only
  rw [hvalid]
  change (update s.reader r _ r).call = _
  rw [update_self]

/--
A call that has reached a member of the tree returns.  The induction is on how many
subtransactions stand before the one it has reached.
-/
theorem call_returns (r : R) (pre : List TransactionId) :
    ∀ (post : List TransactionId), t.subs = pre ++ post →
    ∀ {instant : Option Nat} {s : State R} {c : Call}, Inv t instant s →
    (s.reader r).call = some c → c.climbing = false → c.xid ∈ t.members →
    c.current ∈ t.top :: pre →
    ∃ es s', exec (step t) s es = some s' ∧ Answered s' c := by
  induction pre using reverseRecOn with
  | nil =>
    intro post _ instant s c h hc hclimb hmem hcur
    obtain ⟨s₁, hst, hans | hup⟩ := fetch_returns_or_climbs (t := t) hc hclimb
    · exact ⟨[.fetch r], s₁, by simp only [exec, hst], hans⟩
    -- the top-level transaction is never sub-committed
    obtain ⟨instant₁, h₁⟩ := inv_step h hst
    obtain ⟨-, htop, -⟩ := (h₁.reader r).call _ hup hmem
    exact absurd (mem_singleton.1 hcur) (htop rfl)
  | append_singleton pre y ih =>
    intro post hsplit instant s c h hc hclimb hmem hcur
    have hsplit' : t.subs = pre ++ y :: post := by rw [hsplit, append_assoc, singleton_append]
    by_cases hearlier : c.current ∈ t.top :: pre
    · exact ih (y :: post) hsplit' h hc hclimb hmem hearlier
    have hy : c.current = y := by
      rcases mem_cons.1 hcur with htop | hpre
      · exact absurd (mem_cons.2 (.inl htop)) hearlier
      rcases mem_append.1 hpre with hpre | hlast
      · exact absurd (mem_cons_of_mem _ hpre) hearlier
      · exact mem_singleton.1 hlast
    obtain ⟨s₁, hst, hans | hup⟩ := fetch_returns_or_climbs (t := t) hc hclimb
    · exact ⟨[.fetch r], s₁, by simp only [exec, hst], hans⟩
    obtain ⟨instant₁, h₁⟩ := inv_step h hst
    obtain ⟨s₂, hst₂, hcall⟩ := climb_goes_on h₁ hup rfl hmem
    obtain ⟨instant₂, h₂⟩ := inv_step h₁ hst₂
    have hparent : t.subTransGetParent c.current ∈ t.top :: pre := by
      rw [hy]
      exact t.parent_mem pre y post hsplit'
    obtain ⟨es, s', hrun, hans⟩ := ih (y :: post) hsplit' h₂ hcall rfl hmem hparent
    refine ⟨.fetch r :: .climb r :: es, s', ?_, hans⟩
    simp only [exec, hst, hst₂]
    exact hrun

theorem call_returns_of_inv (h : Inv t instant s)
    (hc : (s.reader r).call = some c) (hmem : c.xid ∈ t.members) :
    ∃ es s', exec (step t) s es = some s' ∧ Answered s' c := by
  have hall : t.subs = t.subs ++ [] := (append_nil _).symm
  obtain ⟨hcur, htop, -⟩ := (h.reader r).call c hc hmem
  cases hclimb : c.climbing with
  | false => exact call_returns r t.subs [] hall h hc hclimb hmem hcur
  | true =>
    obtain ⟨s₁, hst, hcall⟩ := climb_goes_on h hc hclimb hmem
    obtain ⟨instant₁, h₁⟩ := inv_step h hst
    obtain ⟨es, s', hrun, hans⟩ :=
      call_returns r t.subs [] hall h₁ hcall rfl hmem (parent_member hcur (htop hclimb))
    refine ⟨.climb r :: es, s', ?_, hans⟩
    simp only [exec, hst]
    exact hrun

/-! ### The tree commits at one instant -/

/--
In every run there is one instant, passed as soon as the marking is done, such that
`TransactionIdDidCommit` says no to every member whose call returns before it, and yes to every
member whose call begins after it.  `TransactionIdDidAbort` always says no, a call that begins
after somebody was told that a member has committed says so too, and every call returns.
-/
theorem tree_commits_atomically (t : Tree) {s₀ s : State R} (h₀ : Start t s₀)
    (es : List (Event R)) (hrun : Run.exec (step t) s₀ es = some s) :
    (∃ instant, (s.todo = [] → instant < s.clock) ∧
      ∀ a ∈ s.answers, a.xid ∈ t.members → a.question = .didCommit →
        (a.ended < instant → a.value = false) ∧ (instant ≤ a.started → a.value = true)) ∧
    (∀ a ∈ s.answers, a.xid ∈ t.members → a.question = .didAbort → a.value = false) ∧
    (∀ a ∈ s.answers, ∀ b ∈ s.answers, a.xid ∈ t.members → b.xid ∈ t.members →
      a.question = .didCommit → b.question = .didCommit → a.value = true → a.ended ≤ b.started →
        b.value = true) ∧
    ∀ r c, (s.reader r).call = some c → c.xid ∈ t.members →
      ∃ es' s', Run.exec (step t) s es' = some s' ∧ Answered s' c := by
  obtain ⟨instant, h⟩ := inv_of_exec (inv_start h₀) hrun
  refine ⟨?_, fun a ha hmem hq => (h.answers a ha hmem).1.abort hq,
    fun a ha b hb hma hmb hqa hqb hva hle => ?_, fun r c hc hmem => call_returns_of_inv h hc hmem⟩
  · rcases h.phase with ⟨hnone, hbefore⟩ | ⟨k, hk, hlt, hafter⟩
    · refine ⟨s.clock, fun htodo => ?_, fun a ha hmem hq => ⟨fun _ => ?_, fun hle => ?_⟩⟩
      · obtain ⟨pre, u, post, hsplit, -⟩ := hbefore.calls
        rw [htodo] at hsplit
        exact absurd hsplit.symm (by simp)
      · obtain ⟨hgood, -, -⟩ := h.answers a ha hmem
        refine eq_false_iff.2 fun hv => ?_
        obtain ⟨k, hk, -⟩ := hgood.commit hq hv
        rw [hnone] at hk
        cases hk
      · exact absurd (h.answers a ha hmem).2.1 (not_lt.2 hle)
    refine ⟨k, fun _ => hlt, fun a ha hmem hq => ⟨fun hend => ?_, fun hle => ?_⟩⟩
    · refine eq_false_iff.2 fun hv => ?_
      obtain ⟨k', hk', hle⟩ := (h.answers a ha hmem).1.commit hq hv
      rw [hk] at hk'
      obtain rfl := some.inj hk'
      exact absurd hend (not_lt.2 hle)
    · refine eq_true_of_not_eq_false fun hv => ?_
      exact absurd ((h.answers a ha hmem).1.notYet hq hv k hk) (not_lt.2 hle)
  obtain ⟨k, hk, hke⟩ := (h.answers a ha hma).1.commit hqa hva
  refine eq_true_of_not_eq_false fun hvb => ?_
  have hlt := (h.answers b hb hmb).1.notYet hqb hvb k hk
  omega

end Steps

/-! ### A tree on two pages -/

def sampleSubs : List TransactionId := [32767#32, 32768#32]

theorem sample_normal : ∀ x ∈ 32766#32 :: sampleSubs, transactionIdIsNormal x = true :=
  all_eq_true.1 (by decide +kernel)

theorem sample_top_notMem : 32766#32 ∉ sampleSubs := by decide +kernel

theorem sample_parent_mem (before : List TransactionId) (x : TransactionId)
    (after : List TransactionId) (h : sampleSubs = before ++ x :: after) :
    x - 1#32 ∈ 32766#32 :: before := by
  unfold sampleSubs at h
  rcases before with - | ⟨y, - | ⟨z, rest⟩⟩
  · rw [nil_append, cons.injEq] at h
    rw [← h.1]
    decide +kernel
  · rw [cons_append, cons.injEq, nil_append, cons.injEq] at h
    rw [← h.1, ← h.2.1]
    decide +kernel
  · simp at h

/-- A transaction at the end of a page, its child on the same page, and a grandchild on the next. -/
def sampleTree : Tree where
  top := 32766#32
  subs := sampleSubs
  subTransGetParent := fun x => x - 1#32
  normal := sample_normal
  top_notMem := sample_top_notMem
  parent_mem := sample_parent_mem

def sampleStart : State Unit where
  pages := fun _ _ => 0#8
  todo := transactionIdSetTreeStatus sampleTree.top sampleTree.subs .committed
  reader := fun _ => ⟨0#32, .inProgress, 32766#32, none⟩
  clock := 0
  answers := []

theorem sampleStart_start : Start sampleTree sampleStart := by
  have hpages : sampleTree.members.all (fun x =>
      decide (transactionIdGetStatus sampleStart.pages x = .inProgress)) = true := by
    decide +kernel
  have hxmin : sampleTree.members.all (fun x => !transactionIdPrecedes x 32766#32) = true := by
    decide +kernel
  refine ⟨fun x hx => of_decide_eq_true (all_eq_true.1 hpages x hx), rfl, fun r => ?_,
    fun _ => rfl, fun r x hx => ?_, rfl⟩
  · change 0#32 ∉ sampleTree.members
    decide +kernel
  · exact (not_eq_eq_eq_not.1 (all_eq_true.1 hxmin x hx))

/-- One question about the grandchild before the instant, one around it, and one after it. -/
def sampleEvents : List (Event Unit) :=
  [.ask () .didCommit 32768#32, .mark, .fetch (), .climb (), .fetch (),
   .ask () .didAbort 32768#32, .fetch (), .mark, .climb (), .fetch (),
   .ask () .didCommit 32768#32, .fetch (), .climb (), .fetch (), .mark]

theorem sampleEvents_run : (exec (step sampleTree) sampleStart sampleEvents).isSome = true := by
  decide +kernel

def sampleEnd : State Unit := (Run.exec (step sampleTree) sampleStart sampleEvents).get
  sampleEvents_run

theorem tree_commits_atomically_twoPages : sampleEnd.answers =
      [⟨.didCommit, 32768#32, 10, 13, true⟩, ⟨.didAbort, 32768#32, 5, 9, false⟩,
       ⟨.didCommit, 32768#32, 0, 4, false⟩] ∧
    ∃ instant, (sampleEnd.todo = [] → instant < sampleEnd.clock) ∧
      ∀ a ∈ sampleEnd.answers, a.xid ∈ sampleTree.members → a.question = .didCommit →
        (a.ended < instant → a.value = false) ∧ (instant ≤ a.started → a.value = true) :=
  ⟨by decide +kernel, (tree_commits_atomically sampleTree sampleStart_start sampleEvents
    (Option.some_get sampleEvents_run).symm).1⟩

end PrlPg.CommitLog
