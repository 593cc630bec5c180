/-
The steps of the lock table.

Every step keeps the invariant, where a request that `LockAcquire` abandons is charged to the
requests that nobody owns (`charge`).  Every step also leaves the queues settled, except an
acquisition that goes to sleep with nothing in its way (`Misled`).
-/
import PrlPg.Proofs.LockAcquire

namespace PrlPg.Locks

open Finset Function Option List State Entry

variable {P Tag M Owner : Type*} {n : Nat} {c : LockMethods Tag M n}
  {s s' s₁ : State P Tag M Owner n} {p : P} {tag : Tag} {extra : Tag → Fin n → Nat}
  {mode : Fin n} {e : Entry P n} {owner : Option Owner}

/-- Somebody else holds a mode that the request conflicts with, or waits for one. -/
def Opposed (c : LockMethods Tag M n) (s : State P Tag M Owner n) (p : P) (tag : Tag)
    (mode : Fin n) : Prop :=
  (∃ q, q ≠ p ∧ ∃ m ∈ s.hold tag q, m ∈ c.conflicts tag mode) ∨
    ∃ q ∈ s.queue tag, s.want q ∈ c.conflicts tag mode

/-! ### The end of a sleep -/

section Awake

variable [DecidableEq P] (hstage : s.stage p = .sleeping tag mode owner)
  (hwait : (s.proc p).waitLock = none)
include hstage hwait

/-- A process that was thrown out of the queue runs again. -/
theorem Status.awake_error (h : Status c s p) (hstatus : (s.proc p).waitStatus ≠ .ok) :
    Status c (s.setStage p .running) p := by
  have hmarked : ∀ t, s.marked t p = ∅ :=
    h.marked_of_stage fun _ _ _ heq => by rw [hstage] at heq; cases heq
  refine Status.of_running (update_self _ _ _) hwait hmarked fun t m => ?_
  have hgiven : ¬ s.Given p t m := fun hg => hstatus hg.2.2
  have hheld := h.held t m
  rw [hmarked] at hheld
  tauto

variable [DecidableEq Tag] [DecidableEq Owner]

/-- A process that was granted what it waited for enters it into its local table. -/
theorem Status.awake_ok (h : Status c s p) (hstatus : (s.proc p).waitStatus = .ok) :
    Status c ((s.grantLockLocal p tag mode owner).setStage p .running) p := by
  have hmarked : ∀ t, s.marked t p = ∅ :=
    h.marked_of_stage fun _ _ _ heq => by rw [hstage] at heq; cases heq
  refine Status.of_running (update_self _ _ _) hwait hmarked fun t m => ?_
  show m ∈ s.hold t p ↔ 0 < ((s.grantLockLocal p tag mode owner).locallock p t m).nLocks
  have hheld := h.held t m
  rw [hmarked] at hheld
  by_cases htm : t = tag ∧ m = mode
  · obtain ⟨rfl, rfl⟩ := htm
    rw [grantLockLocal, setLocal_self]
    refine iff_of_true (hheld.2 (.inr (.inr ⟨⟨owner, hstage⟩, hwait, hstatus⟩))) ?_
    exact Nat.succ_pos _
  have hgiven : ¬ s.Given p t m := by
    rintro ⟨⟨owner', heq⟩, -⟩
    rw [hstage] at heq
    injection heq with ht hm _
    exact htm ⟨ht.symm, hm.symm⟩
  rw [grantLockLocal, setLocal_of_ne htm]
  tauto

variable [Fintype P]

omit [DecidableEq Tag] [DecidableEq Owner] in
theorem inv_awake_error (hs : Inv c extra s) (hstatus : (s.proc p).waitStatus ≠ .ok) :
    Keeps c extra s (s.setStage p .running) := by
  have hown : Own s (s.setStage p .running) p := (Own.refl s p).setStage _
  exact ⟨hown.inv hs rfl rfl ((hs.status p).awake_error hstage hwait hstatus),
    fun hset t => hown.settledAt rfl (hset t)⟩

theorem inv_awake_ok (hs : Inv c extra s) (hstatus : (s.proc p).waitStatus = .ok) :
    Keeps c extra s ((s.grantLockLocal p tag mode owner).setStage p .running) := by
  have hown : Own s ((s.grantLockLocal p tag mode owner).setStage p .running) p :=
    ((Own.refl s p).setLocal _ _ _).setStage _
  exact ⟨hown.inv hs rfl rfl ((hs.status p).awake_ok hstage hwait hstatus),
    fun hset t => hown.settledAt rfl (hset t)⟩

omit hstage hwait [DecidableEq Owner] in
/-- A process leaves its queue and runs again. -/
theorem inv_giveUp (hs : Inv c extra s) (hp : (s.proc p).waitLock = some tag) :
    Inv c extra ((s.removeFromWaitQueue c p).setStage p .running) ∧
      ((∀ t, t ≠ tag → SettledAt c s t) →
        ∀ t, SettledAt c ((s.removeFromWaitQueue c p).setStage p .running) t) := by
  obtain ⟨⟨owner, hstage⟩, -⟩ := (hs.status p).waits tag hp
  obtain ⟨hinv, hset, ⟨woken, htouch⟩, hwait, herror, hstage'⟩ := inv_removeFromWaitQueue hs hp
  have hsleep : (s.removeFromWaitQueue c p).stage p = .sleeping tag (s.want p) owner := by
    rw [hstage', hstage]
  obtain ⟨hinv', hset'⟩ := inv_awake_error hsleep hwait hinv (by rw [herror]; simp)
  refine ⟨hinv', fun hall => hset' fun t => ?_⟩
  by_cases ht : t = tag
  · subst ht
    exact hset
  · exact htouch.settledAt ht (hs.object t) (hall t ht)

end Awake

/-! ### `LockAcquire` -/

variable [DecidableEq P] [DecidableEq Tag] [Fintype P]

/-- `WaitOnLock`. -/
theorem Entered.inv_waitOnLock [DecidableEq Owner] (h : Entered c extra s s₁ p tag e)
    (hs : Inv c extra s) (hlocal : (s.locallock p tag mode).nLocks = 0) (owner : Option Owner) :
    Inv c extra (s₁.waitOnLock c p tag mode owner (e.request mode)).1 ∧
      (s₁.waitOnLock c p tag mode owner (e.request mode)).2 ≠ .error .recoveryConflict ∧
      ((∀ t, SettledAt c s t) →
        ((∀ t, SettledAt c (s₁.waitOnLock c p tag mode owner (e.request mode)).1 t) ↔
          ((s₁.waitOnLock c p tag mode owner (e.request mode)).2 = .asleep →
            Opposed c s p tag mode))) := by
  unfold waitOnLock
  split
  · rename_i hplace
    have hfree : e.checkConflicts (c.conflicts tag) p mode = true := by
      unfold placeFor at hplace
      split at hplace
      · cases hplace
      · exact findPlace_grant hplace
    obtain ⟨hinv, hset⟩ := h.inv_grant hs hlocal hfree owner
    refine ⟨hinv, by simp, fun hall => iff_of_true (hset hall) fun hasleep => ?_⟩
    cases hasleep
  rename_i i earlyDeadlock hplace
  obtain ⟨hi, hwhy⟩ : i ≤ e.lock.waitProcs.length ∧ (earlyDeadlock = true ∨
      i = e.lock.waitProcs.length ∨ e.checkConflicts (c.conflicts tag) p mode = false ∨
      ∃ q ∈ e.lock.waitProcs.take i, (s.proc q).waitLockMode ∈ c.conflicts tag mode) := by
    unfold placeFor at hplace
    split at hplace
    · injection hplace with hi _
      subst hi
      exact ⟨le_rfl, .inr (.inl rfl)⟩
    obtain ⟨hi, hcases⟩ := findPlace_behind hplace
    refine ⟨hi, ?_⟩
    rw [h.proc] at hcases
    rcases hcases with hearly | hend | hopp | hempty | hahead
    · exact .inl hearly
    · exact .inr (.inl hend)
    · exact .inr (.inr (.inl hopp))
    · exact absurd (disjoint_empty_right _) hempty
    · exact .inr (.inr (.inr hahead))
  obtain ⟨s₂, hs₂⟩ : ∃ s₂, ((s₁.setProc p
    { waitLock := some tag, waitLockMode := mode, waitStatus := .waiting,
      heldLocks := e.holdMask p }).putEntry tag ((e.request mode).enqueue p mode i)).setStage p
        (.sleeping tag mode owner) = s₂ := ⟨_, rfl⟩
  obtain ⟨hinv, htouch, hwait, hstage, hset⟩ := h.inv_enqueue hs hlocal hi owner hs₂
  have hne : (∀ t, SettledAt c s t) → ∀ t, t ≠ tag → SettledAt c s₂ t := fun hall t ht =>
    htouch.settledAt ht (hs.object t) (hall t)
  simp only [request_holdMask, hs₂]
  cases hearly : earlyDeadlock with
  | true =>
    obtain ⟨hinv', hset'⟩ := inv_giveUp hinv hwait
    refine ⟨hinv', by simp, fun hall => iff_of_true (hset' (hne hall)) fun hasleep => ?_⟩
    cases hasleep
  | false =>
    rw [hearly] at hwhy
    refine ⟨hinv, by simp, fun hall => ?_⟩
    have hiff : SettledAt c s₂ tag ↔ Opposed c s p tag mode := by
      refine (hset (hall tag)).trans ⟨?_, ?_⟩
      · rintro (hheld | ⟨q, hq, hconf⟩)
        · exact .inl hheld
        · exact .inr ⟨q, mem_of_mem_take hq, hconf⟩
      intro hopp
      rcases hwhy with habs | hend | hheld | ⟨q, hq, hconf⟩
      · cases habs
      · rw [h.queue] at hend
        rcases hopp with hheld | ⟨q, hq, hconf⟩
        · exact .inl hheld
        refine .inr ⟨q, ?_, hconf⟩
        rw [hend, take_length]
        exact hq
      · refine .inl ?_
        rw [← Bool.not_eq_true, h.good.checkConflicts_iff, h.hold] at hheld
        push Not at hheld
        exact hheld
      · rw [h.queue] at hq
        exact .inr ⟨q, hq, hconf⟩
    rw [← hiff]
    constructor
    · intro hset₂ _
      exact hset₂ tag
    intro hset₂ t
    by_cases ht : t = tag
    · subst ht
      exact hset₂ rfl
    · exact hne hall t ht

omit [DecidableEq P] [DecidableEq Tag] in
theorem good_new (conflicts : Fin n → Finset (Fin n)) (want : P → Fin n)
    {proclock : P → Option (PROCLOCK n)} (h : ∀ q, proclock q = none) :
    Good conflicts want 0 { lock := LOCK.new, proclock := proclock } := by
  have hhold : ∀ q, holdMask { lock := LOCK.new, proclock := proclock } q = ∅ :=
    fun q => holdMask_of_none (h q)
  refine ⟨?_, fun _ => rfl, ?_, ?_, ?_, ?_, ?_, nodup_nil, ?_, ?_, ?_⟩
  · intro m
    refine (Nat.eq_zero_of_not_pos fun hpos => ?_).symm
    obtain ⟨q, hq⟩ := holders_pos.1 hpos
    rw [hhold] at hq
    exact notMem_empty _ hq
  · exact sum_const_zero.symm
  · exact sum_const_zero.symm
  · exact fun m => iff_of_false (notMem_empty m) (lt_irrefl 0)
  · exact fun q hq => absurd hq not_mem_nil
  · exact fun m hm => absurd hm (notMem_empty m)
  · exact fun q hq => absurd hq not_mem_nil
  · exact fun q hq => absurd hq not_mem_nil
  intro q₁ q₂ _ m hm
  rw [hhold] at hm
  exact absurd hm (notMem_empty m)

omit [DecidableEq P] [DecidableEq Tag] in
/-- The object that `LockAcquire` finds or creates. -/
theorem good_getD (hs : Inv c extra s) (tag : Tag) : Good (c.conflicts tag) s.want (extra tag)
        { lock := (s.lock tag).getD .new, proclock := s.proclock tag } ∧
      ((s.lock tag).getD .new).waitProcs = s.queue tag := by
  cases hlock : s.lock tag with
  | none =>
    obtain ⟨hextra, hnone⟩ := (hs.object tag).absent hlock
    refine ⟨?_, ?_⟩
    · rw [hextra]
      exact good_new _ _ hnone
    · rw [queue_of_none hlock]
      rfl
  | some lock => exact ⟨(hs.object tag).good lock hlock, (queue_of_some hlock).symm⟩

omit [DecidableEq P] [DecidableEq Tag] in
/-- The process has its `PROCLOCK` already ... -/
theorem entered_of_some (hs : Inv c extra s) (hrun : s.stage p = .running)
    (hsome : (s.proclock tag p).isSome = true) :
    Entered c extra s s p tag
      { lock := (s.lock tag).getD .new, proclock := s.proclock tag } where
  own := Own.refl s p
  proc := rfl
  locallock := rfl
  stage := rfl
  running := hrun
  good := (good_getD hs tag).1
  hold := rfl
  marked := rfl
  known := hsome
  same := fun _ _ => rfl
  queue := (good_getD hs tag).2
  list := fun t => by
    rw [(hs.listed p).mem]
    refine ⟨.inr, ?_⟩
    rintro (rfl | h)
    · exact hsome
    · exact h
  nodup := (hs.listed p).nodup

omit [DecidableEq Tag] in
/-- ... or it gets one. -/
theorem entered_of_none (hs : Inv c extra s) (hrun : s.stage p = .running)
    (hnone : s.proclock tag p = none) :
    Entered c extra s (s.setMyProcLocks p (s.myProcLocks p ++ [tag])) p tag
      (enter { lock := (s.lock tag).getD .new, proclock := s.proclock tag } p) := by
  have hnot : tag ∉ s.myProcLocks p := by
    rw [(hs.listed p).mem, hnone]
    exact Bool.false_ne_true
  have hlist : (s.setMyProcLocks p (s.myProcLocks p ++ [tag])).myProcLocks p
      = s.myProcLocks p ++ [tag] := update_self _ _ _
  obtain ⟨hgood, hqueue⟩ := good_getD hs tag
  exact
    { own := (Own.refl s p).setMyProcLocks _
      proc := rfl
      locallock := rfl
      stage := rfl
      running := hrun
      good := hgood.enter p
      hold := enter_holdMask
      marked := by
        rw [marked_of_none hnone, releaseMask, enter]
        simp only [hnone, update_self]
      known := enter_isSome
      same := fun q hq => enter_proclock_of_ne hq
      queue := by
        rw [← hqueue, enter]
        simp only [hnone]
      list := fun t => by
        rw [hlist, List.mem_append, List.mem_singleton, (hs.listed p).mem]
        exact or_comm
      nodup := by
        rw [hlist]
        refine (List.nodup_append).2 ⟨(hs.listed p).nodup, List.nodup_singleton tag, ?_⟩
        intro t ht t' ht' heq
        rw [List.mem_singleton.1 ht'] at heq
        exact hnot (heq ▸ ht) }

omit [DecidableEq P] [Fintype P] in
theorem unrequest_request : (e.request mode).unrequest mode = e := by simp [request, unrequest]

variable [DecidableEq Owner] {ev : Event P Tag M Owner n} {r : Request Tag Owner n}

/-- What an acquisition does to the table, given how it ends. -/
def Acquired (c : LockMethods Tag M n) (extra : Tag → Fin n → Nat) (s : State P Tag M Owner n)
    (p : P) (r : Request Tag Owner n) (result : State P Tag M Owner n × Outcome) : Prop :=
  Inv c (extra + if result.2 = .error .recoveryConflict then Pi.single r.tag (one r.mode) else 0)
      result.1 ∧
    ((∀ t, SettledAt c s t) → ((∀ t, SettledAt c result.1 t) ↔
      (result.2 = .asleep → Opposed c s p r.tag r.mode)))

omit [DecidableEq P] [DecidableEq Owner] in
/-- An acquisition that neither sleeps nor leaves a request behind. -/
theorem acquired_of {result : State P Tag M Owner n × Outcome}
    (hrecovery : result.2 ≠ .error .recoveryConflict) (hasleep : result.2 ≠ .asleep)
    (hinv : Inv c extra result.1) (hset : (∀ t, SettledAt c s t) → ∀ t, SettledAt c result.1 t) :
    Acquired c extra s p r result := by
  refine ⟨?_, fun hall => iff_of_true (hset hall) fun h => absurd h hasleep⟩
  rw [if_neg hrecovery]
  exact hinv

theorem acquired_shared (h : Entered c extra s s₁ p r.tag e)
    (hs : Inv c extra s) (hlocal : (s.locallock p r.tag r.mode).nLocks = 0) :
    Acquired c extra s p r (s₁.acquireShared c p r e) := by
  unfold acquireShared
  simp only []
  split
  · rename_i hheld
    exact absurd hheld (h.fresh hs hlocal)
  split
  · rename_i hfree
    obtain ⟨hinv, hset⟩ := h.inv_grant hs hlocal hfree.2 (ownerOf c r.tag r.sessionLock r.owner)
    exact acquired_of (by simp) (by simp) hinv hset
  rename_i hfound
  have hpos : 0 < e.lock.nRequested := h.nRequested_pos r.mode hfound
  obtain ⟨hkeep, hdrop⟩ := h.inv_notAvail hs hpos
  have hsettled : ∀ {s₂ : State P Tag M Owner n} {e₂ : Entry P n},
      Touches s (s₂.putEntry r.tag e₂) p r.tag [] → s₂.want = s.want →
      e₂.holdMask = e.holdMask → e₂.lock.waitProcs = e.lock.waitProcs →
      (∀ t, SettledAt c s t) → ∀ t, SettledAt c (s₂.putEntry r.tag e₂) t := by
    intro s₂ e₂ htouch hwant hhold hqueue hall
    refine htouch.settled_all hs hall ?_
    rw [settledAt_putEntry, hwant, hhold, hqueue, h.hold, h.queue]
    exact hall _
  split
  · split
    · rename_i hempty
      obtain ⟨hinv, htouch⟩ := hdrop hempty
      have hsame : ((e.request r.mode).forget p).unrequest r.mode = e.forget p := by
        show ((e.request r.mode).unrequest r.mode).forget p = e.forget p
        rw [unrequest_request]
      rw [hsame]
      have hset := hsettled htouch h.want (forget_holdMask hempty) rfl
      exact acquired_of (by simp) (by simp) hinv hset
    rename_i hne
    obtain ⟨hinv, htouch⟩ := hkeep hne
    rw [unrequest_request]
    exact acquired_of (by simp) (by simp) hinv (hsettled htouch h.want rfl rfl)
  split
  · obtain ⟨hinv, hset⟩ := h.inv_abandon hs r.mode rfl
    refine ⟨?_, fun hall => iff_of_true (hset hall) (by simp)⟩
    exact hinv
  obtain ⟨hinv, hno, hset⟩ := h.inv_waitOnLock hs hlocal (ownerOf c r.tag r.sessionLock r.owner)
  refine ⟨?_, hset⟩
  rw [if_neg hno]
  exact hinv

/-- `LockAcquire` keeps the invariant, with the requests that it leaves behind. -/
theorem acquired_lockAcquire (hs : Inv c extra s) (hrun : s.stage p = .running)
    (r : Request Tag Owner n) : Acquired c extra s p r (s.lockAcquire c p r) := by
  have hp₀ := hs.status p
  have hmemory : ∀ outcome : Outcome,
      outcome = (if r.reportMemoryError = true then .error .outOfMemory else .notAvail) →
      outcome ≠ .error .recoveryConflict ∧ outcome ≠ .asleep := by
    rintro outcome rfl
    cases r.reportMemoryError with
    | _ => exact ⟨by simp, by simp⟩
  unfold lockAcquire
  simp only []
  split
  · rename_i hlocal
    have hown : Own s (s.grantLockLocal p r.tag r.mode
        (ownerOf c r.tag r.sessionLock r.owner)) p := (Own.refl s p).setLocal _ _ _
    refine acquired_of (by simp) (by simp) (hown.inv hs rfl rfl ?_)
      fun hall t => hown.settledAt rfl (hall t)
    refine Status.of_running hrun (hp₀.waitLock_of_running hrun) (hp₀.marked_of_running hrun)
      fun t m => ?_
    refine (hp₀.hold_of_running hrun t m).trans ?_
    by_cases htm : t = r.tag ∧ m = r.mode
    · obtain ⟨rfl, rfl⟩ := htm
      rw [grantLockLocal, setLocal_self]
      exact iff_of_true hlocal (Nat.succ_pos _)
    · rw [grantLockLocal, setLocal_of_ne htm]
  rename_i hzero
  have hlocal : (s.locallock p r.tag r.mode).nLocks = 0 := Nat.eq_zero_of_not_pos hzero
  split
  · obtain ⟨h₁, h₂⟩ := hmemory _ rfl
    exact acquired_of h₁ h₂ hs fun hall => hall
  split
  swap
  · rename_i proclock hsome
    exact acquired_shared (entered_of_some hs hrun (by rw [hsome]; rfl)) hs hlocal
  rename_i hnone
  split
  swap
  · exact acquired_shared (entered_of_none hs hrun hnone) hs hlocal
  obtain ⟨h₁, h₂⟩ := hmemory _ rfl
  have hsame : (if ((s.lock r.tag).getD .new).nRequested = 0
      then s.put r.tag none (s.proclock r.tag) [] else s) = s := by
    split
    swap
    · rfl
    rename_i hreq
    cases hlock : s.lock r.tag with
    | none =>
      obtain ⟨lock, proclock, locallock, proc, myProcLocks, stage⟩ := s
      simp only [put, ← hlock, update_eq_self]
      rfl
    | some lock =>
      rw [hlock] at hreq
      have := (hs.object r.tag).live lock hlock
      simp only [getD_some] at hreq
      omega
  rw [hsame]
  exact acquired_of h₁ h₂ hs fun hall => hall

/-! ### Other orders of the queues -/

omit [DecidableEq Owner] in
/-- A queue is put into another order and scanned. -/
theorem inv_reorder (hs : Inv c extra s) {lock : LOCK P n} (hlock : s.lock tag = some lock)
    {order : List P} (hperm : order.Perm lock.waitProcs) {e' : Entry P n} {woken : List P}
    (hscan : procLockWakeup (c.conflicts tag) s.want
      { lock := { lock with waitProcs := order }, proclock := s.proclock tag } = (e', woken))
    (p : P) :
    Keeps c extra s (s.put tag (some e'.lock) e'.proclock woken) := by
  have hobj := hs.object tag
  have hgood : Good (c.conflicts tag) s.want (extra tag)
      { lock := { lock with waitProcs := order }, proclock := s.proclock tag } :=
    (hobj.good lock hlock).reorder hperm
  obtain ⟨hgood', hsettled, hwoke⟩ := hgood.procLockWakeup (c.conflicts_symm tag)
  rw [hscan] at hgood' hsettled hwoke
  have hwaits : ∀ q, q ∈ order ↔ (s.proc q).waitLock = some tag := by
    intro q
    rw [hperm.mem_iff, ← hobj.queued q, queue_of_some hlock]
  have hunmoved : ∀ q, q ∉ woken →
      Unmoved s (s.put tag (some e'.lock) e'.proclock woken) tag q := by
    intro q hq
    refine ⟨if_neg hq, ?_, rfl, rfl, rfl⟩
    rw [put_proclock, hwoke.same q hq]
  have hawakened : ∀ q ∈ woken, Awakened s (s.put tag (some e'.lock) e'.proclock woken) tag q := by
    intro q hq
    have hmem := hwoke.sub q hq
    obtain ⟨proclock, hsome⟩ := isSome_iff_exists.1 (hgood.known q hmem)
    have hsome : s.proclock tag q = some proclock := hsome
    refine ⟨(hwaits q).1 hmem, if_pos hq, ⟨proclock, hsome, ?_⟩, rfl, rfl, rfl⟩
    rw [put_proclock, hwoke.given q hq]
    show (s.proclock tag q).map _ = _
    rw [hsome]
    rfl
  have hmoved := fun q => (em (q ∈ woken)).symm.imp (hunmoved q) (hawakened q)
  have hne : ∀ t, t ≠ tag →
      (s.put tag (some e'.lock) e'.proclock woken).proclock t = s.proclock t :=
    fun t ht => update_of_ne ht _ _
  have htouch : Touches s (s.put tag (some e'.lock) e'.proclock woken) p tag woken := by
    refine ⟨fun t ht => update_of_ne ht _ _, hne, ?_, fun t _ _ => by rw [put_want],
      fun q _ hq => hunmoved q hq, fun q hq _ => hawakened q hq⟩
    intro t ht
    rw [put_waitLock]
    refine and_iff_left_of_imp fun hp hmem => ht ?_
    exact Option.some.inj (hp.symm.trans (hawakened p hmem).waited)
  have hobject : Object c extra (s.put tag (some e'.lock) e'.proclock woken) tag := by
    refine ⟨?_, ?_, ?_, ?_, fun q hq => hobj.moved (hmoved q) hq⟩
    · intro lock₁ h₁
      rw [put_lock] at h₁
      cases h₁
      rw [put_proclock, put_want]
      exact hgood'
    · intro lock₁ h₁
      rw [put_lock] at h₁
      cases h₁
      rw [hwoke.nRequested]
      exact hobj.live lock hlock
    · intro h₁
      rw [put_lock] at h₁
      cases h₁
    intro q
    rw [queue_of_some put_lock, hwoke.queue, put_waitLock]
    exact and_congr_left' (hwaits q)
  have hstatus := (hs.status p).moved (hmoved p) fun t ht => congrFun (hne t ht) p
  have hlisted := (hs.listed p).moved (hmoved p) fun t ht => congrFun (hne t ht) p
  exact ⟨hs.touches htouch (fun _ _ => rfl) hobject hstatus hlisted, fun hall =>
    htouch.settled_all hs hall (settledAt_put.2 hsettled)⟩

omit [DecidableEq Owner] in
theorem inv_rearrange (p : P) {orders : List (Tag × List P)} (hs : Inv c extra s)
    (h : s.rearrange c orders = some s') : Keeps c extra s s' := by
  induction orders generalizing s with
  | nil =>
    cases h
    exact ⟨hs, id⟩
  | cons first orders ih =>
    obtain ⟨tag, order⟩ := first
    rw [rearrange] at h
    cases hlock : s.lock tag with
    | none =>
      rw [entry_of_none hlock] at h
      cases h
    | some lock =>
      simp only [entry_of_some hlock] at h
      split_ifs at h with hperm
      obtain ⟨hinv, hset⟩ := inv_reorder hs hlock hperm rfl p
      obtain ⟨hinv', hset'⟩ := ih hinv h
      exact ⟨hinv', fun hall => hset' (hset hall)⟩

/-! ### Any step -/

/-- The requests that a step leaves to nobody. -/
def charge (c : LockMethods Tag M n) (s : State P Tag M Owner n) :
    Event P Tag M Owner n → Tag → Fin n → Nat
  | .acquire p r =>
    if (s.lockAcquire c p r).2 = .error .recoveryConflict then Pi.single r.tag (one r.mode) else 0
  | _ => 0

/-- The step puts a process to sleep whose request conflicts with nothing. -/
def Misled (c : LockMethods Tag M n) (s : State P Tag M Owner n) : Event P Tag M Owner n → Prop
  | .acquire p r => (s.lockAcquire c p r).2 = .asleep ∧ ¬ Opposed c s p r.tag r.mode
  | _ => False

theorem stepped_of (hcharge : charge c s ev = 0) (hmisled : ¬ Misled c s ev)
    (h : Keeps c extra s s') :
    Inv c (extra + charge c s ev) s' ∧
      ((∀ t, SettledAt c s t) → ((∀ t, SettledAt c s' t) ↔ ¬ Misled c s ev)) := by
  rw [hcharge]
  exact ⟨h.1, fun hall => iff_of_true (h.2 hall) hmisled⟩

/-- What every step keeps. -/
theorem inv_step [DecidableEq M] (hs : Inv c extra s)
    (hstep : step c s ev = some s') :
    Inv c (extra + charge c s ev) s' ∧
      ((∀ t, SettledAt c s t) → ((∀ t, SettledAt c s' t) ↔ ¬ Misled c s ev)) := by
  cases ev <;> rw [step] at hstep
  case acquire p r =>
    split at hstep
    · rename_i hrun
      cases hstep
      obtain ⟨hinv, hset⟩ := acquired_lockAcquire hs hrun r
      refine ⟨hinv, fun hall => (hset hall).trans ?_⟩
      show _ ↔ ¬ ((s.lockAcquire c p r).2 = .asleep ∧ ¬ Opposed c s p r.tag r.mode)
      rw [not_and, not_not]
    · cases hstep
  case release p tag mode sessionLock owner =>
    split at hstep
    · rename_i hrun
      cases hstep
      exact stepped_of rfl id (inv_lockRelease hs hrun mode (ownerOf c tag sessionLock owner))
    · cases hstep
  case releaseAll p method allLocks =>
    split at hstep
    · rename_i hrun
      cases hstep
      exact stepped_of rfl id (inv_releaseLocal hs hrun method allLocks)
    · cases hstep
  case releasePartition p =>
    split at hstep
    · rename_i method allLocks partition hstage
      cases hstep
      exact stepped_of rfl id (inv_releasePartition hs hstage)
    · cases hstep
  case awake p =>
    split at hstep
    swap
    · cases hstep
    rename_i tag mode owner hstage
    -- a process that is still in its queue has the status that it waits
    have hwait : ∀ status, (s.proc p).waitStatus = status → status ≠ .waiting →
        (s.proc p).waitLock = none := by
      intro status hstatus hne
      cases hwait : (s.proc p).waitLock with
      | none => rfl
      | some t => exact absurd (hstatus.symm.trans ((hs.status p).waits t hwait).2) hne
    split at hstep
    · cases hstep
    · rename_i hok
      cases hstep
      exact stepped_of rfl id (inv_awake_ok hstage (hwait _ hok (by simp)) hs hok)
    rename_i herror
    cases hstep
    exact stepped_of rfl id (inv_awake_error hstage (hwait _ herror (by simp)) hs
      (by rw [herror]; simp))
  case cancel p =>
    split at hstep
    swap
    · cases hstep
    rename_i tag mode owner hstage
    split at hstep
    · rename_i hne
      cases hstep
      obtain ⟨t, hwait⟩ := ne_none_iff_exists'.1 hne
      obtain ⟨hinv, hset⟩ := inv_giveUp hs hwait
      exact stepped_of rfl id ⟨hinv, fun hall => hset fun t _ => hall t⟩
    rename_i hnone
    have hwait : (s.proc p).waitLock = none := not_not.1 hnone
    split at hstep
    · rename_i hok
      cases hstep
      exact stepped_of rfl id (inv_awake_ok hstage hwait hs hok)
    rename_i hok
    cases hstep
    exact stepped_of rfl id (inv_awake_error hstage hwait hs hok)
  case hardDeadlock p =>
    split at hstep
    · split_ifs at hstep with hne
      cases hstep
      obtain ⟨tag, hwait⟩ := ne_none_iff_exists'.1 hne
      obtain ⟨hinv, hset, ⟨woken, htouch⟩, -⟩ := inv_removeFromWaitQueue hs hwait
      exact stepped_of rfl id ⟨hinv, fun hall => htouch.settled_all hs hall hset⟩
    · cases hstep
  case rearrange p orders =>
    split at hstep
    · split_ifs at hstep
      exact stepped_of rfl id (inv_rearrange p hs hstep)
    · cases hstep

end PrlPg.Locks
