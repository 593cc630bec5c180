/-
`LockAcquire`: taking a lock at once, giving up, or joining the queue.

A process that joins the queue is blocked there, if the modes in `waitMask` are those that
somebody waits for.  If they are not, because a request was counted and then forgotten, the
process may find itself in a queue without anything to wait for (`Unopposed`).
-/
import PrlPg.Proofs.LockReleaseAll

namespace PrlPg.Locks

open Function Option List State Entry Bool

variable {P Tag M Owner : Type*} {n : Nat} {c : LockMethods Tag M n}
  {s s₀ s₁ : State P Tag M Owner n} {p : P} {tag : Tag} {extra extra' : Tag → Fin n → Nat}
  {mode : Fin n} {e : Entry P n}

variable [DecidableEq P] [DecidableEq Tag]

/-! ### Storing an object -/

theorem putEntry_proclock_of_ne {t : Tag} (ht : t ≠ tag) :
    (s.putEntry tag e).proclock t = s.proclock t := update_of_ne ht _ _

theorem putEntry_proc : (s.putEntry tag e).proc = s.proc := rfl

theorem putEntry_hold : (s.putEntry tag e).hold tag = e.holdMask := by
  funext q
  rw [hold, putEntry, put_proclock]
  rfl

theorem putEntry_marked : (s.putEntry tag e).marked tag p = e.releaseMask p := by
  rw [marked, putEntry, put_proclock]
  rfl

theorem settledAt_putEntry : SettledAt c (s.putEntry tag e) tag
      ↔ Settled (c.conflicts tag) s.want e.holdMask e.lock.waitProcs :=
  settledAt_put

/-- What a process that runs has after it has changed one object. -/
theorem status_putEntry (hown : Own s₀ s p) (hp : Status c s₀ p) (hrun : s₀.stage p = .running)
    (hstage : s.stage p = .running) (hproc : s.proc p = s₀.proc p)
    (hlocal : ∀ t, t ≠ tag → ∀ m, s.locallock p t m = s₀.locallock p t m)
    (hmarked : e.releaseMask p = ∅)
    (hhold : ∀ m, m ∈ e.holdMask p ↔ 0 < (s.locallock p tag m).nLocks) :
    Status c (s.putEntry tag e) p := by
  have hne : ∀ t, t ≠ tag → (s.putEntry tag e).proclock t p = s₀.proclock t p := by
    intro t ht
    rw [putEntry_proclock_of_ne ht, hown.proclock]
  refine Status.of_running hstage ?_ (fun t => ?_) fun t m => ?_
  · rw [putEntry_proc, hproc]
    exact hp.waitLock_of_running hrun
  · by_cases ht : t = tag
    · subst ht
      rw [putEntry_marked, hmarked]
    · rw [marked_congr (hne t ht), hp.marked_of_running hrun]
  show _ ↔ 0 < (s.locallock p t m).nLocks
  by_cases ht : t = tag
  · subst ht
    rw [putEntry_hold]
    exact hhold m
  · rw [hold_congr (hne t ht), hlocal t ht m]
    exact hp.hold_of_running hrun t m

variable [Fintype P]

/-- An object is stored after `p`, which did not wait, has changed it. -/
theorem Own.inv_putEntry (hown : Own s₀ s p) (hs : Inv c extra s₀)
    (hbefore : (s₀.proc p).waitLock = none) (hafter : ∀ t, (s.proc p).waitLock = some t → t = tag)
    (hsame : ∀ q, q ≠ p → e.proclock q = s₀.proclock tag q)
    (hgood : Good (c.conflicts tag) s.want (extra' tag) e) (hpos : 0 < e.lock.nRequested)
    (hqueue : ∀ q, q ∈ e.lock.waitProcs ↔ (s.proc q).waitLock = some tag)
    (hextra : ∀ t, t ≠ tag → extra' t = extra t) (hmono : extra tag ≠ 0 → extra' tag ≠ 0)
    (hneeded : (e.proclock p).isSome = true →
      e.holdMask p ≠ ∅ ∨ (s.proc p).waitLock = some tag ∨ extra' tag ≠ 0)
    (hlist : ∀ t, t ∈ s.myProcLocks p
      ↔ if t = tag then (e.proclock p).isSome = true else (s₀.proclock t p).isSome = true)
    (hnodup : (s.myProcLocks p).Nodup) (hstatus : Status c (s.putEntry tag e) p) :
    Inv c extra' (s.putEntry tag e) ∧ Touches s₀ (s.putEntry tag e) p tag [] := by
  have htouch : Touches s₀ (s.putEntry tag e) p tag [] := by
    refine hown.put ?_ hafter not_mem_nil (fun q hq _ => hsame q hq) ?_
    · intro t ht
      rw [hbefore] at ht
      cases ht
    · exact fun q hq => absurd hq not_mem_nil
  refine ⟨hs.touches htouch hextra ?_ hstatus ?_, htouch⟩
  · refine ⟨?_, ?_, ?_, ?_, ?_⟩
    · intro lock hlock
      rw [putEntry, put_lock] at hlock
      cases hlock
      rw [putEntry, put_proclock]
      exact hgood
    · intro lock hlock
      rw [putEntry, put_lock] at hlock
      cases hlock
      exact hpos
    · intro hlock
      rw [putEntry, put_lock] at hlock
      cases hlock
    · intro q
      rw [putEntry, queue_of_some put_lock]
      exact hqueue q
    intro q hq
    by_cases hqp : q = p
    · subst hqp
      rw [putEntry, put_proclock] at hq
      rw [putEntry_hold]
      exact hneeded hq
    rcases (hs.object tag).moved (htouch.moved hqp) hq with hne | hwait | hne
    · exact .inl hne
    · exact .inr (.inl hwait)
    · exact .inr (.inr (hmono hne))
  refine ⟨fun t => ?_, hnodup⟩
  refine (hlist t).trans ?_
  by_cases ht : t = tag
  · subst ht
    rw [if_pos rfl, putEntry, put_proclock]
  · rw [if_neg ht, putEntry_proclock_of_ne ht, hown.proclock]

/-! ### The object and its `PROCLOCK` are there -/

/-- A process that runs has found or created the object and its `PROCLOCK`. -/
structure Entered (c : LockMethods Tag M n) (extra : Tag → Fin n → Nat)
    (s s₁ : State P Tag M Owner n) (p : P) (tag : Tag) (e : Entry P n) : Prop where
  own : Own s s₁ p
  proc : s₁.proc = s.proc
  locallock : s₁.locallock = s.locallock
  stage : s₁.stage = s.stage
  running : s.stage p = .running
  good : Good (c.conflicts tag) s.want (extra tag) e
  hold : e.holdMask = s.hold tag
  marked : e.releaseMask p = s.marked tag p
  known : (e.proclock p).isSome = true
  same : ∀ q, q ≠ p → e.proclock q = s.proclock tag q
  queue : e.lock.waitProcs = s.queue tag
  list : ∀ t, t ∈ s₁.myProcLocks p ↔ t = tag ∨ (s.proclock t p).isSome = true
  nodup : (s₁.myProcLocks p).Nodup

namespace Entered

variable (h : Entered c extra s s₁ p tag e)
include h

omit [DecidableEq P] in
theorem mem_list {isSome : Bool} (hsome : isSome = true) (t : Tag) :
    t ∈ s₁.myProcLocks p ↔ if t = tag then isSome = true else (s.proclock t p).isSome = true := by
  rw [h.list]
  split_ifs with ht
  · exact iff_of_true (.inl ht) hsome
  · exact or_iff_right ht

section

omit [DecidableEq P] [DecidableEq Tag]

theorem want : s₁.want = s.want := by
  funext q
  rw [State.want, State.want, h.proc]

/-- An object on which the request conflicts with something has requests. -/
theorem nRequested_pos (mode : Fin n) (hfound : ¬ (Disjoint (c.conflicts tag mode) e.lock.waitMask ∧
      e.checkConflicts (c.conflicts tag) p mode = true)) [DecidableEq P] :
    0 < e.lock.nRequested := by
  have hpos : ∀ m, 0 < e.lock.requested m → 0 < e.lock.nRequested := by
    intro m hm
    rw [h.good.nRequested]
    exact lt_of_lt_of_le hm (Finset.single_le_sum (f := e.lock.requested)
      (fun _ _ => Nat.zero_le _) (Finset.mem_univ m))
  by_cases hdisj : Disjoint (c.conflicts tag mode) e.lock.waitMask
  swap
  · obtain ⟨m, -, hm⟩ := Finset.not_disjoint_iff.1 hdisj
    exact hpos m (lt_of_le_of_lt (Nat.zero_le _) (h.good.pending m hm))
  have hcheck : ¬ e.checkConflicts (c.conflicts tag) p mode = true :=
    fun hcheck => hfound ⟨hdisj, hcheck⟩
  rw [h.good.checkConflicts_iff] at hcheck
  push Not at hcheck
  obtain ⟨q, -, m, hm, -⟩ := hcheck
  have hholders : 0 < e.lock.granted m := by
    rw [h.good.granted]
    exact holders_pos.2 ⟨q, hm⟩
  exact hpos m (lt_of_lt_of_le hholders (h.good.granted_le m))

variable (hs : Inv c extra s)
include hs

theorem mem_queue (q : P) : q ∈ e.lock.waitProcs ↔ (s₁.proc q).waitLock = some tag := by
  rw [h.queue, h.proc]
  exact (hs.object tag).queued q

theorem not_waiting (t : Tag) : ¬ (s₁.proc p).waitLock = some t := by
  rw [h.proc, (hs.status p).waitLock_of_running h.running]
  exact (some_ne_none _).symm

theorem notMem : p ∉ e.lock.waitProcs := by
  rw [h.mem_queue hs]
  exact h.not_waiting hs tag

theorem fresh (hlocal : (s.locallock p tag mode).nLocks = 0) : mode ∉ e.holdMask p := by
  rw [h.hold, (hs.status p).hold_of_running h.running, hlocal]
  exact lt_irrefl 0

end

variable (hs : Inv c extra s)
include hs

/-- Nothing was changed after all, or the `PROCLOCK` is dropped again. -/
theorem inv_notAvail (hpos : 0 < e.lock.nRequested) :
    (e.holdMask p ≠ ∅ → Inv c extra (s₁.putEntry tag e) ∧ Touches s (s₁.putEntry tag e) p tag []) ∧
    (e.holdMask p = ∅ →
      Inv c extra ((s₁.setMyProcLocks p ((s₁.myProcLocks p).erase tag)).putEntry tag (e.forget p)) ∧
      Touches s ((s₁.setMyProcLocks p ((s₁.myProcLocks p).erase tag)).putEntry tag
        (e.forget p)) p tag []) := by
  have hp₀ := hs.status p
  have hwait := hp₀.waitLock_of_running h.running
  refine ⟨fun hne => ?_, fun hempty => ?_⟩
  · refine h.own.inv_putEntry hs hwait (fun t ht => absurd ht (h.not_waiting hs t)) h.same
      (by rw [h.want]; exact h.good) hpos (h.mem_queue hs) (fun _ _ => rfl) (fun hx => hx)
      (fun _ => .inl hne) (h.mem_list h.known) h.nodup ?_
    refine status_putEntry h.own hp₀ h.running (by rw [h.stage]; exact h.running)
      (congrFun h.proc p) (fun t _ m => by rw [h.locallock]) ?_ fun m => ?_
    · rw [h.marked, hp₀.marked_of_running h.running]
    · rw [h.hold, h.locallock]
      exact hp₀.hold_of_running h.running tag m
  have hown := h.own.setMyProcLocks ((s₁.myProcLocks p).erase tag)
  set s₂ := s₁.setMyProcLocks p ((s₁.myProcLocks p).erase tag) with hs₂
  have hlist : s₂.myProcLocks p = (s₁.myProcLocks p).erase tag := update_self _ _ _
  have hgone : (e.forget p).proclock p = none := update_self _ _ _
  refine hown.inv_putEntry hs hwait (fun t ht => absurd ht (h.not_waiting hs t)) ?_ (by
      have := h.good.forget hempty (h.notMem hs)
      rw [← h.want] at this
      exact this)
    hpos (h.mem_queue hs) (fun _ _ => rfl) (fun hx => hx) ?_ ?_ ?_ ?_
  · intro q hq
    rw [← h.same q hq]
    exact update_of_ne hq _ _
  · intro hsome
    rw [hgone] at hsome
    cases hsome
  · intro t
    rw [hlist, hgone]
    by_cases ht : t = tag
    · subst ht
      rw [if_pos rfl]
      exact iff_of_false h.nodup.not_mem_erase false_ne_true
    · rw [if_neg ht, mem_erase_of_ne ht, h.list]
      exact or_iff_right ht
  · rw [hlist]
    exact h.nodup.erase tag
  refine status_putEntry hown hp₀ h.running (by rw [← h.running, ← h.stage]; rfl)
    (congrFun h.proc p) (fun t _ m => congrFun (congrFun (congrFun h.locallock p) t) m) ?_
    fun m => ?_
  · rw [releaseMask, hgone]
  rw [forget_holdMask hempty, h.hold]
  show _ ↔ 0 < (s₁.locallock p tag m).nLocks
  rw [h.locallock]
  exact hp₀.hold_of_running h.running tag m

/-- The request is granted. -/
theorem inv_grant [DecidableEq Owner] (hlocal : (s.locallock p tag mode).nLocks = 0)
    (hfree : e.checkConflicts (c.conflicts tag) p mode = true) (owner : Option Owner) :
    Keeps c extra s
      ((s₁.putEntry tag ((e.request mode).grantLock p mode)).grantLockLocal p tag mode owner) := by
  have hp₀ := hs.status p
  have hwait := hp₀.waitLock_of_running h.running
  have hmask : ((e.request mode).grantLock p mode).holdMask
      = update e.holdMask p (insert mode (e.holdMask p)) :=
    grantLock_holdMask h.known
  have hself : ((e.request mode).grantLock p mode).holdMask p = insert mode (e.holdMask p) := by
    rw [hmask, update_self]
  have hproclock : ((e.request mode).grantLock p mode).proclock p
      = (e.proclock p).map fun proclock =>
        { proclock with holdMask := insert mode proclock.holdMask } := modifyProcLock_self
  have hsome : (((e.request mode).grantLock p mode).proclock p).isSome = true := by
    rw [hproclock, isSome_map]
    exact h.known
  have hgood : Good (c.conflicts tag) s₁.want (extra tag) ((e.request mode).grantLock p mode) := by
    rw [h.want]
    exact (h.good.request mode).grantLock (c.conflicts_symm tag) (h.notMem hs)
      (h.fresh hs hlocal) h.known hfree
  set locallock := (s.locallock p tag mode).grant owner with hgrant
  have hown : Own s (s₁.setLocal p tag mode locallock) p := h.own.setLocal _ _ _
  have hstate : (s₁.putEntry tag ((e.request mode).grantLock p mode)).grantLockLocal p tag mode
      owner = (s₁.setLocal p tag mode locallock).putEntry tag
        ((e.request mode).grantLock p mode) := by
    rw [hgrant, ← h.locallock]
    rfl
  rw [hstate]
  obtain ⟨hinv, htouch⟩ : Inv c extra ((s₁.setLocal p tag mode locallock).putEntry tag
        ((e.request mode).grantLock p mode)) ∧
      Touches s ((s₁.setLocal p tag mode locallock).putEntry tag
        ((e.request mode).grantLock p mode)) p tag [] := by
    refine hown.inv_putEntry hs hwait (fun t ht => absurd ht (h.not_waiting hs t)) ?_ hgood
      (Nat.succ_pos _) (h.mem_queue hs) (fun _ _ => rfl) (fun hx => hx) ?_ (h.mem_list hsome)
      h.nodup ?_
    · intro q hq
      rw [← h.same q hq]
      exact modifyProcLock_of_ne hq
    · intro _
      rw [hself]
      exact .inl (Finset.insert_ne_empty _ _)
    refine status_putEntry hown hp₀ h.running (by rw [← h.running, ← h.stage]; rfl)
      (congrFun h.proc p) (fun t ht m => ?_) ?_ fun m => ?_
    · rw [setLocal_of_ne fun hand => ht hand.1, h.locallock]
    · rw [releaseMask, hproclock, ← hp₀.marked_of_running h.running tag, ← h.marked, releaseMask]
      cases e.proclock p with
      | none => rfl
      | some proclock => rfl
    rw [hself, Finset.mem_insert, h.hold, hp₀.hold_of_running h.running]
    by_cases hm : m = mode
    · subst hm
      rw [setLocal_self]
      exact iff_of_true (.inl rfl) (Nat.succ_pos _)
    · rw [setLocal_of_ne fun hand => hm hand.2, h.locallock]
      exact or_iff_right hm
  refine ⟨hinv, fun hset => htouch.settled_all hs hset (settledAt_putEntry.mpr ?_)⟩
  have hold := hset tag
  unfold SettledAt at hold
  rw [← h.queue, ← h.hold, ← h.want] at hold
  refine Settled.mono hold fun q => ?_
  rw [hmask]
  by_cases hq : q = p
  · subst hq
    rw [update_self]
    exact Finset.subset_insert _ _
  · rw [update_of_ne hq]

/-- The request is counted and then nobody cares for it any more. -/
theorem inv_abandon (mode : Fin n) (hextra : extra' = extra + Pi.single tag (one mode)) :
    Keeps c extra' s (s₁.putEntry tag (e.request mode)) := by
  have hp₀ := hs.status p
  have hwait := hp₀.waitLock_of_running h.running
  have htag : extra' tag = extra tag + one mode := by rw [hextra, Pi.add_apply, Pi.single_eq_same]
  have hpos : extra' tag ≠ 0 := by
    intro hzero
    have hmode := congrFun hzero mode
    rw [htag, Pi.add_apply, one_self] at hmode
    exact absurd hmode (Nat.succ_ne_zero _)
  obtain ⟨hinv, htouch⟩ : Inv c extra' (s₁.putEntry tag (e.request mode)) ∧
      Touches s (s₁.putEntry tag (e.request mode)) p tag [] := by
    refine h.own.inv_putEntry hs hwait (fun t ht => absurd ht (h.not_waiting hs t)) h.same ?_
      (Nat.succ_pos _) (h.mem_queue hs) ?_ (fun _ => hpos) (fun _ => .inr (.inr hpos))
      (h.mem_list h.known) h.nodup ?_
    · rw [h.want, htag]
      exact h.good.request mode
    · intro t ht
      rw [hextra, Pi.add_apply, Pi.single_eq_of_ne ht, add_zero]
    refine status_putEntry h.own hp₀ h.running (by rw [h.stage]; exact h.running)
      (congrFun h.proc p) (fun t _ m => by rw [h.locallock]) ?_ fun m => ?_
    · show e.releaseMask p = ∅
      rw [h.marked, hp₀.marked_of_running h.running]
    · rw [request_holdMask, h.hold, h.locallock]
      exact hp₀.hold_of_running h.running tag m
  refine ⟨hinv, fun hset => htouch.settled_all hs hset ?_⟩
  have hold := hset tag
  unfold SettledAt at hold
  rw [← h.queue, ← h.hold, ← h.want] at hold
  exact settledAt_putEntry.mpr hold

/-- The process joins the queue and sleeps. -/
theorem inv_enqueue (hlocal : (s.locallock p tag mode).nLocks = 0) {i : Nat}
    (hi : i ≤ e.lock.waitProcs.length) (owner : Option Owner) {s₂ : State P Tag M Owner n}
    (hs₂ : ((s₁.setProc p
      { waitLock := some tag, waitLockMode := mode, waitStatus := .waiting,
        heldLocks := e.holdMask p }).putEntry tag ((e.request mode).enqueue p mode i)).setStage p
          (.sleeping tag mode owner) = s₂) :
    Inv c extra s₂ ∧ Touches s s₂ p tag [] ∧ (s₂.proc p).waitLock = some tag ∧
      s₂.stage p = .sleeping tag mode owner ∧
      (SettledAt c s tag → (SettledAt c s₂ tag ↔
        (∃ q, q ≠ p ∧ ∃ m ∈ s.hold tag q, m ∈ c.conflicts tag mode) ∨
          ∃ q ∈ (s.queue tag).take i, s.want q ∈ c.conflicts tag mode)) := by
  have hp₀ := hs.status p
  have hwait := hp₀.waitLock_of_running h.running
  set proc : PGPROC Tag n :=
    { waitLock := some tag, waitLockMode := mode, waitStatus := .waiting,
      heldLocks := e.holdMask p } with hproc
  have hown : Own s ((s₁.setProc p proc).setStage p (.sleeping tag mode owner)) p :=
    (h.own.setProc proc).setStage _
  have hstate : s₂ = ((s₁.setProc p proc).setStage p (.sleeping tag mode owner)).putEntry tag
      ((e.request mode).enqueue p mode i) := hs₂.symm
  set s₃ := (s₁.setProc p proc).setStage p (.sleeping tag mode owner) with hs₃
  have hproc₃ : s₃.proc p = proc := update_self _ _ _
  have hproc_ne : ∀ q, q ≠ p → s₃.proc q = s.proc q := hown.proc
  have hwant : s₃.want p = mode := by rw [State.want, hproc₃]
  have hwant_ne : ∀ q, q ≠ p → s₃.want q = s.want q := by
    intro q hq
    rw [State.want, State.want, hproc_ne q hq]
  have hstage : s₃.stage p = .sleeping tag mode owner := update_self _ _ _
  have hne : ∀ q ∈ e.lock.waitProcs, q ≠ p := fun q hq heq => h.notMem hs (heq ▸ hq)
  have hgood : Good (c.conflicts tag) s₃.want (extra tag) ((e.request mode).enqueue p mode i) := by
    refine Good.enqueue ((h.good.request mode).congr fun q hq => hwant_ne q (hne q hq)) hwant hi
      (h.notMem hs) (h.fresh hs hlocal) h.known
  have hperm : (e.lock.waitProcs.insertIdx i p).Perm (p :: e.lock.waitProcs) :=
    perm_insertIdx p _ hi
  have hmarked : ∀ t, (s₃.putEntry tag ((e.request mode).enqueue p mode i)).marked t p = ∅ := by
    intro t
    rw [← hp₀.marked_of_running h.running t]
    by_cases ht : t = tag
    · subst ht
      rw [putEntry_marked, ← h.marked]
      rfl
    · refine State.marked_congr ?_
      rw [putEntry_proclock_of_ne ht, hown.proclock]
  have hhold : ∀ t, (s₃.putEntry tag ((e.request mode).enqueue p mode i)).hold t = s.hold t := by
    intro t
    by_cases ht : t = tag
    · subst ht
      rw [putEntry_hold, ← h.hold]
      rfl
    funext q
    refine State.hold_congr ?_
    rw [putEntry_proclock_of_ne ht, hown.proclock]
  have hlocal₃ : s₃.locallock = s.locallock := h.locallock
  obtain ⟨hinv, htouch⟩ : Inv c extra (s₃.putEntry tag ((e.request mode).enqueue p mode i)) ∧
      Touches s (s₃.putEntry tag ((e.request mode).enqueue p mode i)) p tag [] := by
    refine hown.inv_putEntry hs hwait ?_ h.same hgood (Nat.succ_pos _) ?_ (fun _ _ => rfl)
      (fun hx => hx) ?_ (h.mem_list h.known) h.nodup ?_
    · intro t ht
      rw [hproc₃] at ht
      exact (some.inj ht).symm
    · intro q
      show q ∈ e.lock.waitProcs.insertIdx i p ↔ _
      rw [hperm.mem_iff, mem_cons]
      by_cases hq : q = p
      · subst hq
        rw [hproc₃]
        exact iff_of_true (.inl rfl) rfl
      · rw [hproc_ne q hq, ← h.proc, ← h.mem_queue hs]
        exact or_iff_right hq
    · intro _
      rw [hproc₃]
      exact .inr (.inl rfl)
    refine ⟨?_, ?_, ?_, ?_, ?_⟩
    · intro t m
      have hgiven : ¬ (s₃.putEntry tag ((e.request mode).enqueue p mode i)).Given p t m := by
        rintro ⟨-, hnone, -⟩
        rw [putEntry_proc, hproc₃] at hnone
        exact some_ne_none _ hnone
      have hrunning := hp₀.hold_of_running h.running t m
      rw [hhold, hmarked]
      show _ ↔ 0 < (s₃.locallock p t m).nLocks ∨ _
      rw [hlocal₃]
      tauto
    · intro t m hm
      rw [hmarked] at hm
      exact absurd hm (Finset.notMem_empty _)
    · intro t k heq
      exact absurd (hstage.symm.trans heq) (by simp)
    · intro t ht
      rw [putEntry_proc, hproc₃] at ht
      cases ht
      rw [putEntry_proc, hproc₃, putEntry, put_want, hwant]
      exact ⟨⟨owner, hstage⟩, rfl⟩
    intro t m owner' heq
    have heq := hstage.symm.trans heq
    injection heq with ht hm _
    subst ht hm
    show (s₃.locallock p tag mode).nLocks = 0
    rw [hlocal₃]
    exact hlocal
  rw [hstate]
  refine ⟨hinv, htouch, ?_, hstage, fun hset => ?_⟩
  · rw [putEntry_proc, hproc₃]
  rw [settledAt_putEntry]
  show Settled _ _ e.holdMask (e.lock.waitProcs.insertIdx i p) ↔ _
  unfold SettledAt at hset
  rw [insertIdx_eq_take_append p hi, h.hold, h.queue]
  have hblocked : Blocked (c.conflicts tag) s₃.want (s.hold tag) ((s.queue tag).take i) p ↔
      (∃ q, q ≠ p ∧ ∃ m ∈ s.hold tag q, m ∈ c.conflicts tag mode) ∨
        ∃ q ∈ (s.queue tag).take i, s.want q ∈ c.conflicts tag mode := by
    unfold Blocked
    rw [hwant]
    refine or_congr_right (exists_congr fun q => and_congr_right fun hq => ?_)
    rw [hwant_ne q (hne q (h.queue ▸ mem_of_mem_take hq))]
  rw [← hblocked]
  constructor
  · intro hall
    exact hall _ p _ rfl
  intro hp
  refine Settled.insert ?_ hp
  rw [take_append_drop]
  exact hset.congr fun q hq => hwant_ne q (hne q (h.queue ▸ hq))

end Entered

end PrlPg.Locks
