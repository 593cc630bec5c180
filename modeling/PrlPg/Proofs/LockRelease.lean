/-
Giving locks up one by one: `RemoveFromWaitQueue` and `LockRelease`.

Each of them leaves the invariant in place and every queue settled.  A queue that is not
scanned was not affected: the mode that was given up conflicts with no mode that is waited
for, and conflicts are symmetric.
-/
import PrlPg.Proofs.LockSections

namespace PrlPg.Locks

open Finset Function State Entry

variable {P Tag M Owner : Type*} {n : Nat} {c : LockMethods Tag M n}
  {s s' : State P Tag M Owner n} {p : P} {tag : Tag} {extra : Tag → Fin n → Nat}

/-! ### A process that runs -/

namespace Status

theorem not_given (h : s.stage p = .running) (t : Tag) (mode : Fin n) : ¬ s.Given p t mode := by
  rintro ⟨⟨owner, hstage⟩, -⟩
  rw [h] at hstage
  cases hstage

section

variable (h : Status c s p)
include h

theorem waitLock_of_running (hrun : s.stage p = .running) : (s.proc p).waitLock = none := by
  cases hwait : (s.proc p).waitLock with
  | none => rfl
  | some t =>
    obtain ⟨⟨owner, hstage⟩, -⟩ := h.waits t hwait
    rw [hrun] at hstage
    cases hstage

theorem marked_of_stage (hstage : ∀ method allLocks partition, s.stage p ≠ .releasing method allLocks partition)
    (t : Tag) : s.marked t p = ∅ := by
  refine eq_empty_iff_forall_notMem.2 fun mode hmode => ?_
  obtain ⟨-, allLocks, partition, heq, -⟩ := h.marked t mode hmode
  exact hstage _ _ _ heq

theorem marked_of_running (hrun : s.stage p = .running) (t : Tag) : s.marked t p = ∅ :=
  h.marked_of_stage (fun _ _ _ heq => by rw [hrun] at heq; cases heq) t

theorem hold_of_running (hrun : s.stage p = .running) (t : Tag)
    (mode : Fin n) : mode ∈ s.hold t p ↔ 0 < (s.locallock p t mode).nLocks := by
  rw [h.held t mode, h.marked_of_running hrun t]
  have := not_given hrun t mode
  tauto

end

/-- A process that runs has what its local table says. -/
theorem of_running (hrun : s.stage p = .running) (hwait : (s.proc p).waitLock = none)
    (hmarked : ∀ t, s.marked t p = ∅)
    (hheld : ∀ t mode, mode ∈ s.hold t p ↔ 0 < (s.locallock p t mode).nLocks) :
    Status c s p where
  held := by
    intro t mode
    rw [hheld, hmarked]
    have := not_given hrun t mode
    tauto
  marked := fun t mode hmode => by
    rw [hmarked] at hmode
    exact absurd hmode (notMem_empty _)
  cleared := fun t partition heq => by
    rw [hrun] at heq
    cases heq
  waits := fun t heq => by
    rw [hwait] at heq
    cases heq
  sleeps := fun t mode owner heq => by
    rw [hrun] at heq
    cases heq

end Status

variable [Fintype P]

/-- The object that a process waits for. -/
theorem Object.exists_lock (h : Object c extra s tag) (hp : (s.proc p).waitLock = some tag) :
    ∃ lock, s.lock tag = some lock ∧ p ∈ lock.waitProcs := by
  have hmem := (h.queued p).2 hp
  cases hlock : s.lock tag with
  | none =>
    rw [queue_of_none hlock] at hmem
    cases hmem
  | some lock =>
    rw [queue_of_some hlock] at hmem
    exact ⟨lock, rfl, hmem⟩

variable {mode : Fin n}

/-- The object that a process holds. -/
theorem Object.exists_lock_of_hold (h : Object c extra s tag)
    (hp : mode ∈ s.hold tag p) : ∃ lock, s.lock tag = some lock := by
  cases hlock : s.lock tag with
  | none =>
    have hsome := isSome_of_mem_hold hp
    rw [(h.absent hlock).2 p] at hsome
    cases hsome
  | some lock => exact ⟨lock, rfl⟩

variable [DecidableEq P] [DecidableEq Tag]

/-! ### `RemoveFromWaitQueue` -/

/-- A process leaves its queue with an error. -/
theorem inv_removeFromWaitQueue (hs : Inv c extra s) (hp : (s.proc p).waitLock = some tag) :
    Inv c extra (s.removeFromWaitQueue c p) ∧ SettledAt c (s.removeFromWaitQueue c p) tag ∧
      (∃ woken, Touches s (s.removeFromWaitQueue c p) p tag woken) ∧
      ((s.removeFromWaitQueue c p).proc p).waitLock = none ∧
      ((s.removeFromWaitQueue c p).proc p).waitStatus = .error ∧
      (s.removeFromWaitQueue c p).stage = s.stage := by
  obtain ⟨lock, hlock, hmem⟩ := (hs.object tag).exists_lock hp
  have hgood := (hs.object tag).good lock hlock
  have heq : s.removeFromWaitQueue c p
      = (s.setProc p { s.proc p with waitLock := none, waitStatus := .error }).cleanUpLock c p tag
        (leave ⟨lock, s.proclock tag⟩ p (s.want p)) true := by
    rw [removeFromWaitQueue, hp]
    simp only [entry_of_some hlock]
    rfl
  set s₁ := s.setProc p { s.proc p with waitLock := none, waitStatus := .error } with hs₁
  set e := leave ⟨lock, s.proclock tag⟩ p (s.want p) with he
  have hproc : s₁.proc p = { s.proc p with waitLock := none, waitStatus := .error } :=
    update_self _ _ _
  have hproc_ne : ∀ q, q ≠ p → s₁.proc q = s.proc q := fun q hq => update_of_ne hq _ _
  have hwant : s₁.want = s.want := by
    funext q
    by_cases hq : q = p
    · subst hq
      rw [want, hproc]
      rfl
    · rw [want, want, hproc_ne q hq]
  have hcleans : CleansUp s s₁ c extra p tag e :=
    { own := (Own.refl s p).setProc _
      list := rfl
      before := fun t ht => Option.some.inj (ht.symm.trans hp)
      after := by rw [hproc]
      want := hwant
      good := by
        rw [hwant]
        exact hgood.leave hmem
      known := hgood.known p hmem
      listed := hgood.known p hmem
      queue := by
        intro q
        show q ∈ lock.waitProcs.erase p ↔ _
        rw [hgood.nodup.mem_erase_iff]
        by_cases hq : q = p
        · subst hq
          rw [hproc]
          exact iff_of_false (fun hand => hand.1 rfl) (Option.some_ne_none _).symm
        · rw [hproc_ne q hq, ← (hs.object tag).queued q, queue_of_some hlock]
          exact and_iff_right hq
      proclock := fun q _ => rfl }
  obtain ⟨hhold, hmarked, -, hne, hproc', hlocal, hstage⟩ := hcleans.own_after true
  rw [← heq] at hhold hmarked hne hproc' hlocal hstage
  have hp₀ := hs.status p
  obtain ⟨⟨owner, hsleep⟩, -⟩ := hp₀.waits tag hp
  have hnomark : ∀ t, s.marked t p = ∅ :=
    hp₀.marked_of_stage fun _ _ _ h => by rw [hsleep] at h; cases h
  have hhold' : ∀ t, (s.removeFromWaitQueue c p).hold t p = s.hold t p := by
    intro t
    by_cases ht : t = tag
    · subst ht
      exact hhold
    · exact hold_congr (hne t ht)
  have hmarked' : ∀ t, (s.removeFromWaitQueue c p).marked t p = ∅ := by
    intro t
    by_cases ht : t = tag
    · subst ht
      have hsub : (s.removeFromWaitQueue c p).marked t p ⊆ s.marked t p := hmarked
      rw [hnomark t] at hsub
      exact subset_empty.1 hsub
    · rw [marked_congr (hne t ht), hnomark t]
  have hstatus : Status c (s.removeFromWaitQueue c p) p := by
    refine ⟨?_, ?_, ?_, ?_, ?_⟩
    · intro t mode
      have hheld := hp₀.held t mode
      have hgiven : ¬ s.Given p t mode := by
        rintro ⟨-, hnone, -⟩
        rw [hp] at hnone
        exact Option.some_ne_none _ hnone
      have hgiven' : ¬ (s.removeFromWaitQueue c p).Given p t mode := by
        rintro ⟨-, -, hok⟩
        rw [hproc', hproc] at hok
        cases hok
      rw [hhold', hmarked', hlocal, hheld, hnomark]
      tauto
    · intro t mode hmode
      rw [hmarked'] at hmode
      exact absurd hmode (notMem_empty _)
    · rw [hstage, hlocal]
      exact hp₀.cleared
    · intro t ht
      rw [hproc', hproc] at ht
      cases ht
    · rw [hstage, hlocal]
      exact hp₀.sleeps
  rw [heq] at hstatus
  obtain ⟨hinv, hsettled, htouch⟩ := hcleans.inv hs _ hstatus
  rw [← heq] at hinv hsettled htouch
  refine ⟨hinv, hsettled (.inl rfl), htouch, ?_, ?_, hstage⟩
  · rw [hproc', hproc]
  · rw [hproc', hproc]

/-! ### `LockRelease` -/

omit [DecidableEq P] [DecidableEq Tag] in
/-- A mode that conflicts with no mode in `waitMask` keeps nobody waiting. -/
theorem Good.not_awaited {want : P → Fin n} {x : Fin n → Nat} {e : Entry P n}
    (h : Good (c.conflicts tag) want x e) (hwake : e.mustWake (c.conflicts tag) mode = false) :
    ∀ q ∈ e.lock.waitProcs, mode ∉ c.conflicts tag (want q) := by
  intro q hq hmem
  have hdisj : Disjoint (c.conflicts tag mode) e.lock.waitMask := by simpa [mustWake] using hwake
  exact disjoint_left.1 hdisj (c.conflicts_symm tag _ _ hmem) (h.waited q hq)

omit [Fintype P] in
theorem setLocal_self (mode : Fin n) (locallock : LOCALLOCK Owner) :
    (s.setLocal p tag mode locallock).locallock p tag mode = locallock := by
  simp [setLocal]

omit [Fintype P] in
theorem setLocal_of_ne {locallock : LOCALLOCK Owner} {t : Tag} {m : Fin n}
    (h : ¬ (t = tag ∧ m = mode)) :
    (s.setLocal p tag mode locallock).locallock p t m = s.locallock p t m := by
  simp only [setLocal, update_self]
  by_cases ht : t = tag
  · subst ht
    have hm : m ≠ mode := fun hm => h ⟨rfl, hm⟩
    simp [hm]
  · simp [ht]

omit [Fintype P] [DecidableEq P] [DecidableEq Tag] in
theorem LOCALLOCK.release_some [DecidableEq Owner] {locallock locallock' : LOCALLOCK Owner} {owner : Option Owner}
    (h : locallock.release owner = some locallock') : locallock.nLocks = locallock'.nLocks + 1 := by
  unfold LOCALLOCK.release at h
  split at h
  · cases h
  rename_i lockOwners hdrop
  cases h
  have := (LOCALLOCK.of_dropHold locallock.pos hdrop).1
  have := locallock.total
  show locallock.nLocks = locallock.nLocks - 1 + 1
  omega

section

variable (hs : Inv c extra s) (hrun : s.stage p = .running)
include hs hrun

/-- The last hold of a mode is given up. -/
theorem inv_release {lock : LOCK P n} (hlock : s.lock tag = some lock) (hmode : mode ∈ s.hold tag p) :
    Keeps c extra s ((s.setLocal p tag mode .empty).cleanUpLock c p tag
      (unGrantLock ⟨lock, s.proclock tag⟩ p mode)
      (mustWake (c.conflicts tag) ⟨lock, s.proclock tag⟩ mode)) := by
  have hgood := (hs.object tag).good lock hlock
  have hp₀ := hs.status p
  have hwait := hp₀.waitLock_of_running hrun
  set e : Entry P n := ⟨lock, s.proclock tag⟩ with he
  have hhold₀ : e.holdMask p = s.hold tag p := rfl
  have hsome : (s.proclock tag p).isSome = true := isSome_of_mem_hold hmode
  have hmask : (e.unGrantLock p mode).holdMask
      = update e.holdMask p ((e.holdMask p).erase mode) := unGrantLock_holdMask
  have hcleans : CleansUp s (s.setLocal p tag mode .empty) c extra p tag (e.unGrantLock p mode) :=
    { own := (Own.refl s p).setLocal _ _ _
      list := rfl
      before := fun t ht => by
        rw [hwait] at ht
        cases ht
      after := hwait
      want := rfl
      good := hgood.unGrantLock hmode
      known := by
        rw [unGrantLock_isSome]
        exact hsome
      listed := hsome
      queue := fun q => by
        show q ∈ lock.waitProcs ↔ (s.proc q).waitLock = some tag
        rw [← (hs.object tag).queued q, queue_of_some hlock]
      proclock := fun q hq => unGrantLock_proclock_of_ne hq }
  set wakeupNeeded := e.mustWake (c.conflicts tag) mode with hwake
  set s₁ := (s.setLocal p tag mode .empty).cleanUpLock c p tag (e.unGrantLock p mode) wakeupNeeded
    with hs₁
  obtain ⟨hhold, hmarked, -, hne, hproc, hlocal, hstage⟩ := hcleans.own_after wakeupNeeded
  have hstatus : Status c s₁ p := by
    refine Status.of_running ?_ ?_ ?_ ?_
    · rw [hstage]
      exact hrun
    · rw [hproc]
      exact hwait
    · intro t
      by_cases ht : t = tag
      · subst ht
        have hrel : (e.unGrantLock p mode).releaseMask p = s.marked t p := unGrantLock_releaseMask
        rw [hrel, hp₀.marked_of_running hrun t] at hmarked
        exact subset_empty.1 hmarked
      · rw [marked_congr (hne t ht), hp₀.marked_of_running hrun t]
    intro t m
    have hheld := hp₀.hold_of_running hrun t m
    rw [hlocal]
    by_cases ht : t = tag
    swap
    · rw [hold_congr (hne t ht), hheld, setLocal_of_ne fun hand => ht hand.1]
    subst ht
    rw [hhold, hmask, update_self, mem_erase, hhold₀, hheld]
    by_cases hm : m = mode
    · subst hm
      rw [setLocal_self]
      exact iff_of_false (fun hand => hand.1 rfl) (lt_irrefl 0)
    · rw [setLocal_of_ne fun hand => hm hand.2]
      exact and_iff_right hm
  obtain ⟨hinv, hsettled, woken, htouch⟩ := hcleans.inv hs _ hstatus
  refine ⟨hinv, fun hset => htouch.settled_all hs hset (hsettled ?_)⟩
  cases hneeded : wakeupNeeded with
  | true => exact .inl rfl
  | false =>
    refine .inr ?_
    rw [hmask]
    refine Settled.of_release ?_ (hgood.not_awaited hneeded)
    have hold := hset tag
    unfold SettledAt at hold
    rw [queue_of_some hlock] at hold
    exact hold

/-- `LockRelease` keeps the invariant and leaves the queues settled. -/
theorem inv_lockRelease [DecidableEq Owner] (mode : Fin n) (owner : Option Owner) :
    Keeps c extra s (s.lockRelease c p tag mode owner).1 := by
  have hp₀ := hs.status p
  unfold lockRelease
  split
  · exact ⟨hs, fun hset => hset⟩
  rename_i locallock hrelease
  have hcount := LOCALLOCK.release_some hrelease
  have hmode : mode ∈ s.hold tag p := by
    rw [hp₀.hold_of_running hrun]
    omega
  split
  · rename_i hpos
    have hown : Own s (s.setLocal p tag mode locallock) p := (Own.refl s p).setLocal _ _ _
    refine ⟨hown.inv hs rfl rfl (Status.of_running hrun (hp₀.waitLock_of_running hrun)
      (hp₀.marked_of_running hrun) ?_), fun hset t => hown.settledAt rfl (hset t)⟩
    intro t m
    have hheld : m ∈ s.hold t p ↔ 0 < (s.locallock p t m).nLocks := hp₀.hold_of_running hrun t m
    show m ∈ s.hold t p ↔ _
    rw [hheld]
    by_cases htm : t = tag ∧ m = mode
    · obtain ⟨rfl, rfl⟩ := htm
      rw [setLocal_self]
      omega
    · rw [setLocal_of_ne htm]
  obtain ⟨lock, hlock⟩ := (hs.object tag).exists_lock_of_hold hmode
  have hentry : (s.setLocal p tag mode .empty).entry tag = some ⟨lock, s.proclock tag⟩ :=
    entry_of_some hlock
  have hmem : mode ∈ holdMask ⟨lock, s.proclock tag⟩ p := hmode
  simp only [hentry, if_pos hmem]
  exact inv_release hs hrun hlock hmode

end

end PrlPg.Locks
