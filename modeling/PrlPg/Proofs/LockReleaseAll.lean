/-
`LockReleaseAll`.

It first goes through the local table and marks what is to be released, and then through the
partitions.  Between two partitions the process holds modes that its local table does not
have any more; those are the marked ones, and they are on objects of partitions that are
still to come.
-/
import PrlPg.Proofs.LockRelease

namespace PrlPg.Locks

open Function List Option State Entry Bool

variable {P Tag M Owner : Type*} {n : Nat} {c : LockMethods Tag M n}
  {s s' : State P Tag M Owner n} {p : P} {tag : Tag} {extra : Tag → Fin n → Nat}

/-! ### The local table -/

variable {allLocks : Bool} {partition : Nat} {method : M}

/-- A process in `LockReleaseAll` was not awakened ... -/
theorem Status.not_given_of_releasing (hstage : s.stage p = .releasing method allLocks partition)
    (t : Tag) (mode : Fin n) :
    ¬ s.Given p t mode := by
  rintro ⟨⟨owner, heq⟩, -⟩
  rw [hstage] at heq
  cases heq

/-- ... and does not wait. -/
theorem Status.waitLock_of_releasing (h : Status c s p)
    (hstage : s.stage p = .releasing method allLocks partition) :
    (s.proc p).waitLock = none := by
  cases hwait : (s.proc p).waitLock with
  | none => rfl
  | some t =>
    obtain ⟨⟨owner, heq⟩, -⟩ := h.waits t hwait
    rw [hstage] at heq
    cases heq

/-- What `LockReleaseAll` keeps of a local entry was there before. -/
theorem LOCALLOCK.kept_pos (locallock : LOCALLOCK Owner) (allLocks : Bool)
    (h : 0 < (locallock.kept allLocks).nLocks) : allLocks = false ∧ 0 < locallock.nLocks := by
  unfold LOCALLOCK.kept at h
  split at h
  · exact absurd h (lt_irrefl 0)
  rename_i hall
  refine ⟨eq_false_iff.2 hall, ?_⟩
  split at h
  swap
  · exact absurd h (lt_irrefl 0)
  rename_i k hslot
  have hmem : (none, k + 1) ∈ locallock.lockOwners := by
    unfold LOCALLOCK.sessionSlot at hslot
    split at hslot
    · rename_i slot hfind
      cases hslot
      exact mem_of_mem_drop (mem_reverse.1 (mem_of_find?_eq_some hfind))
    · exact mem_of_mem_head? hslot
  rw [locallock.total]
  exact lt_of_lt_of_le k.succ_pos (le_sum_of_mem (mem_map_of_mem (f := Prod.snd) hmem))

variable [DecidableEq P] [DecidableEq M] {modes : List (Fin n)}

theorem releaseLocal_proclock (method : M) (allLocks : Bool) (t : Tag) (q : P) :
    (s.releaseLocal c p method allLocks).hold t q = s.hold t q ∧
      ((s.releaseLocal c p method allLocks).proclock t q).isSome = (s.proclock t q).isSome := by
  by_cases hq : q = p
  · subst hq
    have hself : (s.releaseLocal c q method allLocks).proclock t q
        = (s.proclock t q).map fun proclock =>
          { proclock with
            releaseMask := proclock.releaseMask ∪ Finset.univ.filter fun mode =>
              c.method t = method ∧ 0 < (s.locallock q t mode).nLocks ∧
                ((s.locallock q t mode).kept allLocks).nLocks = 0 } :=
      update_self _ _ _
    rw [hold, hold, hself, isSome_map]
    refine ⟨?_, rfl⟩
    cases s.proclock t q with
    | none => rfl
    | some proclock => rfl
  have hne : (s.releaseLocal c p method allLocks).proclock t q = s.proclock t q :=
    update_of_ne hq _ _
  rw [hne]
  exact ⟨hold_congr hne, rfl⟩

theorem releaseLocal_marked (method : M) (allLocks : Bool) (t : Tag) (mode : Fin n)
    (hsome : (s.proclock t p).isSome = true) :
    mode ∈ (s.releaseLocal c p method allLocks).marked t p ↔ mode ∈ s.marked t p ∨
      (c.method t = method ∧ 0 < (s.locallock p t mode).nLocks ∧
        ((s.locallock p t mode).kept allLocks).nLocks = 0) := by
  obtain ⟨proclock, hproclock⟩ := isSome_iff_exists.1 hsome
  have hself : (s.releaseLocal c p method allLocks).proclock t p = some
      { proclock with
        releaseMask := proclock.releaseMask ∪ Finset.univ.filter fun mode =>
          c.method t = method ∧ 0 < (s.locallock p t mode).nLocks ∧
            ((s.locallock p t mode).kept allLocks).nLocks = 0 } := by
    refine (update_self _ _ _).trans ?_
    rw [hproclock]
    rfl
  rw [marked_of_some hself, marked_of_some hproclock, Finset.mem_union, Finset.mem_filter]
  exact or_congr_right (and_iff_right (Finset.mem_univ mode))

/-- The local table is cleared and what is to be released is marked. -/
theorem inv_releaseLocal [Fintype P] (hs : Inv c extra s) (hrun : s.stage p = .running)
    (method : M) (allLocks : Bool) :
    Keeps c extra s
      ((s.releaseLocal c p method allLocks).setStage p (.releasing method allLocks 0)) := by
  have hp₀ := hs.status p
  set s₁ := (s.releaseLocal c p method allLocks).setStage p (.releasing method allLocks 0) with hs₁
  have hstage : s₁.stage p = .releasing method allLocks 0 := update_self _ _ _
  have hhold : ∀ t, s₁.hold t = s.hold t := fun t =>
    funext fun q => (releaseLocal_proclock method allLocks t q).1
  have hsome : ∀ t q, (s₁.proclock t q).isSome = (s.proclock t q).isSome := fun t q =>
    (releaseLocal_proclock method allLocks t q).2
  have hlocal : ∀ t mode, s₁.locallock p t mode
      = if c.method t = method then (s.locallock p t mode).kept allLocks
        else s.locallock p t mode := by
    intro t mode
    have hself : s₁.locallock p = fun t mode =>
        if c.method t = method then (s.locallock p t mode).kept allLocks
        else s.locallock p t mode := update_self _ _ _
    rw [hself]
  have hmarked : ∀ t mode, mode ∈ s₁.marked t p ↔ c.method t = method ∧
      0 < (s.locallock p t mode).nLocks ∧ ((s.locallock p t mode).kept allLocks).nLocks = 0 := by
    intro t mode
    cases hp : (s.proclock t p).isSome with
    | true =>
      refine (releaseLocal_marked method allLocks t mode hp).trans ?_
      rw [hp₀.marked_of_running hrun t]
      tauto
    | false =>
      have hnone : s₁.proclock t p = none := by
        refine not_isSome_iff_eq_none.1 ?_
        rw [hsome, hp]
        exact false_ne_true
      rw [marked_of_none hnone]
      refine iff_of_false (Finset.notMem_empty mode) ?_
      rintro ⟨-, hpos, -⟩
      rw [← hp₀.hold_of_running hrun] at hpos
      have := isSome_of_mem_hold hpos
      rw [hp] at this
      exact false_ne_true this
  refine ⟨⟨?_, ?_, ?_⟩, ?_⟩
  · intro t
    have ht := hs.object t
    refine ⟨?_, ht.live, ?_, ht.queued, ?_⟩
    · intro lock hlock
      refine (ht.good lock hlock).of_same rfl (hhold t) fun q hq => ?_
      rw [hsome]
      exact (ht.good lock hlock).known q hq
    · intro hlock
      obtain ⟨hextra, hnone⟩ := ht.absent hlock
      refine ⟨hextra, fun q => ?_⟩
      refine not_isSome_iff_eq_none.1 ?_
      rw [hsome, hnone q]
      exact false_ne_true
    intro q hq
    rw [hsome] at hq
    rw [hhold]
    exact ht.needed q hq
  · intro q
    by_cases hq : q = p
    swap
    · have hproclock : ∀ t, s₁.proclock t q = s.proclock t q := fun t => update_of_ne hq _ _
      exact (hs.status q).congr hproclock (update_of_ne hq _ _) rfl (update_of_ne hq _ _)
    subst hq
    refine ⟨?_, ?_, ?_, ?_, ?_⟩
    · intro t mode
      have hgiven := Status.not_given_of_releasing hstage t mode
      rw [hhold, hp₀.hold_of_running hrun, hmarked, hlocal]
      split_ifs with hm
      · have hkept := LOCALLOCK.kept_pos (s.locallock q t mode) allLocks
        by_cases hzero : ((s.locallock q t mode).kept allLocks).nLocks = 0
        · rw [hzero]
          tauto
        have hpos := Nat.pos_of_ne_zero hzero
        tauto
      · tauto
    · intro t mode hmode
      obtain ⟨hm, -, hzero⟩ := (hmarked t mode).1 hmode
      refine ⟨?_, allLocks, 0, ?_, Nat.zero_le _⟩
      · rw [hlocal, if_pos hm]
        exact hzero
      · rw [hstage, hm]
    · intro t partition heq mode
      rw [hstage] at heq
      injection heq with hmethod hall _
      rw [hlocal, if_pos hmethod.symm, LOCALLOCK.kept, if_pos hall]
      rfl
    · intro t heq
      exact absurd (heq.symm.trans (hp₀.waitLock_of_running hrun)) (some_ne_none _)
    intro t mode owner heq
    rw [hstage] at heq
    cases heq
  · intro q
    refine ⟨fun t => ?_, (hs.listed q).nodup⟩
    rw [hsome]
    exact (hs.listed q).mem t
  intro hset t
  unfold SettledAt
  rw [hhold]
  exact hset t

/-! ### One object -/

/-- What the release of some modes of `p` leaves of an object. -/
structure Released (conflicts : Fin n → Finset (Fin n)) (want : P → Fin n) (p : P)
    (modes : List (Fin n)) (e e' : Entry P n) (wakeupNeeded : Bool) : Prop where
  hold : ∀ m, m ∈ e'.holdMask p ↔ m ∈ e.holdMask p ∧ m ∉ modes
  queue : e'.lock.waitProcs = e.lock.waitProcs
  proclock : ∀ q, q ≠ p → e'.proclock q = e.proclock q
  isSome : (e'.proclock p).isSome = (e.proclock p).isSome
  /-- If nothing says that waiters may have to be awakened, there are none. -/
  settled : wakeupNeeded = false → Settled conflicts want e.holdMask e.lock.waitProcs →
    Settled conflicts want e'.holdMask e'.lock.waitProcs

omit [DecidableEq M] in
theorem released [Fintype P] {want : P → Fin n} {x : Fin n → Nat}
    {e : Entry P n} (wakeupNeeded : Bool) (hgood : Good (c.conflicts tag) want x e)
    (hnodup : modes.Nodup) (hheld : ∀ m ∈ modes, m ∈ e.holdMask p) :
    Good (c.conflicts tag) want x (releaseModes (c.conflicts tag) p modes e wakeupNeeded).1 ∧
      Released (c.conflicts tag) want p modes e
        (releaseModes (c.conflicts tag) p modes e wakeupNeeded).1
        (releaseModes (c.conflicts tag) p modes e wakeupNeeded).2 ∧
      (wakeupNeeded = true → (releaseModes (c.conflicts tag) p modes e wakeupNeeded).2 = true) := by
  induction modes generalizing e wakeupNeeded with
  | nil =>
    refine ⟨hgood, ⟨fun m => ?_, rfl, fun _ _ => rfl, rfl, fun _ h => h⟩, fun h => h⟩
    exact (and_iff_left not_mem_nil).symm
  | cons mode modes ih =>
    obtain ⟨hnot, hnodup⟩ := nodup_cons.1 hnodup
    have hmode : mode ∈ e.holdMask p := hheld mode (.head _)
    have hself : (e.unGrantLock p mode).holdMask p = (e.holdMask p).erase mode := by
      rw [unGrantLock_holdMask, update_self]
    have hrest : ∀ m ∈ modes, m ∈ (e.unGrantLock p mode).holdMask p := by
      intro m hm
      rw [hself]
      exact Finset.mem_erase.2 ⟨fun heq => hnot (heq ▸ hm), hheld m (.tail _ hm)⟩
    obtain ⟨hgood', hrel, hwake⟩ := ih (wakeupNeeded || e.mustWake (c.conflicts tag) mode)
      (hgood.unGrantLock hmode) hnodup hrest
    refine ⟨hgood', ⟨?_, hrel.queue, ?_, ?_, ?_⟩, ?_⟩
    · intro m
      rw [releaseModes, hrel.hold m, hself, Finset.mem_erase, mem_cons]
      tauto
    · intro q hq
      rw [releaseModes, hrel.proclock q hq, unGrantLock_proclock_of_ne hq]
    · rw [releaseModes, hrel.isSome, unGrantLock_isSome]
    · intro hno hset
      refine hrel.settled hno ?_
      have hflag : (wakeupNeeded || e.mustWake (c.conflicts tag) mode) = false := by
        refine Bool.eq_false_iff.2 fun htrue => ?_
        have := hwake htrue
        rw [releaseModes] at hno
        rw [hno] at this
        exact Bool.false_ne_true this
      rw [unGrantLock_holdMask]
      exact hset.of_release (hgood.not_awaited (Bool.or_eq_false_iff.1 hflag).2)
    · intro htrue
      exact hwake (by rw [htrue, Bool.true_or])

variable [DecidableEq Tag] [Fintype P]

/-- What is left after one object: nothing of it is marked any more. -/
def Passed (c : LockMethods Tag M n) (extra : Tag → Fin n → Nat) (p : P) (tag : Tag)
    (s s' : State P Tag M Owner n) : Prop :=
  Inv c extra s' ∧ ((∀ t, SettledAt c s t) → ∀ t, SettledAt c s' t) ∧ s'.marked tag p = ∅ ∧
    (∀ t, t ≠ tag → s'.marked t p = s.marked t p) ∧ s'.stage p = s.stage p

section

variable (hs : Inv c extra s) (hstage : s.stage p = .releasing method allLocks partition)
include hs hstage

omit [DecidableEq M] in
/-- Some modes of an object are released, so that the local table is right for it again. -/
theorem passed_releaseModes {lock : LOCK P n}
    (hlock : s.lock tag = some lock) (hsome : (s.proclock tag p).isSome = true)
    (hnodup : modes.Nodup) (hsub : ∀ m ∈ modes, m ∈ s.hold tag p)
    (hstays : ∀ m, m ∈ s.hold tag p ∧ m ∉ modes ↔ 0 < (s.locallock p tag m).nLocks) :
    Passed c extra p tag s (s.cleanUpLock c p tag ((releaseModes (c.conflicts tag) p modes
        ⟨lock, s.proclock tag⟩ false).1.modifyProcLock p
          fun proclock => { proclock with releaseMask := ∅ })
      (releaseModes (c.conflicts tag) p modes
        ⟨lock, s.proclock tag⟩ false).2) := by
  have hp₀ := hs.status p
  have hwait := hp₀.waitLock_of_releasing hstage
  obtain ⟨hgood, hrel, -⟩ := released (p := p) false ((hs.object tag).good lock hlock) hnodup hsub
  generalize releaseModes (c.conflicts tag) p modes
    ⟨lock, s.proclock tag⟩ false = r at hgood hrel ⊢
  obtain ⟨e', he', hhold', hproclock, hisSome, hqueue, hgood', hrelease⟩ : ∃ e' : Entry P n,
      r.1.modifyProcLock p (fun proclock => { proclock with releaseMask := ∅ }) = e' ∧
      e'.holdMask = r.1.holdMask ∧ (∀ q, q ≠ p → e'.proclock q = r.1.proclock q) ∧
      (e'.proclock p).isSome = (r.1.proclock p).isSome ∧
      e'.lock.waitProcs = r.1.lock.waitProcs ∧
      Good (c.conflicts tag) s.want (extra tag) e' ∧ e'.releaseMask p = ∅ := by
    refine ⟨_, rfl, modifyProcLock_holdMask fun _ => rfl,
      fun q hq => modifyProcLock_of_ne hq, ?_, rfl, hgood.modifyProcLock fun _ => rfl, ?_⟩
    · rw [modifyProcLock_self, isSome_map]
    rw [releaseMask, modifyProcLock_self]
    cases r.1.proclock p with
    | none => rfl
    | some proclock => rfl
  rw [he']
  have hcleans : CleansUp s s c extra p tag e' :=
    { own := Own.refl s p
      list := rfl
      before := fun t ht => by
        rw [hwait] at ht
        cases ht
      after := hwait
      want := rfl
      good := hgood'
      known := by rw [hisSome, hrel.isSome]; exact hsome
      listed := hsome
      queue := fun q => by rw [hqueue, hrel.queue, ← (hs.object tag).queued q, queue_of_some hlock]
      proclock := fun q hq => by rw [hproclock q hq, hrel.proclock q hq] }
  obtain ⟨hhold, hmarked, -, hne, hproc, hlocal, hstage'⟩ := hcleans.own_after r.2
  have hinv := hcleans.inv hs r.2
  generalize s.cleanUpLock c p tag e' r.2 = s₁ at hhold hmarked hne hproc hlocal hstage' hinv ⊢
  have hnone : s₁.marked tag p = ∅ := by
    rw [hrelease] at hmarked
    exact Finset.subset_empty.1 hmarked
  have hmarked_ne : ∀ t, t ≠ tag → s₁.marked t p = s.marked t p :=
    fun t ht => marked_congr (hne t ht)
  have hstatus : Status c s₁ p := by
    refine ⟨?_, ?_, ?_, ?_, ?_⟩
    · intro t m
      have hgiven₁ : ¬ s₁.Given p t m :=
        Status.not_given_of_releasing (by rw [hstage']; exact hstage) t m
      have hgiven := Status.not_given_of_releasing hstage t m
      rw [hlocal]
      by_cases ht : t = tag
      · subst ht
        have hmem : m ∈ s₁.hold t p ↔ 0 < (s.locallock p t m).nLocks := by
          rw [hhold, hhold', hrel.hold]
          exact hstays m
        rw [hmem, hnone]
        tauto
      have hheld := hp₀.held t m
      rw [hold_congr (hne t ht), hmarked_ne t ht]
      tauto
    · intro t m hm
      rw [hlocal, hstage']
      by_cases ht : t = tag
      · subst ht
        rw [hnone] at hm
        exact absurd hm (Finset.notMem_empty _)
      · rw [hmarked_ne t ht] at hm
        exact hp₀.marked t m hm
    · rw [hlocal, hstage']
      exact hp₀.cleared
    · intro t ht
      rw [hproc, hwait] at ht
      cases ht
    · rw [hlocal, hstage']
      exact hp₀.sleeps
  obtain ⟨hinv, hsettled, woken, htouch⟩ := hinv hstatus
  refine ⟨hinv, fun hset => htouch.settled_all hs hset (hsettled ?_), hnone, hmarked_ne,
    congrFun hstage' p⟩
  cases hflag : r.2 with
  | true => exact .inl rfl
  | false =>
    refine .inr ?_
    rw [hhold', hqueue]
    refine hrel.settled hflag ?_
    have hold := hset tag
    unfold SettledAt at hold
    rw [queue_of_some hlock] at hold
    exact hold

/-- One object of a partition. -/
theorem passed_releaseProcLock (tag : Tag) :
    Passed c extra p tag s (s.releaseProcLock c p method allLocks tag) := by
  have hp₀ := hs.status p
  -- where nothing is done nothing is marked
  have hskip : s.marked tag p = ∅ → Passed c extra p tag s s :=
    fun h => ⟨hs, fun hset => hset, h, fun _ _ => rfl, rfl⟩
  unfold releaseProcLock
  cases hlock : s.lock tag with
  | none =>
    simp only [entry_of_none hlock]
    exact hskip (marked_of_none (((hs.object tag).absent hlock).2 p))
  | some lock =>
    have hhold : holdMask ⟨lock, s.proclock tag⟩ p = s.hold tag p := rfl
    have hmark : releaseMask ⟨lock, s.proclock tag⟩ p = s.marked tag p := rfl
    simp only [entry_of_some hlock, hhold, hmark]
    split
    · rename_i hno
      refine hskip ?_
      rcases hno with hmethod | hnone
      · refine Finset.eq_empty_iff_forall_notMem.2 fun mode hmode => ?_
        obtain ⟨-, all, k, heq, -⟩ := hp₀.marked tag mode hmode
        rw [hstage] at heq
        injection heq with hm _ _
        exact hmethod hm.symm
      · exact marked_of_none (isNone_iff_eq_none.1 hnone)
    rename_i hgo
    obtain ⟨hmethod, hsome⟩ := not_or.1 hgo
    have hmethod : c.method tag = method := not_not.1 hmethod
    have hsome : (s.proclock tag p).isSome = true := by
      rw [isSome_iff_ne_none]
      exact fun hnone => hsome (isNone_iff_eq_none.2 hnone)
    obtain ⟨mask, hmask⟩ : ∃ mask,
        (if allLocks = true then s.hold tag p else s.marked tag p) = mask := ⟨_, rfl⟩
    simp only [hmask]
    split
    · rename_i hnothing
      refine hskip ?_
      rw [← hmask] at hnothing
      split at hnothing
      · exact absurd hnothing.1 hnothing.2
      · exact hnothing.1
    have hmem : ∀ m, m ∈ (List.finRange n).filter (fun mode => decide (mode ∈ mask))
        ↔ m ∈ mask := by
      intro m
      rw [mem_filter, decide_eq_true_iff]
      exact and_iff_right (mem_finRange m)
    refine passed_releaseModes hs hstage hlock hsome ((nodup_finRange n).filter _) ?_ ?_
    · intro m hm
      rw [hmem, ← hmask] at hm
      split at hm
      · exact hm
      · exact (hp₀.held tag m).2 (.inr (.inl hm))
    intro m
    rw [hmem, ← hmask]
    have hheld := hp₀.held tag m
    have hgiven := Status.not_given_of_releasing hstage tag m
    split
    · rename_i hall
      have hcleared := hp₀.cleared tag partition (by rw [hstage, hmethod, hall]) m
      rw [hcleared]
      exact iff_of_false (fun hand => hand.2 hand.1) (lt_irrefl 0)
    rw [hheld]
    have hnot : m ∈ s.marked tag p → ¬ 0 < (s.locallock p tag m).nLocks := fun hm => by
      rw [(hp₀.marked tag m hm).1]
      exact lt_irrefl 0
    tauto

/-! ### One partition -/

/-- The objects of a list are released one after the other. -/
theorem inv_foldl_releaseProcLock (tags : List Tag) :
    Keeps c extra s (tags.foldl (releaseProcLock c p method allLocks) s) ∧
      (∀ t, (tags.foldl (releaseProcLock c p method allLocks) s).marked t p
        ⊆ if t ∈ tags then ∅ else s.marked t p) ∧
      (tags.foldl (releaseProcLock c p method allLocks) s).stage p = s.stage p := by
  induction tags generalizing s with
  | nil =>
    refine ⟨⟨hs, id⟩, fun t => ?_, rfl⟩
    exact Finset.Subset.refl _
  | cons tag tags ih =>
    obtain ⟨hinv, hset, hnone, hne, hst⟩ := passed_releaseProcLock hs hstage tag
    obtain ⟨⟨hinv', hset'⟩, hsub, hst'⟩ := ih hinv (hst.trans hstage)
    refine ⟨⟨hinv', fun h => hset' (hset h)⟩, fun t => ?_, hst'.trans hst⟩
    refine Finset.Subset.trans (hsub t) ?_
    split
    · exact Finset.empty_subset _
    next ht =>
      by_cases htag : t = tag
      · subst htag
        rw [hnone]
        exact Finset.empty_subset _
      · rw [hne t htag, if_neg (by simpa [htag] using ht)]

/-- A partition is done; the process goes on to the next one or is finished. -/
theorem inv_releasePartition :
    Keeps c extra s ((s.releasePartition c p method allLocks partition).setStage p
      (if partition + 1 < numLockPartitions then .releasing method allLocks (partition + 1)
      else .running)) := by
  obtain ⟨⟨hinv, hset⟩, hsub, hst⟩ := inv_foldl_releaseProcLock hs hstage
    ((s.myProcLocks p).filter fun tag => decide (c.partition tag = partition))
  set s₁ := s.releasePartition c p method allLocks partition
  change Inv c extra s₁ at hinv
  change s₁.stage p = s.stage p at hst
  have hp₁ := hinv.status p
  rw [hstage] at hst
  have hlater : ∀ t, ∀ m ∈ s₁.marked t p, c.method t = method ∧ partition + 1 ≤ c.partition t := by
    intro t m hm
    have hmem := hsub t hm
    split at hmem
    · exact absurd hmem (Finset.notMem_empty _)
    rename_i hnot
    obtain ⟨-, all, k, heq, hle⟩ := hp₁.marked t m hm
    rw [hst] at heq
    injection heq with hmethod _ hk
    refine ⟨hmethod.symm, Nat.lt_of_le_of_ne (hk ▸ hle) fun hpart => hnot ?_⟩
    rw [mem_filter, (hs.listed p).mem, decide_eq_true_iff]
    refine ⟨?_, hpart.symm⟩
    cases hsome : s.proclock t p with
    | none =>
      rw [marked_of_none hsome] at hmem
      exact absurd hmem (Finset.notMem_empty _)
    | some proclock => rfl
  have hown : ∀ stage, Own s₁ (s₁.setStage p stage) p := fun stage => (Own.refl s₁ p).setStage stage
  refine ⟨(hown _).inv hinv rfl rfl ?_, fun h t => (hown _).settledAt rfl (hset h t)⟩
  have hwait := hp₁.waitLock_of_releasing hst
  have hheld : ∀ t m, m ∈ s₁.hold t p ↔ 0 < (s₁.locallock p t m).nLocks ∨ m ∈ s₁.marked t p := by
    intro t m
    have hgiven := Status.not_given_of_releasing hst t m
    rw [hp₁.held t m]
    tauto
  split_ifs with hnext
  · have hstage₂ : (s₁.setStage p (.releasing method allLocks (partition + 1))).stage p
        = .releasing method allLocks (partition + 1) := update_self _ _ _
    refine ⟨?_, ?_, ?_, ?_, ?_⟩
    · intro t m
      have hgiven := Status.not_given_of_releasing hstage₂ t m
      refine (hheld t m).trans ?_
      tauto
    · intro t m hm
      obtain ⟨hmethod, hle⟩ := hlater t m hm
      refine ⟨(hp₁.marked t m hm).1, allLocks, partition + 1, ?_, hle⟩
      rw [hstage₂, hmethod]
    · intro t k heq
      rw [hstage₂] at heq
      injection heq with hmethod hall _
      exact hp₁.cleared t partition (by rw [hst, hmethod, hall])
    · intro t ht
      exact absurd (ht.symm.trans hwait) (some_ne_none _)
    intro t m owner heq
    rw [hstage₂] at heq
    cases heq
  have hnomark : ∀ t, s₁.marked t p = ∅ := by
    intro t
    refine Finset.eq_empty_iff_forall_notMem.2 fun m hm => ?_
    have hle := (hlater t m hm).2
    have hlt : c.partition t < numLockPartitions := Nat.mod_lt _ (by decide)
    omega
  refine Status.of_running (update_self _ _ _) hwait hnomark fun t m => ?_
  refine (hheld t m).trans ?_
  rw [hnomark t]
  tauto

end

end PrlPg.Locks
