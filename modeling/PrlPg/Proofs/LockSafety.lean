/-
What the lock table guarantees after any run.

No two processes ever hold modes of one object that conflict.  The counters and masks are
exact as long as no acquisition is abandoned: `LockAcquire` counts its request, finds that it
has to wait, and only then looks whether it delays recovery; if it does, it raises an error
and the request stays counted for ever.  The mode of such a request can then stay in
`waitMask` with nobody waiting for it, and a later acquisition that conflicts with it goes to
sleep although nobody holds or waits for anything: nothing will ever awaken it.  That is the
only way in which a waiter is forgotten.
-/
import PrlPg.Proofs.LockSteps

namespace PrlPg.Locks

open Option List Finset Run State Entry

variable {P Tag M Owner : Type*} {n : Nat} {c : LockMethods Tag M n}
  {s s' : State P Tag M Owner n} {extra : Tag → Fin n → Nat}

/-! ### Exact counters -/

variable {p : P}

/-- How many processes wait for a mode of an object. -/
def waiters [Fintype P] [DecidableEq Tag] (s : State P Tag M Owner n) (tag : Tag)
    (mode : Fin n) : Nat :=
  (Finset.univ.filter fun p => (s.proc p).waitLock = some tag ∧ s.want p = mode).card

/-- Conflicting modes are not held together, and the counters and masks of every object say
who holds it and who waits for it. -/
structure Exact [Fintype P] [DecidableEq Tag] (c : LockMethods Tag M n)
    (s : State P Tag M Owner n) : Prop where
  exclusive : ∀ tag p q, p ≠ q → ∀ m ∈ s.hold tag p, ∀ m' ∈ s.hold tag q, m' ∉ c.conflicts tag m
  granted : ∀ tag lock, s.lock tag = some lock → ∀ m, lock.granted m = holders (s.hold tag) m
  requested : ∀ tag lock, s.lock tag = some lock → ∀ m,
    lock.requested m = lock.granted m + waiters s tag m
  grantMask : ∀ tag lock, s.lock tag = some lock → ∀ m, m ∈ lock.grantMask ↔ 0 < lock.granted m
  waitMask : ∀ tag lock, s.lock tag = some lock → ∀ m,
    m ∈ lock.waitMask ↔ lock.granted m < lock.requested m
  /-- There is an object just if there are requests for it. -/
  present : ∀ tag lock, s.lock tag = some lock →
    lock.nRequested = ∑ m, lock.requested m ∧ 0 < lock.nRequested
  absent : ∀ tag, s.lock tag = none → ∀ p, s.hold tag p = ∅ ∧ (s.proc p).waitLock ≠ some tag

section Exact

variable [Fintype P]

/-- Conflicting modes are not held together, abandoned requests or not. -/
theorem Inv.exclusive (hs : Inv c extra s) (tag : Tag) {q : P} (hne : p ≠ q) {m m' : Fin n}
    (hm : m ∈ s.hold tag p) (hm' : m' ∈ s.hold tag q) : m' ∉ c.conflicts tag m := by
  obtain ⟨lock, hlock⟩ := (hs.object tag).exists_lock_of_hold hm
  exact ((hs.object tag).good lock hlock).exclusive p q hne m hm m' hm'

variable [DecidableEq Tag]

theorem Inv.waiters_eq (hs : Inv c extra s) {tag : Tag} {lock : LOCK P n}
    (hlock : s.lock tag = some lock) (m : Fin n) :
    waiters s tag m = lock.waitProcs.countP fun q => s.want q = m := by
  classical
  have hobj := hs.object tag
  have hnodup : lock.waitProcs.Nodup := (hobj.good lock hlock).nodup
  have hset : (Finset.univ.filter fun p => (s.proc p).waitLock = some tag ∧ s.want p = m)
      = (lock.waitProcs.filter fun q => s.want q = m).toFinset := by
    ext q
    rw [Finset.mem_filter, List.mem_toFinset, List.mem_filter, decide_eq_true_iff,
      ← hobj.queued q, queue_of_some hlock]
    exact and_iff_right (Finset.mem_univ q)
  rw [waiters, hset, List.toFinset_card_of_nodup (hnodup.filter _), List.countP_eq_length_filter]

/-- The table is exact just if there is no request that nobody owns. -/
theorem Inv.exact_iff (hs : Inv c extra s) : Exact c s ↔ extra = 0 := by
  constructor
  · intro hexact
    funext tag m
    show extra tag m = 0
    cases hlock : s.lock tag with
    | none =>
      rw [((hs.object tag).absent hlock).1]
      rfl
    | some lock =>
      have hgood := (hs.object tag).good lock hlock
      have hreq := hgood.requested m
      have hexact := hexact.requested tag lock hlock m
      rw [hs.waiters_eq hlock] at hexact
      simp only at hreq
      omega
  rintro rfl
  have hgood : ∀ {tag lock}, s.lock tag = some lock → Good (c.conflicts tag) s.want 0
      ⟨lock, s.proclock tag⟩ :=
    fun hlock => (hs.object _).good _ hlock
  refine ⟨fun tag p q hne m hm m' hm' => hs.exclusive tag hne hm hm', ?_, ?_, ?_, ?_, ?_, ?_⟩
  · intro tag lock hlock m
    exact (hgood hlock).granted m
  · intro tag lock hlock m
    rw [hs.waiters_eq hlock]
    exact (hgood hlock).requested m
  · intro tag lock hlock m
    exact (hgood hlock).grantMask m
  · intro tag lock hlock m
    refine ⟨(hgood hlock).pending m, fun hlt => ?_⟩
    have hreq := (hgood hlock).requested m
    have hpos : 0 < lock.waitProcs.countP fun q => decide (s.want q = m) := by
      rw [Pi.zero_apply] at hreq
      simp only at hreq
      omega
    obtain ⟨q, hq, hwant⟩ := countP_pos_iff.1 hpos
    have hwaited := (hgood hlock).waited q hq
    rw [of_decide_eq_true hwant] at hwaited
    exact hwaited
  · intro tag lock hlock
    exact ⟨(hgood hlock).nRequested, (hs.object tag).live lock hlock⟩
  intro tag hlock p
  refine ⟨hold_of_none (((hs.object tag).absent hlock).2 p), ?_⟩
  rw [Ne, ← (hs.object tag).queued p, queue_of_none hlock]
  exact not_mem_nil

end Exact

/-! ### Sleeping for nothing -/

variable {r : Request Tag Owner n}

section Misled

variable [DecidableEq P] [DecidableEq Tag] [DecidableEq Owner]

omit [DecidableEq P] [DecidableEq Tag] [DecidableEq Owner] in
/-- What the table says about an object, or would say if it were created. -/
def State.entryFor (s : State P Tag M Owner n) (tag : Tag) : Entry P n :=
  { lock := (s.lock tag).getD .new, proclock := s.proclock tag }

/-- The process does not have the mode yet, and there is memory for the object and its
`PROCLOCK`. -/
def Asks (s : State P Tag M Owner n) (p : P) (r : Request Tag Owner n) : Prop :=
  ¬ 0 < (s.locallock p r.tag r.mode).nLocks ∧ ¬ (s.lock r.tag = none ∧ r.memory = .noLock) ∧
    ¬ (s.proclock r.tag p = none ∧ r.memory = .noProcLock)

/-- Nothing is in the way of the request: nobody waits for a mode that it conflicts with, and nobody
else holds one. -/
def Unhindered (c : LockMethods Tag M n) (s : State P Tag M Owner n) (p : P)
    (r : Request Tag Owner n) : Prop :=
  Disjoint (c.conflicts r.tag r.mode) (s.entryFor r.tag).lock.waitMask ∧
    (s.entryFor r.tag).checkConflicts (c.conflicts r.tag) p r.mode = true

/-- Such a request is put to the table, with the object found or created. -/
theorem lockAcquire_of_asks (h : Asks s p r) :
    ∃ s₁ e, s.lockAcquire c p r = acquireShared c s₁ p r e ∧
      e.holdMask = (s.entryFor r.tag).holdMask ∧
      (Disjoint (c.conflicts r.tag r.mode) e.lock.waitMask ∧
        e.checkConflicts (c.conflicts r.tag) p r.mode = true ↔ Unhindered c s p r) := by
  obtain ⟨hlocal, hnew, henough⟩ := h
  unfold lockAcquire
  simp only [if_neg hlocal, if_neg hnew]
  split
  swap
  · exact ⟨_, _, rfl, rfl, Iff.rfl⟩
  rename_i hnone
  refine ⟨_, _, if_neg fun hm => henough ⟨hnone, hm⟩, enter_holdMask, ?_⟩
  rw [Unhindered, checkConflicts, checkConflicts, enter_holdMask]
  simp only [enter, State.entryFor, hnone]
  exact Iff.rfl

/-- The others neither sleep nor are abandoned. -/
theorem lockAcquire_of_not_asks (h : ¬ Asks s p r) :
    (s.lockAcquire c p r).2 ≠ .asleep ∧ (s.lockAcquire c p r).2 ≠ .error .recoveryConflict := by
  have hmemory : ∀ outcome : Outcome,
      outcome = (if r.reportMemoryError = true then .error .outOfMemory else .notAvail) →
      outcome ≠ .asleep ∧ outcome ≠ .error .recoveryConflict := by
    rintro outcome rfl
    cases r.reportMemoryError with
    | true => simp
    | false => simp
  unfold lockAcquire
  simp only
  split
  · simp
  rename_i hlocal
  split
  · exact hmemory _ rfl
  rename_i hnew
  split
  · rename_i hnone
    split
    · exact hmemory _ rfl
    · rename_i henough
      exact absurd ⟨hlocal, hnew, fun hm => henough hm.2⟩ h
  · rename_i hsome
    exact absurd ⟨hlocal, hnew, fun hm => by simp [hsome] at hm⟩ h

/-- An acquisition goes to sleep only if the table says that something is in its way. -/
theorem found_of_asleep (h : (s.lockAcquire c p r).2 = .asleep) : ¬ Unhindered c s p r := by
  by_cases hasks : Asks s p r
  swap
  · exact absurd h (lockAcquire_of_not_asks hasks).1
  obtain ⟨s₁, e, heq, -, hiff⟩ := lockAcquire_of_asks (c := c) hasks
  rw [heq] at h
  rw [← hiff]
  intro hfree
  unfold acquireShared at h
  simp only at h
  split at h
  · cases h
  have hgo : Disjoint (c.conflicts r.tag r.mode) (e.request r.mode).lock.waitMask ∧
      (e.request r.mode).checkConflicts (c.conflicts r.tag) p r.mode = true := hfree
  rw [if_pos hgo] at h
  cases h

/-- A request that conflicts with nothing goes to sleep only on an object that has requests
that nobody owns. -/
theorem Inv.extra_of_misled [Fintype P] (hs : Inv c extra s)
    (hasleep : (s.lockAcquire c p r).2 = .asleep) (hfree : ¬ Opposed c s p r.tag r.mode) :
    extra r.tag ≠ 0 := by
  intro hzero
  have hfound := found_of_asleep hasleep
  obtain ⟨hgood, hqueue⟩ := good_getD hs r.tag
  refine hfound ⟨?_, ?_⟩
  swap
  · refine hgood.checkConflicts_iff.2 fun q hq m hm hconf => ?_
    exact hfree (.inl ⟨q, hq, m, hm, hconf⟩)
  refine disjoint_left.2 fun m hm hmask => hfree (.inr ?_)
  have hlt := hgood.pending m hmask
  have hreq := hgood.requested m
  have hpos : 0 < (s.queue r.tag).countP fun q => decide (s.want q = m) := by
    rw [hzero, Pi.zero_apply] at hreq
    rw [← hqueue]
    simp only at hreq hlt
    omega
  obtain ⟨q, hq, hwant⟩ := countP_pos_iff.1 hpos
  refine ⟨q, hq, ?_⟩
  rw [of_decide_eq_true hwant]
  exact hm

/-- The step is an acquisition that is abandoned: the mode is not held, something is in the way of
the request, and the process would wait but delays recovery. -/
def Abandons (c : LockMethods Tag M n) (s : State P Tag M Owner n) : Event P Tag M Owner n → Prop
  | .acquire p r => Asks s p r ∧ r.mode ∉ (s.entryFor r.tag).holdMask p ∧ ¬ Unhindered c s p r ∧
      r.dontWait = false ∧ r.delaysRecovery = true
  | _ => False

theorem abandons_iff : Abandons c s (.acquire p r) ↔
    (s.lockAcquire c p r).2 = .error .recoveryConflict := by
  rw [Abandons]
  by_cases hasks : Asks s p r
  swap
  · exact iff_of_false (fun h => hasks h.1) (lockAcquire_of_not_asks hasks).2
  obtain ⟨s₁, e, heq, hhold, hiff⟩ := lockAcquire_of_asks (c := c) hasks
  rw [heq, ← hiff, ← hhold]
  unfold acquireShared
  simp only
  split
  · rename_i hheld
    exact iff_of_false (fun h => h.2.1 hheld) (by simp)
  rename_i hheld
  split
  · rename_i hfree
    exact iff_of_false (fun h => h.2.2.1 hfree) (by simp)
  rename_i hfree
  split
  · rename_i hdont
    exact iff_of_false (fun h => by simp [hdont] at h) (by split <;> simp)
  rename_i hdont
  split
  · rename_i hdelays
    exact iff_of_true ⟨hasks, hheld, hfree, by simpa using hdont, hdelays⟩ rfl
  rename_i hdelays
  refine iff_of_false (fun h => hdelays h.2.2.2.2) ?_
  unfold waitOnLock
  split
  · simp
  · split <;> simp

end Misled

/-! ### Whole runs -/

section Runs

variable [DecidableEq P] [DecidableEq Tag] [DecidableEq M] [DecidableEq Owner] [Fintype P]
  {es : List (Event P Tag M Owner n)}

omit [DecidableEq M] [Fintype P] in
theorem charge_eq_zero_iff {ev : Event P Tag M Owner n} :
    charge c s ev = 0 ↔ ¬ Abandons c s ev := by
  cases ev with
  | acquire p r =>
    rw [abandons_iff, charge]
    split
    · rename_i h
      refine iff_of_false (fun hzero => ?_) (not_not.2 h)
      have := congrFun (congrFun hzero r.tag) r.mode
      rw [Pi.single_eq_same, one_self] at this
      exact absurd this Nat.one_ne_zero
    · rename_i h
      exact iff_of_true rfl h
  | _ => exact iff_of_true rfl id

/-- After a run the requests that nobody owns are those that were there before and the
abandoned ones. -/
theorem inv_of_exec (hs : Inv c extra s) (h : exec (step c) s es = some s') :
    ∃ extra', Inv c extra' s' ∧ extra ≤ extra' ∧
      (extra' = extra ↔ Never (step c) (Abandons c) s es) := by
  induction es generalizing s extra with
  | nil =>
    cases h
    exact ⟨extra, hs, le_rfl, iff_of_true rfl never_nil⟩
  | cons ev es ih =>
    obtain ⟨u, hst, hrest⟩ := exists_of_exec_cons h
    obtain ⟨hinv, -⟩ := inv_step hs hst
    obtain ⟨extra', hinv', hle, hiff⟩ := ih hinv hrest
    have hcharge : extra ≤ extra + charge c s ev := fun t m => Nat.le_add_right _ _
    refine ⟨extra', hinv', le_trans hcharge hle, ?_⟩
    rw [never_cons hst, ← charge_eq_zero_iff, ← hiff]
    constructor
    swap
    · rintro ⟨hzero, heq⟩
      rw [heq, hzero, add_zero]
    intro heq
    have hzero : charge c s ev = 0 := by
      funext t m
      have hle : (extra + charge c s ev) t m ≤ extra' t m := hle t m
      rw [heq, Pi.add_apply, Pi.add_apply] at hle
      show charge c s ev t m = 0
      omega
    rw [hzero, add_zero]
    exact ⟨rfl, heq⟩

/-- The queues are settled all along a run just if no step puts a process to sleep for
nothing. -/
theorem always_settled_iff (hs : Inv c extra s) (hset : ∀ t, SettledAt c s t)
    (h : exec (step c) s es = some s') :
    Always (step c) (fun t => ∀ tag, SettledAt c t tag) s es ↔ Never (step c) (Misled c) s es := by
  induction es generalizing s extra with
  | nil => exact iff_of_true (always_nil.2 hset) never_nil
  | cons ev es ih =>
    obtain ⟨u, hst, hrest⟩ := exists_of_exec_cons h
    obtain ⟨hinv, hstep⟩ := inv_step hs hst
    rw [always_cons hst, never_cons hst]
    constructor
    · rintro ⟨-, hall⟩
      have hu : ∀ t, SettledAt c u t := hall [] es u rfl rfl
      exact ⟨(hstep hset).1 hu, (ih hinv hu hrest).1 hall⟩
    rintro ⟨hfirst, hnever⟩
    have hu : ∀ t, SettledAt c u t := (hstep hset).2 hfirst
    exact ⟨hset, (ih hinv hu hrest).2 hnever⟩

/-- Without abandoned requests nobody sleeps for nothing. -/
theorem never_misled (hs : Inv c 0 s) (h : exec (step c) s es = some s')
    (hnever : Never (step c) (Abandons c) s es) : Never (step c) (Misled c) s es := by
  induction es generalizing s with
  | nil => exact never_nil
  | cons ev es ih =>
    obtain ⟨u, hst, hrest⟩ := exists_of_exec_cons h
    obtain ⟨hinv, -⟩ := inv_step hs hst
    rw [never_cons hst] at hnever ⊢
    rw [charge_eq_zero_iff.2 hnever.1, add_zero] at hinv
    refine ⟨fun hmisled => ?_, ih hinv hrest hnever.2⟩
    cases ev with
    | acquire p r => exact hs.extra_of_misled hmisled.1 hmisled.2 rfl
    | _ => exact hmisled

/-- The event is an acquisition by a process that delays recovery. -/
def Event.delays : Event P Tag M Owner n → Bool
  | .acquire _ r => r.delaysRecovery
  | _ => false

omit [Fintype P] in
/-- On a server that is not in recovery nothing is abandoned. -/
theorem never_abandons (h : ∀ ev ∈ es, ev.delays = false) : Never (step c) (Abandons c) s es := by
  intro pre ev post t hes _ habandons
  have hmem : ev ∈ es := by
    rw [hes]
    exact mem_append_right _ (.head _)
  cases ev with
  | acquire p r =>
    have hno : r.delaysRecovery = false := h _ hmem
    exact Bool.false_ne_true (hno.symm.trans habandons.2.2.2.2)
  | _ => exact habandons

variable [NeZero n]

/-- After every run of any number of processes over any number of objects and with any
symmetric conflict tables no conflicting modes are held together.  The counters and masks are
exact just if no request was abandoned. -/
theorem lockTable_exact_iff (h : Run.exec (step c) State.init es = some s) :
    (∀ tag p q, p ≠ q → ∀ m ∈ s.hold tag p, ∀ m' ∈ s.hold tag q, m' ∉ c.conflicts tag m) ∧
      (Exact c s ↔ Run.Never (step c) (Abandons c) State.init es) := by
  obtain ⟨extra, hinv, -, hiff⟩ := inv_of_exec (inv_init c) h
  refine ⟨fun tag p q hne m hm m' hm' => hinv.exclusive tag hne hm hm', ?_⟩
  rw [hinv.exact_iff, hiff]

/-- A mode that conflicts with the other one only. -/
def accessShare : Fin 2 := ⟨0, Nat.two_pos⟩

/-- A mode that conflicts with both. -/
def accessExclusive : Fin 2 := ⟨1, Nat.one_lt_two⟩

/-- One object and these two modes. -/
def accessLocks : LockMethods Unit Unit 2 where
  method := id
  hashcode := fun _ => 0
  conflictTab := fun _ mode =>
    if mode = accessShare then {accessExclusive} else {accessShare, accessExclusive}
  transactional := fun _ => true
  symm := by
    intro _ i j
    revert i j
    decide

/-- Three processes: one that holds the object first, one with a pin on a buffer that the
startup process waits for, and one that reads. -/
inductive Backend
  | holder
  | pinned
  | reader
  deriving DecidableEq

instance : Fintype Backend where
  elems := {.holder, .pinned, .reader}
  complete := by
    intro p
    cases p <;> decide

/-- A process acquires a mode and is willing to wait. -/
def take (p : Backend) (mode : Fin 2) (delaysRecovery : Bool) : Event Backend Unit Unit Unit 2 :=
  .acquire p
    { tag := (), mode := mode, sessionLock := false, dontWait := false, reportMemoryError := true,
      owner := (), memory := .enough, delaysRecovery := delaysRecovery }

/-- The reader waits until the holder releases the object. -/
def handOver : List (Event Backend Unit Unit Unit 2) :=
  [take .holder accessExclusive false, take .reader accessShare false,
    .release .holder () accessExclusive false (), .awake .reader]

theorem handOver_isSome : (exec (step accessLocks) init handOver).isSome = true := by decide +kernel

theorem lockTable_exact_iff_handOver :
    ∃ s, Run.exec (step accessLocks) State.init handOver = some s ∧ Exact accessLocks s ∧
      accessShare ∈ s.hold () .reader := by
  have hrun := (some_get handOver_isSome).symm
  exact ⟨_, hrun, (lockTable_exact_iff hrun).2.2 (never_abandons (by decide)), by decide +kernel⟩

/-- The process with the pin has to wait, and delays recovery. -/
def thrownOut : List (Event Backend Unit Unit Unit 2) :=
  [take .holder accessExclusive false, take .pinned accessShare true]

theorem thrownOut_isSome :
    (exec (step accessLocks) init thrownOut).isSome = true := by decide +kernel

theorem thrownOut_lock_isSome :
    (((exec (step accessLocks) init thrownOut).get thrownOut_isSome).lock ()).isSome =
      true := by decide +kernel

/-- Its request stays counted: there is one for the shared mode, which nobody holds and nobody
waits for. -/
theorem thrownOut_stays_counted :
    ∃ s lock, Run.exec (step accessLocks) State.init thrownOut = some s ∧
      s.lock () = some lock ∧ lock.requested accessShare = 1 ∧ lock.granted accessShare = 0 ∧
      waiters s () accessShare = 0 ∧ ¬ Exact accessLocks s := by
  have hrun := (some_get thrownOut_isSome).symm
  have hlock := (some_get thrownOut_lock_isSome).symm
  refine ⟨_, _, hrun, hlock, by decide +kernel, by decide +kernel,
    by decide +kernel, fun hexact => ?_⟩
  have hcount := hexact.requested () _ hlock accessShare
  revert hcount
  decide +kernel

omit [DecidableEq P] [DecidableEq Tag] [DecidableEq M] [DecidableEq Owner] [Fintype P] in
theorem settled_init (t : Tag) : SettledAt c (init : State P Tag M Owner n) t := by
  intro ahead p behind h
  exact absurd h.symm (append_ne_nil_of_right_ne_nil ahead (cons_ne_nil p behind))

/-- In a run in which no request is abandoned no waiter is forgotten at any time.  In general none
is forgotten just if no acquisition goes to sleep for nothing. -/
theorem waiters_settled_iff (h : Run.exec (step c) State.init es = some s) :
    (Run.Always (step c) (fun t => ∀ tag, SettledAt c t tag) State.init es
      ↔ Run.Never (step c) (Misled c) State.init es) ∧
    (Run.Never (step c) (Abandons c) State.init es →
      Run.Always (step c) (fun t => ∀ tag, SettledAt c t tag) State.init es) := by
  have hiff := always_settled_iff (inv_init c) settled_init h
  exact ⟨hiff, fun hnever => hiff.2 (never_misled (inv_init c) h hnever)⟩

theorem waiters_settled_iff_handOver :
    Run.Always (step accessLocks) (fun t => ∀ tag, SettledAt accessLocks t tag) State.init
      handOver :=
  (waiters_settled_iff (Option.some_get handOver_isSome).symm).2 (never_abandons (by decide))

/-- A request is abandoned, then another process waits for the same mode and gets it; when
everything has been released, the object is wanted once more. -/
def leftOver : List (Event Backend Unit Unit Unit 2) :=
  [take .holder accessExclusive false, take .pinned accessShare true,
    .releaseAll .pinned () true, take .reader accessShare false,
    .release .holder () accessExclusive false (), .awake .reader,
    .release .reader () accessShare false (), take .holder accessExclusive false]

theorem leftOver_isSome : (exec (step accessLocks) init leftOver).isSome = true := by decide +kernel

/-- The holder sleeps alone in the queue, and nobody holds anything. -/
theorem leftOver_forgets_waiter :
    ∃ s, Run.exec (step accessLocks) State.init leftOver = some s ∧ s.queue () = [.holder] ∧
      (∀ p, s.hold () p = ∅) ∧ ¬ SettledAt accessLocks s () := by
  have hrun := (some_get leftOver_isSome).symm
  have hqueue : (get _ leftOver_isSome).queue () = [.holder] := by decide +kernel
  have hhold : ∀ p, (get _ leftOver_isSome).hold () p = ∅ := by decide +kernel
  refine ⟨_, hrun, hqueue, hhold, fun hset => ?_⟩
  rcases hset [] .holder [] hqueue with ⟨q, -, m, hm, -⟩ | ⟨q, hq, -⟩
  · rw [hhold] at hm
    exact notMem_empty m hm
  · exact not_mem_nil hq

/-! ### The tables of a process -/

/-- After every run the local table of a process outside the lock manager is right about what it
holds, its list has just the objects with a `PROCLOCK`, and a process in a queue sleeps for that
object, so that it is in one queue at most. -/
theorem local_table_agrees (h : Run.exec (step c) State.init es = some s) (p : P) :
    (s.stage p = .running →
      ∀ tag mode, mode ∈ s.hold tag p ↔ 0 < (s.locallock p tag mode).nLocks) ∧
    (s.myProcLocks p).Nodup ∧
    (∀ tag, tag ∈ s.myProcLocks p ↔ (s.proclock tag p).isSome = true) ∧
    ∀ tag, p ∈ s.queue tag → (∃ owner, s.stage p = .sleeping tag (s.want p) owner) ∧
      (s.proc p).waitStatus = .waiting := by
  obtain ⟨extra, hinv, -⟩ := inv_of_exec (inv_init c) h
  refine ⟨(hinv.status p).hold_of_running, (hinv.listed p).nodup, (hinv.listed p).mem, ?_⟩
  exact fun tag hmem => (hinv.status p).waits tag (((hinv.object tag).queued p).1 hmem)

theorem local_table_agrees_handOver :
    ∃ s, Run.exec (step accessLocks) State.init handOver = some s ∧
      0 < (s.locallock .reader () accessShare).nLocks := by
  have hrun := (some_get handOver_isSome).symm
  exact ⟨_, hrun, ((local_table_agrees hrun .reader).1 (by decide +kernel) () accessShare).1
    (by decide +kernel)⟩

/-- `LockReleaseAll` for all locks of a method: whatever the others did between its partitions,
after the last one the process holds nothing of that method and is in no queue. -/
theorem lockReleaseAll_leaves_nothing {method : M} {k : Nat}
    (h : Run.exec (step c) State.init es = some s) (hstage : s.stage p = .releasing method true k)
    (hst : step c s (.releasePartition p) = some s') (hdone : s'.stage p = .running) (tag : Tag) :
    (c.method tag = method → s'.hold tag p = ∅) ∧ p ∉ s'.queue tag := by
  obtain ⟨extra, hinv, -⟩ := inv_of_exec (inv_init c) h
  obtain ⟨⟨hinv₁, -⟩, -, hstage₁⟩ := inv_foldl_releaseProcLock hinv hstage
    ((s.myProcLocks p).filter fun tag => decide (c.partition tag = k))
  obtain ⟨hinv', -⟩ := inv_step hinv hst
  constructor
  · rintro rfl
    refine Finset.eq_empty_iff_forall_notMem.2 fun mode hmem => ?_
    rw [(hinv'.status p).hold_of_running hdone] at hmem
    simp only [step, hstage] at hst
    cases hst
    exact hmem.ne' ((hinv₁.status p).cleared tag k (hstage₁.trans hstage) mode)
  · rw [(hinv'.object tag).queued, (hinv'.status p).waitLock_of_running hdone]
    exact (some_ne_none tag).symm

/-- The holder gives up everything and comes to the last partition. -/
def lastPartition : List (Event Backend Unit Unit Unit 2) :=
  take .holder accessExclusive false :: .releaseAll .holder () true ::
    replicate 15 (.releasePartition .holder)

theorem lastPartition_isSome : (exec (step accessLocks) init lastPartition).isSome = true := by
  decide +kernel

theorem lockReleaseAll_leaves_nothing_last :
    ∃ s s', Run.exec (step accessLocks) State.init lastPartition = some s ∧
      step accessLocks s (.releasePartition .holder) = some s' ∧ s'.hold () .holder = ∅ := by
  have hrun := (some_get lastPartition_isSome).symm
  have hlast : (step accessLocks (get _ lastPartition_isSome) (.releasePartition .holder)).map
      (fun s => s.stage .holder) = some .running := by decide +kernel
  have hstage : (get _ lastPartition_isSome).stage .holder = .releasing () true 15 := by
    decide +kernel
  obtain ⟨s', hst, hdone⟩ := map_eq_some_iff.1 hlast
  exact ⟨_, s', hrun, hst, (lockReleaseAll_leaves_nothing hrun hstage hst hdone ()).1 rfl⟩

end Runs

end PrlPg.Locks
