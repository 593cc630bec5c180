/-
Lightweight locks exclude, and their wake-ups are not lost.

A release does not awaken anybody while `releaseOK` is off.  It goes off when waiters are
unlinked, and on when one of them tries again; so while it is off there is a waiter that has
been unlinked and has still to try.  And a lock that is free while its queue is not empty has
`releaseOK` off, or whoever released it last would have awakened somebody (`Wakes`).

The semaphore of a process has what others have posted and not been waited for, less what has
been absorbed, up to the one wake-up that a waiter is due and those that are on their way
(`Balanced`).
-/
import PrlPg.Proofs.LWLockQueues

namespace PrlPg.LWLocks

open Function LinkedList List Option State

variable {P : Type*} {s s' : State P} {g g' : Lists P}

/-! ### Wake-ups -/

variable {stage : Stage P} {p : P} {l : LWLockId} {e : Event P} {lock : LWLock P}

section Wakes

/-- A process that has been taken off the queue of a lock and has still to try to get it. -/
def MustRetry (s : State P) (g : Lists P) (l : LWLockId) (p : P) : Prop :=
  (s.stage p).sleeps = some l ∧ g.place p ≠ some (.queue l) ∨
    ∃ mode n, s.stage p = .trying l mode true n

structure Wakes (s : State P) (g : Lists P) : Prop where
  pending : ∀ l, (s.lock l).releaseOK = false → ∃ p, MustRetry s g l p
  free : ∀ l, (s.lock l).exclusive = 0 → (s.lock l).shared = 0 → g.queue l ≠ [] →
    (s.lock l).releaseOK = false

theorem MustRetry.of_stage (h : MustRetry s g l p) (hstage : s'.stage p = s.stage p)
    (hplace : g'.place p = some (.queue l) → g.place p = some (.queue l)) :
    MustRetry s' g' l p := by
  unfold MustRetry
  rw [hstage]
  rcases h with ⟨hsleeps, hne⟩ | htry
  · exact .inl ⟨hsleeps, fun hq => hne (hplace hq)⟩
  · exact .inr htry

/-- Processes go on without a change to a lock. -/
theorem Wakes.congr (h : Wakes s g) (hlock : ∀ l, (s'.lock l).releaseOK = (s.lock l).releaseOK ∧
      (s'.lock l).exclusive = (s.lock l).exclusive ∧ (s'.lock l).shared = (s.lock l).shared)
    (hqueue : g'.queue = g.queue) (hretry : ∀ l q, MustRetry s g l q → MustRetry s' g' l q) :
    Wakes s' g' := by
  refine ⟨fun l hoff => ?_, fun l hex hsh hne => ?_⟩
  · rw [(hlock l).1] at hoff
    obtain ⟨q, hq⟩ := h.pending l hoff
    exact ⟨q, hretry l q hq⟩
  rw [(hlock l).2.1] at hex
  rw [(hlock l).2.2] at hsh
  rw [hqueue] at hne
  rw [(hlock l).1]
  exact h.free l hex hsh hne

/-- One lock changes. -/
theorem Wakes.change (h : Wakes s g) (hlock : s'.lock = update s.lock l lock)
    (hqueue : ∀ k, k ≠ l → g'.queue k = g.queue k)
    (hretry : ∀ k q, k ≠ l → MustRetry s g k q → MustRetry s' g' k q)
    (hpending : lock.releaseOK = false → ∃ p, MustRetry s' g' l p)
    (hfree : lock.exclusive = 0 → lock.shared = 0 → g'.queue l ≠ [] → lock.releaseOK = false) :
    Wakes s' g' := by
  refine ⟨fun k hoff => ?_, fun k hex hsh hne => ?_⟩
  · by_cases hk : k = l
    · subst hk
      rw [hlock, update_self] at hoff
      exact hpending hoff
    rw [hlock, update_of_ne hk] at hoff
    obtain ⟨q, hq⟩ := h.pending k hoff
    exact ⟨q, hretry k q hk hq⟩
  by_cases hk : k = l
  · subst hk
    rw [hlock, update_self] at hex hsh ⊢
    exact hfree hex hsh hne
  rw [hlock, update_of_ne hk] at hex hsh ⊢
  rw [hqueue k hk] at hne
  exact h.free k hex hsh hne

theorem not_mustRetry (hp : s.stage p = stage) (hsleeps : stage.sleeps = none)
    (htry : ∀ mode n, stage ≠ .trying l mode true n) : ¬ MustRetry s g l p := by
  rintro (⟨hsome, -⟩ | ⟨mode, n, hstage⟩)
  · rw [hp, hsleeps] at hsome
    cases hsome
  · exact htry mode n (hp.symm.trans hstage)

theorem Linked.seen (hl : Linked s g) (l : LWLockId) (retry : Bool) :
    Linked (s.setLock l (s.seen l retry)) g := by
  obtain ⟨-, -, hhead, htail⟩ := seen_spec s l retry
  exact hl.congr (ends_of_update hhead htail) (fun _ => ⟨rfl, rfl⟩) (fun _ => rfl) fun _ _ => rfl

variable [DecidableEq P]

/-- A process goes on, and if it had to retry it still has. -/
theorem MustRetry.advance {q : P} (h : MustRetry s g l q)
    (hstage : s'.stage = update s.stage p stage)
    (hplace : ∀ x, g'.place x = some (.queue l) → x = p ∨ g.place x = some (.queue l))
    (hself : MustRetry s g l p → MustRetry s' g' l p) : MustRetry s' g' l q := by
  by_cases hq : q = p
  · subst hq
    exact hself h
  · refine h.of_stage (by rw [hstage, update_of_ne hq]) fun hx => ?_
    exact (hplace q hx).resolve_left hq

/-- The queues and the wake-ups are in order. -/
def Ordered (s : State P) : Prop := ∃ g, Linked s g ∧ Wakes s g

section

variable (hl : Linked s g) (hw : Wakes s g) (hrest : stage.rest = (s.stage p).rest)
  (hstage : s'.stage = update s.stage p stage) (hlock : s'.lock = s.lock)
  (hproc : ∀ q, (s'.proc q).lwWaitLink = (s.proc q).lwWaitLink ∧
    (s'.proc q).lwWaiting = (s.proc q).lwWaiting)
include hl hw hrest hstage hlock hproc

/-- A process goes on without touching a lock or a list. -/
theorem Ordered.advance (hsleeps : g.place p ≠ none → stage.sleeps = (s.stage p).sleeps)
    (hself : ∀ l, MustRetry s g l p → MustRetry s' g l p) : Ordered s' := by
  refine ⟨g, hl.advance hstage hrest hsleeps (fun l => ?_) hproc, hw.congr (fun l => ?_) rfl
    fun l _ hq => hq.advance hstage (fun _ hx => .inr hx) (hself l)⟩
  · rw [hlock]
    exact ⟨rfl, rfl⟩
  · rw [hlock]
    exact ⟨rfl, rfl, rfl⟩

theorem Ordered.advance_awake (hsleeps : (s.stage p).sleeps = none)
    (htry : ∀ l mode n, s.stage p ≠ .trying l mode true n) : Ordered s' :=
  Ordered.advance hl hw hrest hstage hlock hproc
    (fun hne => absurd (hl.place_eq_none hsleeps) hne)
    fun l hretry => absurd hretry (not_mustRetry rfl hsleeps (htry l))

/-- A process that is waiting goes on waiting. -/
theorem Ordered.advance_asleep (hsleeps : (s.stage p).sleeps = some l)
    (hsleeps' : stage.sleeps = some l) : Ordered s' := by
  refine Ordered.advance hl hw hrest hstage hlock hproc (fun _ => hsleeps'.trans hsleeps.symm)
    fun k hretry => ?_
  rcases hretry with ⟨hk, hne⟩ | ⟨mode, n, htry⟩
  · refine .inl ⟨?_, hne⟩
    rw [hstage, update_self, hsleeps', ← hsleeps, hk]
  · rw [htry] at hsleeps
    cases hsleeps

end

/-- A process that gets the lock, or goes to sleep, after it has tried. -/
theorem Wakes.tried {mode : LWLockMode} {retry : Bool} {n : Nat} (h : Wakes s g)
    (hp : s.stage p = .trying l mode retry n) (hlock : s'.lock = update s.lock l lock)
    (hstage : s'.stage = update s.stage p stage) (hok : lock.releaseOK = (s.seen l retry).releaseOK)
    (hheld : ¬ (lock.exclusive = 0 ∧ lock.shared = 0))
    (hqueue : ∀ k, k ≠ l → g'.queue k = g.queue k)
    (hplace : ∀ k x, g'.place x = some (.queue k) → x = p ∨ g.place x = some (.queue k)) :
    Wakes s' g' := by
  refine h.change hlock hqueue (fun k q hk hq => ?_) (fun hoff => ?_) fun h0 h0' _ => ?_
  · refine hq.advance hstage (hplace k) fun hself => absurd hself (not_mustRetry hp rfl ?_)
    rintro _ _ ⟨⟩
    exact hk rfl
  · rw [hok] at hoff
    cases retry with
    | true => cases hoff
    | false =>
      obtain ⟨q, hq⟩ := h.pending l hoff
      refine ⟨q, hq.advance hstage (hplace l) fun hself => absurd hself (not_mustRetry hp rfl ?_)⟩
      rintro _ _ ⟨⟩
  · exact absurd ⟨h0, h0'⟩ hheld

theorem Ordered.moved [Fintype P] (h : Ordered s) (hmove : Moved s e s') : Ordered s' := by
  obtain ⟨g, hl, hw⟩ := h
  cases hmove with
  | refused => exact ⟨g, hl, hw⟩
  | begun hp | restored hp | finished hp =>
    refine Ordered.advance_awake hl hw (by rw [hp]; rfl) rfl rfl (fun _ => ⟨rfl, rfl⟩)
      (by rw [hp]; rfl) ?_
    rw [hp]
    rintro _ _ _ ⟨⟩
  | @given p l mode lock hp hlock =>
    obtain ⟨hhead, htail, hok, hex, htake⟩ := take_spec hlock
    refine ⟨g, hl.congr (ends_of_update hhead htail) (fun _ => ⟨rfl, rfl⟩) (fun _ => rfl)
      (fun _ _ => rfl), hw.change rfl (fun _ _ => rfl) (fun _ _ _ hq => hq) (fun hoff => ?_)
      fun h0 h0' _ => ?_⟩
    · rw [hok] at hoff
      exact hw.pending l hoff
    · omega
  | @got p l mode retry n lock hp hlock =>
    obtain ⟨hhead, htail, hok, hex, htake⟩ := take_spec hlock
    obtain ⟨-, -, hseen, hseen'⟩ := seen_spec s l retry
    refine ⟨g, hl.advance rfl (by rw [hp]; rfl) (fun hne => ?_)
      (ends_of_update (hhead.trans hseen) (htail.trans hseen')) (fun _ => ⟨rfl, rfl⟩),
      hw.tried hp rfl rfl hok (by omega) (fun _ _ => rfl) fun _ _ hx => .inr hx⟩
    exact absurd (hl.place_eq_none (by rw [hp]; rfl)) hne
  | @queued p l mode retry n hp hlock =>
    have hheld := take_eq_none hlock
    obtain ⟨-, hstage, hlock'⟩ := enqueue_lock (s.setLock l (s.seen l retry)) p l mode
    rw [setLock_lock, update_idem, update_self] at hlock'
    have hplace : g.place p = none := hl.place_eq_none (by rw [hp]; rfl)
    refine ⟨g.enqueue p l hplace, (hl.seen l retry).enqueue hplace (by rw [setLock_stage, hp]; rfl),
      hw.tried hp hlock' (congrArg (update · p _) hstage) rfl hheld
        (fun k hk => update_of_ne hk _ _) fun k x hx => ?_⟩
    by_cases hxp : x = p
    · exact .inl hxp
    · exact .inr ((update_of_ne hxp _ _).symm.trans hx)
  | taken hp hsem =>
    obtain ⟨-, rfl⟩ := semWait_spec hsem
    exact Ordered.advance_asleep hl hw (by rw [hp]; rfl) rfl rfl (lists_of_sem s _ _)
      (by rw [hp]; rfl) rfl
  | absorbed hp hwaiting =>
    exact Ordered.advance_asleep hl hw (by rw [hp]; rfl) rfl rfl (fun _ => ⟨rfl, rfl⟩)
      (by rw [hp]; rfl) rfl
  | @retried p l mode n hp hwaiting =>
    have hplace : g.place p = none := by
      by_contra hne
      have hset := (hl.waiting p).mpr hne
      rw [hwaiting] at hset
      cases hset
    refine Ordered.advance hl hw (by rw [hp]; rfl) rfl rfl (fun _ => ⟨rfl, rfl⟩)
      (fun hne => absurd hplace hne) fun k hretry => ?_
    rcases hretry with ⟨hsleeps, -⟩ | ⟨mode, n, htry⟩
    · rw [hp] at hsleeps
      cases hsleeps
      exact .inr ⟨mode, n, update_self ..⟩
    · rw [hp] at htry
      cases htry
  | reposted hp | posted hp =>
    refine Ordered.advance_awake hl hw (by rw [hp]; rfl) rfl rfl (lists_of_sem s _ _)
      (by rw [hp]; rfl) ?_
    rw [hp]
    rintro _ _ _ ⟨⟩
  | @released p l hp hheld hquiet =>
    have hidle : ∀ k, ¬ MustRetry s g k p := fun k => not_mustRetry hp rfl (by rintro _ _ ⟨⟩)
    refine ⟨g, hl.advance rfl (by rw [hp]; rfl) (fun hne => ?_)
      (ends_of_update (drop_head _) (drop_tail _)) (fun _ => ⟨rfl, rfl⟩),
      hw.change rfl (fun _ _ => rfl) (fun k q _ hq => ?_) (fun hoff => ?_) fun h0 h0' hne => ?_⟩
    · exact absurd (hl.place_eq_none (by rw [hp]; rfl)) hne
    · exact hq.advance rfl (fun _ hx => .inr hx) fun hself => absurd hself (hidle k)
    · rw [drop_releaseOK] at hoff
      obtain ⟨q, hq⟩ := hw.pending l hoff
      exact ⟨q, hq.advance rfl (fun _ hx => .inr hx) fun hself => absurd hself (hidle l)⟩
    rw [drop_releaseOK]
    rcases hquiet with hnil | hnot
    · have hchain := hl.queue l
      rw [hnil] at hchain
      exact absurd hchain.eq_nil hne
    · by_contra hon
      exact hnot ⟨h0, h0', Bool.eq_true_of_not_eq_false hon⟩
  | @unlinked p head l hp hheld hhead hfree =>
    have hidle : ∀ k, ¬ MustRetry s g k p := fun k => not_mustRetry hp rfl (by rintro _ _ ⟨⟩)
    obtain ⟨w, rest, hsplit⟩ := lastReleased_spec hl hhead
    have hchain : g.chain p = [] := by
      have hc := hl.chain p
      rw [hp] at hc
      exact hc.eq_nil
    have hqueue : g.queue l = (w ++ [lastReleased s.proc head]) ++ rest := by
      rw [hsplit, append_assoc]
      rfl
    -- the first waiter is one of those that are unlinked
    have hfirst : head ∈ w ++ [lastReleased s.proc head] := by
      have hh := (hl.queue l).head_eq
      rw [hhead, hsplit] at hh
      cases w with
      | nil => exact mem_singleton.mpr (Option.some.inj hh)
      | cons a w =>
        rw [Option.some.inj hh]
        exact mem_cons_self
    refine ⟨g.unlink hqueue hchain, hl.unlink hqueue hchain (by rw [hp]; rfl) rfl rfl rfl rfl
      (drop_tail _) hhead.symm, hw.change rfl (fun k hk => update_of_ne hk _ _)
      (fun k q _ hq => ?_) (fun _ => ⟨head, .inl ⟨?_, ?_⟩⟩) fun _ _ _ => rfl⟩
    · exact hq.advance rfl (fun _ hx => .inr (Lists.queue_of_unlink hx)) fun hself =>
        absurd hself (hidle k)
    · have hheadl : g.place head = some (.queue l) := by
        rw [← g.mem_queue, hqueue]
        exact mem_append_left _ hfirst
      have hne : head ≠ p := by
        rintro rfl
        rw [hl.place_eq_none (by rw [hp]; rfl)] at hheadl
        cases hheadl
      rw [setStage_stage, update_of_ne hne]
      exact hl.queued l head hheadl
    change (if head ∈ w ++ [lastReleased s.proc head] then some (Place.chain p)
      else g.place head) ≠ _
    rw [if_pos hfirst]
    rintro ⟨⟩
  | @woke p q hp =>
    have hc := hl.chain p
    rw [hp] at hc
    obtain ⟨rest, hchain, -⟩ := hc.eq_cons
    refine ⟨g.awaken hchain, hl.awaken hchain (by rw [hp]; rfl) rfl rfl rfl rfl,
      hw.congr (fun _ => ⟨rfl, rfl, rfl⟩) rfl fun k x hx => ?_⟩
    refine hx.advance rfl (fun _ hy => .inr (Lists.queue_of_awaken hy)) fun hself => ?_
    exact absurd hself (not_mustRetry hp rfl (by rintro _ _ ⟨⟩))
  | @foreignPost p =>
    exact ⟨g, hl.congr (fun _ => ⟨rfl, rfl⟩) (lists_of_sem s p _) (fun _ => rfl) fun _ _ => rfl,
      hw.congr (fun _ => ⟨rfl, rfl, rfl⟩) rfl fun _ _ hq => hq⟩
  | @foreignWait p t hp hsem =>
    obtain ⟨-, rfl⟩ := semWait_spec hsem
    exact ⟨g, hl.congr (fun _ => ⟨rfl, rfl⟩) (lists_of_sem s p _) (fun _ => rfl) fun _ _ => rfl,
      hw.congr (fun _ => ⟨rfl, rfl, rfl⟩) rfl fun _ _ hq => hq⟩

end Wakes

/-! ### Semaphores -/

variable {proc : PGPROC P}

/-- The wake-ups of others that a process has absorbed. -/
def Stage.absorbed : Stage P → Nat
  | .trying _ _ _ extraWaits => extraWaits
  | .waiting _ _ extraWaits => extraWaits
  | .awakened _ _ extraWaits => extraWaits + 1
  | .restoring extraWaits => extraWaits
  | _ => 0

/-- The wake-up that a process is about to post. -/
def Stage.posts [DecidableEq P] : Stage P → P → Nat
  | .posting q _, p => if q = p then 1 else 0
  | _, _ => 0

/-- The wake-up that a process is due: it has been awakened and has not noticed yet. -/
def due (lwWaiting : Bool) : Option LWLockId → Int
  | some _ => if lwWaiting then 0 else 1
  | none => 0

/-- What a process has got, less the wake-up that it is due. -/
def account (proc : PGPROC P) (stage : Stage P) : Int :=
  proc.sem + stage.absorbed - due proc.lwWaiting stage.sleeps

theorem account_congr {proc' : PGPROC P} (hsem : proc'.sem = proc.sem)
    (hwaiting : proc'.lwWaiting = proc.lwWaiting) (stage : Stage P) :
    account proc' stage = account proc stage := by
  rw [account, account, hsem, hwaiting]

theorem account_of_awake (proc : PGPROC P) (h : stage.sleeps = none) :
    account proc stage = proc.sem + stage.absorbed := by
  rw [account, h, due, sub_zero]

theorem account_of_waiting (h : proc.lwWaiting = true) (stage : Stage P) :
    account proc stage = proc.sem + stage.absorbed := by
  rw [account, h]
  cases stage.sleeps with
  | none => rw [due, sub_zero]
  | some l => rw [due, if_pos rfl, sub_zero]

theorem account_of_woken (hs : stage.sleeps ≠ none) (hw : proc.lwWaiting = false) :
    account proc stage = proc.sem + stage.absorbed - 1 := by
  obtain ⟨l, hl⟩ := ne_none_iff_exists'.mp hs
  rw [account, hl, hw, due, if_neg Bool.false_ne_true]

section Sem

variable [DecidableEq P]

theorem sem_semPost (s : State P) (p q : P) :
    ((s.semPost p).proc q).sem = (s.proc q).sem + if q = p then 1 else 0 := by
  rw [semPost, modifyProc_proc]
  by_cases hq : q = p
  · rw [hq, update_self, if_pos rfl]
  · rw [update_of_ne hq, if_neg hq, add_zero]

theorem sem_semWait (h : s.semWait p = some s') (q : P) :
    (s.proc q).sem = (s'.proc q).sem + if q = p then 1 else 0 := by
  obtain ⟨hne, rfl⟩ := semWait_spec h
  rw [modifyProc_proc]
  by_cases hq : q = p
  · subst hq
    rw [update_self, if_pos rfl]
    change _ = (s.proc q).sem - 1 + 1
    omega
  · rw [update_of_ne hq, if_neg hq, add_zero]

theorem field_modifyProc {β : Type*} (field : PGPROC P → β) (s : State P) (p q : P)
    (f : PGPROC P → PGPROC P) (hf : ∀ proc, field (f proc) = field proc) :
    field ((s.modifyProc p f).proc q) = field (s.proc q) := by
  rw [modifyProc_proc]
  by_cases hq : q = p
  · rw [hq, update_self, hf]
  · rw [update_of_ne hq]

theorem sem_enqueue (s : State P) (p : P) (l : LWLockId) (mode : LWLockMode) (q : P) :
    ((s.enqueue p l mode).proc q).sem = (s.proc q).sem := by
  have hown := field_modifyProc PGPROC.sem s p q (fun proc => proc.enqueued mode) fun _ => rfl
  unfold enqueue
  dsimp only
  split
  · exact hown
  split
  · rename_i tail _
    exact (field_modifyProc PGPROC.sem (s.modifyProc p fun proc => proc.enqueued mode) tail q
      (fun proc => { proc with lwWaitLink := some p }) fun _ => rfl).trans hown
  · exact hown

theorem account_semPost (s : State P) (p q : P) (stage : Stage P) :
    account ((s.semPost p).proc q) stage = account (s.proc q) stage + if p = q then 1 else 0 := by
  have hsem := sem_semPost s p q
  have hwaiting : ((s.semPost p).proc q).lwWaiting = (s.proc q).lwWaiting :=
    (lists_of_sem s p _ q).2
  rw [account, account, hwaiting, hsem]
  split
  next hq =>
    rw [if_pos hq.symm, Nat.cast_add, Nat.cast_one]
    omega
  next hq => rw [if_neg (Ne.symm hq), add_zero, add_zero]

end Sem

section Balanced

variable [Fintype P] [DecidableEq P]

/-- The wake-ups for a process that releasing processes are about to post. -/
def State.inFlight (s : State P) (p : P) : Nat := ∑ r, (s.stage r).posts p

/-- What the other waits of a process are to find. -/
def State.credit (s : State P) (p : P) : Int := account (s.proc p) (s.stage p) + s.inFlight p

theorem inFlight_update (hstage : s'.stage = update s.stage p stage) (q : P) :
    s'.inFlight q + (s.stage p).posts q = s.inFlight q + stage.posts q := by
  rw [inFlight, inFlight, hstage]
  exact sum_update (fun stage : Stage P => stage.posts q) s.stage stage (Finset.mem_univ p)

/-- A process goes on, and its own account is the same. -/
theorem credit_advance {q : P} {old : Stage P} {z : Int} (hp : s.stage p = old)
    (hstage : s'.stage = update s.stage p stage) (hposts : stage.posts = old.posts)
    (haccount : account (s'.proc p) stage = account (s.proc p) old)
    (hproc : ∀ x, x ≠ p → (s'.proc x).sem = (s.proc x).sem ∧
      (s'.proc x).lwWaiting = (s.proc x).lwWaiting) (hz : z = 0) :
    s'.credit q = s.credit q + z := by
  have hflight := inFlight_update hstage q
  rw [hp, hposts] at hflight
  have hsame : account (s'.proc q) (s'.stage q) = account (s.proc q) (s.stage q) := by
    rw [hstage]
    by_cases hq : q = p
    · rw [hq, update_self, hp, haccount]
    · rw [update_of_ne hq]
      exact account_congr (hproc q hq).1 (hproc q hq).2 _
  rw [credit, credit, hsame]
  omega

theorem credit_moved (hl : Linked s g) (hmove : Moved s e s') (q : P) :
    s'.credit q = s.credit q + e.foreign q := by
  cases hmove with
  | refused he => rw [he, add_zero]
  | begun hp | got hp | restored hp | released hp | finished hp =>
    exact credit_advance hp rfl rfl rfl (fun _ _ => ⟨rfl, rfl⟩) rfl
  | given => exact (add_zero _).symm
  | @queued p l mode retry n hp hlock =>
    have hplace : g.place p = none := hl.place_eq_none (by rw [hp]; rfl)
    obtain ⟨-, hstage, -⟩ := enqueue_lock (s.setLock l (s.seen l retry)) p l mode
    obtain ⟨-, -, hwaiting⟩ := link_enqueue (hl.seen l retry) hplace l mode
    have hsem := sem_enqueue (s.setLock l (s.seen l retry)) p l mode
    refine credit_advance hp (congrArg (fun f => update f p _) hstage) rfl ?_
      (fun x hx => ⟨hsem x, ?_⟩) rfl
    · rw [setStage_proc, account_of_waiting ((hwaiting p).mpr (.inl rfl)), hsem,
        account_of_awake _ rfl]
      rfl
    · rw [Bool.eq_iff_iff, setStage_proc, hwaiting, or_iff_right hx]
      rfl
  | @taken p l mode n t hp hsem =>
    obtain ⟨hpos, rfl⟩ := semWait_spec hsem
    refine credit_advance hp rfl rfl ?_ (fun x hx => ?_) rfl
    · rw [setStage_proc, modifyProc_proc, update_self, account, account]
      simp only [Stage.absorbed, Stage.sleeps]
      omega
    · rw [setStage_proc, modifyProc_proc, update_of_ne hx]
      exact ⟨rfl, rfl⟩
  | @absorbed p l mode n hp hwaiting =>
    refine credit_advance hp rfl rfl ?_ (fun _ _ => ⟨rfl, rfl⟩) rfl
    rfl
  | @retried p l mode n hp hwaiting =>
    refine credit_advance hp rfl rfl ?_ (fun _ _ => ⟨rfl, rfl⟩) rfl
    rw [setStage_proc, account_of_awake _ rfl, @account_of_woken _ (.awakened l mode n) _
      (some_ne_none _) hwaiting]
    simp only [Stage.absorbed]
    omega
  | @reposted p n hp =>
    refine credit_advance hp rfl rfl ?_ (fun x hx => ?_) rfl
    · rw [setStage_proc, account_of_awake _ rfl, account_of_awake _ rfl, sem_semPost, if_pos rfl]
      simp only [Stage.absorbed]
      omega
    · rw [setStage_proc, sem_semPost, if_neg hx, add_zero]
      exact ⟨rfl, (lists_of_sem s p _ x).2⟩
  | @unlinked p head l hp =>
    have hsem := fun x => field_modifyProc PGPROC.sem s (lastReleased s.proc head) x
      (fun proc => { proc with lwWaitLink := none }) fun _ => rfl
    have hwaiting := fun x => field_modifyProc PGPROC.lwWaiting s (lastReleased s.proc head) x
      (fun proc => { proc with lwWaitLink := none }) fun _ => rfl
    exact credit_advance hp rfl rfl (account_congr (hsem p) (hwaiting p) _)
      (fun x _ => ⟨hsem x, hwaiting x⟩) rfl
  | @woke p r hp =>
    have hflight := @inFlight_update P s ((s.modifyProc r fun proc =>
      { proc with lwWaitLink := none, lwWaiting := false }).setStage p
        (.posting r (s.proc r).lwWaitLink)) _ p _ _ rfl q
    rw [hp] at hflight
    -- the process that is awakened was waiting
    have hplace : g.place r ≠ none := by
      have hc := hl.chain p
      rw [hp] at hc
      obtain ⟨rest, hchain, -⟩ := hc.eq_cons
      rw [(g.mem_chain p r).mp (by rw [hchain]; exact mem_cons_self)]
      exact some_ne_none _
    have hrp : r ≠ p := by
      rintro rfl
      exact hplace (hl.place_eq_none (by rw [hp]; rfl))
    rw [credit, credit, setStage_stage, setStage_proc, modifyProc_proc, modifyProc_stage]
    change _ = _ + (0 : Int)
    by_cases hqr : q = r
    · subst hqr
      rw [update_of_ne hrp, update_self,
        account_of_waiting ((hl.waiting q).mpr hplace), account_of_woken (hl.sleeps q hplace) rfl]
      simp only [Stage.posts, if_pos] at hflight
      dsimp only
      omega
    simp only [Stage.posts, if_neg (Ne.symm hqr)] at hflight
    rw [update_of_ne hqr]
    by_cases hqp : q = p
    · subst hqp
      rw [update_self, account_of_awake _ rfl, hp, account_of_awake _ rfl]
      simp only [Stage.absorbed]
      omega
    · rw [update_of_ne hqp]
      omega
  | @posted p r head hp =>
    have hflight := @inFlight_update P s ((s.semPost r).setStage p (.waking head)) _ p _ _ rfl q
    rw [hp] at hflight
    have hstage : account (s.proc q) (update s.stage p (.waking head) q) =
        account (s.proc q) (s.stage q) := by
      by_cases hqp : q = p
      · rw [hqp, update_self, account_of_awake _ rfl, hp, account_of_awake _ rfl]
        rfl
      · rw [update_of_ne hqp]
    rw [credit, credit, setStage_stage, setStage_proc, account_semPost]
    change account (s.proc q) (update s.stage p (.waking head) q) + _ + _ = _ + (0 : Int)
    simp only [Stage.posts] at hflight
    split
    · rename_i hrq
      rw [if_pos hrq] at hflight
      omega
    rename_i hrq
    rw [if_neg hrq] at hflight
    omega
  | @foreignPost p =>
    have haccount := account_semPost s p q (s.stage q)
    change account ((s.semPost p).proc q) (s.stage q) + s.inFlight q =
      account (s.proc q) (s.stage q) + s.inFlight q + if p = q then 1 else 0
    omega
  | @foreignWait p _ hp hsem =>
    have hsem' := sem_semWait hsem q
    have hkept : (s'.proc q).lwWaiting = (s.proc q).lwWaiting ∧ s'.stage = s.stage := by
      obtain ⟨-, rfl⟩ := semWait_spec hsem
      exact ⟨(lists_of_sem s p _ q).2, rfl⟩
    rw [credit, credit, inFlight, inFlight, account, account, hkept.1,
      hkept.2, hsem', Event.foreign]
    split
    next hq =>
      rw [if_pos hq.symm]
      omega
    next hq => rw [if_neg (Ne.symm hq), add_zero, add_zero]

/-- A process that waits has not absorbed more than what others have posted. -/
def Covered (s : State P) : Prop :=
  ∀ p l mode n, s.stage p = .waiting l mode n → (n : Int) ≤ s.credit p

theorem le_credit_of_waiting (h : (s.proc p).lwWaiting = true) :
    ((s.stage p).absorbed : Int) ≤ s.credit p := by
  rw [credit, account_of_waiting h]
  omega

section

variable (h : Covered s) (hstage : s'.stage = update s.stage p stage)
  (hcredit : ∀ q, s'.credit q = s.credit q)
include h hstage hcredit

theorem Covered.advance (hp : ∀ l mode n, stage ≠ .waiting l mode n) : Covered s' := by
  intro q l mode n hq
  rw [hcredit]
  rw [hstage] at hq
  by_cases hqp : q = p
  · rw [hqp, update_self] at hq
    exact absurd hq (hp l mode n)
  · rw [update_of_ne hqp] at hq
    exact h q l mode n hq

/-- A process goes to sleep, or back to sleep. -/
theorem Covered.sleep (hp : (s'.proc p).lwWaiting = true) : Covered s' := by
  intro q l mode n hq
  by_cases hqp : q = p
  · subst hqp
    have hle := le_credit_of_waiting hp
    rw [hq] at hle
    exact hle
  rw [hcredit]
  rw [hstage, update_of_ne hqp] at hq
  exact h q l mode n hq

end

theorem Covered.moved (h : Covered s) (hl : Linked s g) (hmove : Moved s e s') : Covered s' := by
  have hcredit := credit_moved hl hmove
  cases hmove with
  | refused => exact h
  | given => exact h
  | @queued p l mode retry n hp hlock =>
    have hplace : g.place p = none := hl.place_eq_none (by rw [hp]; rfl)
    obtain ⟨-, hstage, -⟩ := enqueue_lock (s.setLock l (s.seen l retry)) p l mode
    obtain ⟨-, -, hwaiting⟩ := link_enqueue (hl.seen l retry) hplace l mode
    exact h.sleep (congrArg (fun f => update f p _) hstage)
      (fun q => (hcredit q).trans (add_zero _)) ((hwaiting p).mpr (.inl rfl))
  | taken hp hsem =>
    obtain ⟨-, rfl⟩ := semWait_spec hsem
    exact h.advance rfl (fun q => (hcredit q).trans (add_zero _)) (by rintro _ _ _ ⟨⟩)
  | absorbed hp hwaiting => exact h.sleep rfl (fun q => (hcredit q).trans (add_zero _)) hwaiting
  | @foreignPost p =>
    intro q l mode n hq
    have hle := h q l mode n hq
    have heq := hcredit q
    rw [Event.foreign] at heq
    split at heq <;> omega
  | @foreignWait p _ hp hsem =>
    intro q l mode n hq
    have hstage : s'.stage = s.stage := by
      obtain ⟨-, rfl⟩ := semWait_spec hsem
      rfl
    rw [hstage] at hq
    have hne : p ≠ q := by
      rintro rfl
      rw [hp] at hq
      cases hq
    have hle := h q l mode n hq
    have heq := hcredit q
    rw [Event.foreign, if_neg hne] at heq
    omega
  | _ => exact h.advance rfl (fun q => (hcredit q).trans (add_zero _)) (by rintro _ _ _ ⟨⟩)

end Balanced

/-! ### Runs -/

section Runs

variable [Fintype P] [DecidableEq P]

/-- What holds over every run. -/
structure Inv (s : State P) : Prop where
  counted : Counted s
  ordered : Ordered s
  covered : Covered s

theorem inv_init : Inv (init : State P) := by
  refine ⟨⟨fun l => ?_, fun l => ?_, fun l => ?_, fun l h => ?_⟩, ⟨⟨fun _ => [], fun _ => [],
    fun _ => none, fun _ => nodup_nil, fun _ => nodup_nil, fun _ _ => ?_, fun _ _ => ?_⟩,
    ⟨fun l => ?_, fun l p h => ?_, fun r => ?_, fun p => ?_, fun p h => ?_, fun l p h => ?_⟩,
    ⟨fun l h => ?_, fun l _ _ h => ?_⟩⟩, fun p l mode n h => ?_⟩
  · exact Finset.sum_const_zero.symm
  · exact Finset.sum_const_zero.symm
  · exact Nat.zero_le 1
  · exact absurd h (lt_irrefl 0)
  · exact iff_of_false not_mem_nil (some_ne_none _).symm
  · exact iff_of_false not_mem_nil (some_ne_none _).symm
  · rfl
  · cases h
  · rfl
  · exact iff_of_false Bool.false_ne_true fun hne => hne rfl
  · cases h rfl
  · cases h
  · cases h
  · cases h rfl
  · cases h

theorem Inv.step (h : Inv s) (hstep : step s e = some s') :
    Inv s' ∧ ∀ p, s'.credit p = s.credit p + e.foreign p := by
  have hmove := moved_of_step hstep
  have hl := h.ordered
  obtain ⟨g, hlinked, -⟩ := hl
  exact ⟨⟨h.counted.moved hmove, h.ordered.moved hmove, h.covered.moved hlinked hmove⟩,
    credit_moved hlinked hmove⟩

/-- What the other uses of the semaphore of a process have posted, less what they have waited
for. -/
def foreignBalance (es : List (Event P)) (p : P) : Int := (es.map fun e => e.foreign p).sum

theorem inv_of_exec {es : List (Event P)} : ∀ {s s' : State P}, Inv s →
    Run.exec step s es = some s' →
    Inv s' ∧ ∀ p, s'.credit p = s.credit p + foreignBalance es p := by
  induction es with
  | nil =>
    intro s s' h hrun
    cases hrun
    exact ⟨h, fun p => (add_zero _).symm⟩
  | cons e es ih =>
    intro s s' h hrun
    rw [Run.exec] at hrun
    split at hrun
    · cases hrun
    rename_i t ht
    obtain ⟨hinv, hcredit⟩ := h.step ht
    obtain ⟨hinv', hcredit'⟩ := ih hinv hrun
    refine ⟨hinv', fun p => ?_⟩
    rw [hcredit', hcredit, foreignBalance, foreignBalance, map_cons, sum_cons, add_assoc]

/-- A process has been taken off a queue by a process that has not awakened it yet. -/
def State.Unlinked (s : State P) (p : P) : Prop :=
  ∃ r chain, Chain s.link (s.stage r).rest chain ∧ p ∈ chain

/-- A process has been taken off the queue of a lock and has still to try to get the lock. -/
def State.Retries (s : State P) (l : LWLockId) (p : P) : Prop :=
  (s.stage p).sleeps = some l ∧ ((s.proc p).lwWaiting = false ∨ s.Unlinked p) ∨
    ∃ mode n, s.stage p = .trying l mode true n

/-- Lightweight locks exclude and do not lose wake-ups.  `balance` is what the other uses of
each semaphore have posted and not waited for. -/
structure Safe (s : State P) (balance : P → Int) : Prop where
  /-- An exclusive holder is the only holder, and holds the lock once. -/
  exclusion : ∀ l p, (l, .exclusive) ∈ s.held p → (s.held p).countP (fun hold => hold.1 = l) = 1 ∧
      ∀ q mode, (l, mode) ∈ s.held q → q = p
  /-- The queue of a lock has the processes that wait for it and have not been unlinked. -/
  queue : ∀ l, ∃ queue, Chain s.link (s.lock l).head queue ∧ queue.Nodup ∧ ∀ p, p ∈ queue ↔
    (s.stage p).sleeps = some l ∧ (s.proc p).lwWaiting = true ∧ ¬ s.Unlinked p
  /-- Only processes that wait for a lock have `lwWaiting` set. -/
  waiting : ∀ p, (s.proc p).lwWaiting = true → ∃ l, (s.stage p).sleeps = some l
  /-- The queue of a free lock is not stranded. -/
  retry : ∀ l, (s.lock l).exclusive = 0 → (s.lock l).shared = 0 → (s.lock l).head ≠ none →
    ∃ p, s.Retries l p
  /-- A waiter that has been awakened finds its semaphore posted, or about to be. -/
  posted : ∀ p l mode n, s.stage p = .waiting l mode n → (s.proc p).lwWaiting = false →
    0 < (s.proc p).sem + s.inFlight p
  /-- Outside of these functions a semaphore has what the others have left there, but for the
  wake-ups that are still on their way. -/
  restored : ∀ p, s.stage p = .idle → ((s.proc p).sem : Int) + s.inFlight p = balance p

omit [Fintype P] [DecidableEq P] in
theorem countP_lock (held : List (LWLockId × LWLockMode)) (l : LWLockId) :
    held.countP (fun hold => hold.1 = l) = held.count (l, .exclusive) + held.count (l, .shared) := by
  induction held with
  | nil => rfl
  | cons hold held ih =>
    obtain ⟨k, mode⟩ := hold
    rw [countP_cons, count_cons, count_cons, ih]
    by_cases hk : k = l
    · subst hk
      cases mode with
      | exclusive => simp; omega
      | shared => simp; omega
    · simp [hk]

theorem Counted.exclusion (h : Counted s) (hp : (l, .exclusive) ∈ s.held p) :
    (s.held p).countP (fun hold => hold.1 = l) = 1 ∧ ∀ q mode, (l, mode) ∈ s.held q → q = p := by
  have hone := h.one l
  have halone := h.alone l
  rw [h.exclusive] at hone halone
  rw [h.shared] at halone
  have hshared := halone (one_le_holders hp)
  have hnone : ∀ q, (s.held q).count (l, .shared) = 0 := by
    intro q
    have hle := weight_le_sum (fun held : List (LWLockId × LWLockMode) => held.count (l, .shared))
      s.held (Finset.mem_univ q)
    exact Nat.le_zero.mp (hle.trans_eq hshared)
  have hcount := count_pos_iff.mpr hp
  have hsplit := Finset.add_sum_erase Finset.univ (fun q => (s.held q).count (l, .exclusive))
    (Finset.mem_univ p)
  change _ = s.holders (l, .exclusive) at hsplit
  refine ⟨?_, fun q mode hq => ?_⟩
  · rw [countP_lock, hnone p]
    omega
  by_contra hqp
  cases mode with
  | shared => exact absurd (count_pos_iff.mpr hq) (by rw [hnone q]; exact lt_irrefl 0)
  | exclusive =>
    have hle := weight_le_sum (fun held : List (LWLockId × LWLockMode) =>
      held.count (l, .exclusive)) s.held (Finset.mem_erase.mpr ⟨hqp, Finset.mem_univ q⟩)
    have hpos := count_pos_iff.mpr hq
    omega

omit [Fintype P] [DecidableEq P] in
/-- The processes on the lists of unlinked waiters. -/
theorem Linked.unlinked_iff (h : Linked s g) (p : P) :
    s.Unlinked p ↔ ∃ r, g.place p = some (.chain r) := by
  constructor
  · rintro ⟨r, chain, hchain, hp⟩
    rw [hchain.unique (h.chain r), g.mem_chain] at hp
    exact ⟨r, hp⟩
  · rintro ⟨r, hr⟩
    exact ⟨r, _, h.chain r, (g.mem_chain r p).mpr hr⟩

theorem Inv.safe (h : Inv s) : Safe s s.credit := by
  obtain ⟨g, hl, hw⟩ := h.ordered
  refine ⟨fun l p hp => h.counted.exclusion hp, fun l => ⟨g.queue l, hl.queue l, g.nodup_queue l,
    fun p => ?_⟩, fun p hp => ?_, fun l hex hsh hhead => ?_, fun p l mode n hp hwaiting => ?_,
    fun p hp => ?_⟩
  · rw [g.mem_queue, hl.waiting, hl.unlinked_iff]
    constructor
    · intro hq
      refine ⟨hl.queued l p hq, ?_, ?_⟩
      · rw [hq]
        exact some_ne_none _
      · rw [hq]
        rintro ⟨r, ⟨⟩⟩
    rintro ⟨hsleeps, hplace, hnot⟩
    obtain ⟨place, hplace⟩ := ne_none_iff_exists'.mp hplace
    cases place with
    | queue k =>
      have hk := hl.queued k p hplace
      rw [hsleeps] at hk
      cases hk
      exact hplace
    | chain r => exact absurd ⟨r, hplace⟩ hnot
  · exact ne_none_iff_exists'.mp (hl.sleeps p ((hl.waiting p).mp hp))
  · have hne : g.queue l ≠ [] := by
      intro hnil
      have hchain := hl.queue l
      rw [hnil] at hchain
      exact hhead hchain
    obtain ⟨p, hretry⟩ := hw.pending l (hw.free l hex hsh hne)
    refine ⟨p, ?_⟩
    rcases hretry with ⟨hsleeps, hplace⟩ | htry
    swap
    · exact .inr htry
    refine .inl ⟨hsleeps, ?_⟩
    cases hp : g.place p with
    | none =>
      refine .inl (Bool.eq_false_iff.mpr fun hwaiting => ?_)
      exact (hl.waiting p).mp hwaiting hp
    | some place =>
      cases place with
      | queue k =>
        have hk := hl.queued k p hp
        rw [hsleeps] at hk
        cases hk
        exact absurd hp hplace
      | chain r => exact .inr ((hl.unlinked_iff p).mpr ⟨r, hp⟩)
  · have hle := h.covered p l mode n hp
    rw [credit, hp, @account_of_woken _ (.waiting l mode n) _ (some_ne_none _) hwaiting] at hle
    simp only [Stage.absorbed] at hle
    omega
  · rw [credit, hp, account_of_awake _ rfl]
    simp only [Stage.absorbed, Nat.cast_zero, add_zero]

/-- After every run of any number of processes over any number of locks. -/
theorem lwLocks_safe {es : List (Event P)} (h : Run.exec step State.init es = some s) :
    Safe s (foreignBalance es) := by
  obtain ⟨hinv, hcredit⟩ := inv_of_exec inv_init h
  have hzero : ∀ p, (init : State P).credit p = 0 := by
    intro p
    have hflight : (init : State P).inFlight p = 0 := Finset.sum_const_zero
    rw [credit, hflight]
    rfl
  have hbalance : s.credit = foreignBalance es := by
    funext p
    rw [hcredit, hzero, zero_add]
  rw [← hbalance]
  exact hinv.safe

/-- One process gets a lock, another one waits for it and absorbs a wake-up, and the lock is
released. -/
def handOver : List (Event (Fin 2)) :=
  [.acquire 0 7 .exclusive, .proceed 0, .proceed 0, .acquire 1 7 .shared, .proceed 1,
    .foreignPost 1, .proceed 1, .proceed 1, .release 0 7]

theorem handOver_isSome : (Run.exec step init handOver).isSome = true := by decide +kernel

/-- The lock is free, and the waiter is off the queue but still asleep. -/
theorem lwLocks_safe_handOver :
    ∃ s, Run.exec step State.init handOver = some s ∧ Safe s (foreignBalance handOver) ∧
      (s.lock 7).exclusive = 0 ∧ (s.lock 7).releaseOK = false ∧ (s.proc 1).lwWaiting = true ∧
      s.Unlinked 1 := by
  have hrun := (Option.some_get handOver_isSome).symm
  refine ⟨_, hrun, lwLocks_safe hrun, by decide +kernel, by decide +kernel, by decide +kernel,
    0, [1], ⟨by decide +kernel, ?_⟩, List.mem_singleton_self 1⟩
  change _ = none
  decide +kernel

end Runs

end PrlPg.LWLocks
