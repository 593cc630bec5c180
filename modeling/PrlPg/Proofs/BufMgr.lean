/-
The cleanup lock.

`refcount` counts the backends that have the buffer pinned, so whoever sees it at one is alone.  A
backend that waits has its flag set and somebody else's pin to wait for, or its signal is on the
way; no wake-up is lost.  But a wait that ends for another reason leaves the flag set, and the next
look at the buffer header takes it for that of another waiter.
-/
import Mathlib.Data.Fintype.Card
import PrlPg.Lib.Count
import PrlPg.Lib.Run
import PrlPg.Storage.BufMgr

namespace PrlPg.BufMgr

open Function State Finset Run

variable {P : Type*} [DecidableEq P] [Fintype P] {s t : State P} {p q : P} {e : Event P}

/-- The backend has set the flag and sleeps, or is about to. -/
def State.Waits (s : State P) (p : P) : Prop := s.pc p = .unlock ∨ s.pc p = .wait

/-- The signal has been sent, or somebody is about to send it. -/
def State.Signalled (s : State P) (p : P) : Prop := 0 < s.sem p ∨ ∃ q, s.pc q = .signal (some p)

/-- Whoever is about to return has the only pin, and a sleeper with the only pin is woken up. -/
def Safe (s : State P) : Prop :=
  (∀ p, s.pc p = .check → s.refcount = 1 → ∀ q ≠ p, s.privateRefCount q = 0) ∧
  ∀ p, s.pc p = .wait → (∀ q ≠ p, s.privateRefCount q = 0) → s.Signalled p

/-- Whoever is about to raise the error finds another backend waiting. -/
def Genuine (s : State P) : Prop :=
  ∀ p, s.pc p = .check → s.refcount ≠ 1 → s.pinCountWaiter = true → ∃ q ≠ p, s.Waits q

/-- A wait ends while the flag is set for it. -/
def Stray (s : State P) (e : Event P) : Prop :=
  ∃ p, e = .wakeUp p ∧ s.pinCountWaiter = true ∧ s.waitBackendPid = some p

/-- The signal has been sent, or the flag is set and there is somebody to send it. -/
def State.Cared (s : State P) (p : P) : Prop :=
  s.Signalled p ∨ s.pinCountWaiter = true ∧ s.waitBackendPid = some p ∧ 2 ≤ s.refcount

structure Inv (s : State P) : Prop where
  refcount : s.refcount = #{q | 0 < s.privateRefCount q}
  pinned : ∀ p, s.pc p = .idle ∨ (∃ q, s.pc p = .signal q) ∨ 0 < s.privateRefCount p
  waits : ∀ p, s.Waits p → s.Cared p
  noted : ∀ p, s.Waits p → s.pinCountWaitBuf p = true

/-- The flag is that of a backend that waits. -/
def Owned (s : State P) : Prop :=
  s.pinCountWaiter = true → ∃ p, s.waitBackendPid = some p ∧ s.Waits p

section Count

omit [DecidableEq P]

theorem Inv.alone (h : Inv s) (hp : 0 < s.privateRefCount p) (hone : s.refcount = 1) (hq : q ≠ p) :
    s.privateRefCount q = 0 := by
  by_contra hpos
  rw [h.refcount] at hone
  exact hq (card_le_one.mp hone.le q (by simpa using Nat.pos_of_ne_zero hpos) p (by simpa using hp))

theorem Inv.refcount_pos (h : Inv s) (p : P) (hp : 0 < s.privateRefCount p) : 0 < s.refcount := by
  rw [h.refcount]
  exact card_pos.mpr ⟨p, by simpa using hp⟩

end Count

/-- How the number of backends with a pin changes with the pins of one. -/
theorem card_update (f : P → Nat) (p : P) (n : Nat) :
    #{q | 0 < update f p n q} + (if 0 < f p then 1 else 0)
      = #{q | 0 < f q} + if 0 < n then 1 else 0 := by
  have hsum := sum_update (fun k : Nat => if 0 < k then 1 else 0) f n (mem_univ p)
  rwa [← card_filter, ← card_filter] at hsum

omit [DecidableEq P] in
/-- A step of backend `p`.  The others stay where they are and are cared for as before; `p` has a
pin or is not in need of one, and is cared for if it waits. -/
theorem Inv.frame (h : Inv s) (p : P) (hcount : t.refcount = #{q | 0 < t.privateRefCount q})
    (hother : ∀ q ≠ p, t.pc q = s.pc q ∧ t.privateRefCount q = s.privateRefCount q ∧
      t.pinCountWaitBuf q = s.pinCountWaitBuf q ∧ (s.Cared q → t.Cared q))
    (hpinned : t.pc p = .idle ∨ (∃ q, t.pc p = .signal q) ∨ 0 < t.privateRefCount p)
    (hself : t.Waits p → t.Cared p ∧ t.pinCountWaitBuf p = true) : Inv t := by
  have hwaits : ∀ q ≠ p, t.Waits q → s.Waits q := fun q hq hw => by
    rwa [Waits, (hother q hq).1] at hw
  refine ⟨hcount, fun q => ?pinned, fun q hw => ?waits, fun q hw => ?noted⟩ <;>
    rcases eq_or_ne q p with rfl | hqp
  case pinned.inl => exact hpinned
  case pinned.inr =>
    rw [(hother q hqp).1, (hother q hqp).2.1]
    exact h.pinned q
  case waits.inl => exact (hself hw).1
  case waits.inr => exact (hother q hqp).2.2.2 (h.waits q (hwaits q hqp hw))
  case noted.inl => exact (hself hw).2
  case noted.inr =>
    rw [(hother q hqp).2.2.1]
    exact h.noted q (hwaits q hqp hw)

omit [Fintype P] in
theorem not_waits_goto {pc : Pc P} (h : pc ≠ .unlock ∧ pc ≠ .wait) : ¬ (s.goto p pc).Waits p := by
  simpa [Waits, State.goto] using h

omit [Fintype P] in
/-- No signal is lost when somebody else moves than who has to send it. -/
theorem State.Signalled.goto (h : s.Signalled q) (hp : s.pc p ≠ .signal (some q)) (pc : Pc P) :
    (s.goto p pc).Signalled q := by
  refine h.imp id fun ⟨r, hr⟩ => ⟨r, ?_⟩
  have hrp : r ≠ p := by
    rintro rfl
    exact hp hr
  simpa [State.goto, hrp] using hr

theorem Inv.pin (h : Inv s) (hpc : s.pc p = .idle) : Inv (s.pinBuffer p) := by
  have hcard := card_update s.privateRefCount p (s.privateRefCount p + 1)
  rw [if_pos (Nat.succ_pos _), ← h.refcount] at hcard
  refine h.frame p ?_ (fun q hq => ⟨rfl, update_of_ne hq _ _, rfl, ?_⟩) (.inl hpc) fun hw => ?_
  · show (if s.privateRefCount p = 0 then s.refcount + 1 else s.refcount) =
      #{q | 0 < update s.privateRefCount p (s.privateRefCount p + 1) q}
    split_ifs at hcard ⊢ <;> omega
  · refine Or.imp id fun ⟨hflag, hpid, htwo⟩ => ⟨hflag, hpid, htwo.trans ?_⟩
    simp only [pinBuffer]
    split_ifs <;> omega
  · simp [Waits, pinBuffer, hpc] at hw

theorem Inv.unpin (h : Inv s) (hpc : s.pc p = .idle) (hpos : 0 < s.privateRefCount p) :
    Inv (s.unpinBuffer p) := by
  have hcard := card_update s.privateRefCount p (s.privateRefCount p - 1)
  rw [if_pos hpos, ← h.refcount] at hcard
  have hidle : ¬ s.Waits p := by simp [Waits, hpc]
  simp only [unpinBuffer]
  split_ifs with hlast hwake
  · -- the last pin other than the waiter's: the flag is taken down, and the signal is to come
    refine h.frame p ?_ (fun q hq => ⟨update_of_ne hq _ _, update_of_ne hq _ _, rfl, ?_⟩)
      (.inr (.inl ⟨_, update_self ..⟩)) fun hw => absurd hw (not_waits_goto (by simp))
    · show s.refcount - 1 = #{q | 0 < update s.privateRefCount p (s.privateRefCount p - 1) q}
      rw [if_neg (by omega)] at hcard
      omega
    · rintro (hs | ⟨-, hpid, -⟩)
      · exact .inl (hs.goto (by simp [hpc]) _)
      · exact .inl (.inr ⟨p, by simp [State.goto, hpid]⟩)
  · -- the last pin, but nobody waits for it or there are more
    refine h.frame p ?_ (fun q hq => ⟨rfl, update_of_ne hq _ _, rfl, Or.imp id ?_⟩) (.inl hpc)
      fun hw => absurd hw hidle
    · rw [if_neg (by omega)] at hcard
      simp only
      omega
    · rintro ⟨hflag, hpid, htwo⟩
      simp only [hflag, true_and] at hwake ⊢
      exact ⟨hpid, by omega⟩
  · -- one of several
    refine h.frame p ?_ (fun q hq => ⟨rfl, update_of_ne hq _ _, rfl, id⟩) (.inl hpc)
      fun hw => absurd hw hidle
    rw [if_pos (by omega)] at hcard
    simp only
    omega

/-- A backend moves that has no signal to send, and does not wait afterwards. -/
theorem Inv.goto (h : Inv s) (hp : ∀ q, s.pc p ≠ .signal (some q)) {pc : Pc P}
    (hpinned : pc = .idle ∨ 0 < s.privateRefCount p) (hwait : pc ≠ .unlock ∧ pc ≠ .wait) :
    Inv (s.goto p pc) := by
  refine h.frame p h.refcount (fun q hq => ⟨update_of_ne hq _ _, rfl, rfl, ?_⟩)
    (hpinned.imp (fun hidle => by simp [State.goto, hidle]) .inr)
    fun hw => absurd hw (not_waits_goto hwait)
  exact Or.imp_left fun hs => hs.goto (hp q) pc

omit [DecidableEq P] in
/-- The content lock has no part in it. -/
theorem Inv.content (h : Inv s) (contentLock : P → Option LWLocks.LWLockMode) :
    Inv { s with contentLock := contentLock } := ⟨h.refcount, h.pinned, h.waits, h.noted⟩

/-- A backend leaves with an error and takes down no flag but its own. -/
theorem Inv.fail (h : Inv s) (hp : ∀ q, s.pc p ≠ .signal (some q)) :
    Inv ((s.unlockBuffers p).goto p .idle) := by
  refine h.frame p h.refcount (fun q hq => ⟨update_of_ne hq _ _, rfl, update_of_ne hq _ _, ?_⟩)
    (.inl (update_self ..)) fun hw => absurd hw (not_waits_goto (by simp))
  refine Or.imp (fun hs => hs.goto (hp q) .idle) fun ⟨hset, hpid, htwo⟩ => ⟨?_, hpid, htwo⟩
  simp [State.goto, unlockBuffers, hset, hpid, hq]

omit [DecidableEq P] [Fintype P] in
/-- The flag is as it was or down, and its owner waits on. -/
theorem Owned.frame (h : Owned s) (p : P)
    (hflag : t.pinCountWaiter = true → s.pinCountWaiter = true)
    (hpid : t.waitBackendPid = s.waitBackendPid) (hother : ∀ q ≠ p, t.pc q = s.pc q)
    (hself : s.Waits p → s.waitBackendPid = some p → t.pinCountWaiter = true → t.Waits p) :
    Owned t := by
  intro hset
  obtain ⟨q, hq, hw⟩ := h (hflag hset)
  refine ⟨q, hpid.trans hq, ?_⟩
  rcases eq_or_ne q p with rfl | hqp
  · exact hself hw hq hset
  · rwa [Waits, hother q hqp]

omit [Fintype P] in
theorem Owned.goto (h : Owned s) (hp : ¬ s.Waits p) (pc : Pc P) : Owned (s.goto p pc) :=
  h.frame p id rfl (fun _ hq => update_of_ne hq _ _) fun hw => absurd hw hp

theorem Owned.fail (h : Owned s) (hinv : Inv s) : Owned ((s.unlockBuffers p).goto p .idle) := by
  refine h.frame p (fun hset => ?_) rfl (fun _ hq => update_of_ne hq _ _) fun hw hpid hset => ?_
  · simp only [State.goto, unlockBuffers, Bool.and_eq_true] at hset
    exact hset.1
  · simp [State.goto, unlockBuffers, hpid, hinv.noted p hw] at hset

/-- Every step keeps the invariant, and a flag outlives its wait only if the wait ends by a
leftover wake-up. -/
theorem Inv.step (h : Inv s) (hst : step s e = some t) :
    Inv t ∧ (Owned s → ¬ Stray s e → Owned t) := by
  cases e with
  | pinBuffer p =>
    obtain ⟨hpc, ⟨⟩⟩ := Option.ite_none_right_eq_some.mp hst
    exact ⟨h.pin hpc, fun ho _ => ho⟩
  | unpinBuffer p =>
    obtain ⟨⟨hpc, hpos, -⟩, ⟨⟩⟩ := Option.ite_none_right_eq_some.mp hst
    refine ⟨h.unpin hpc hpos, fun ho _ => ?_⟩
    simp only [State.unpinBuffer]
    split_ifs
    · exact fun hset => by simp [State.goto] at hset
    · exact ho
    · exact ho
  | procSendSignal p =>
    simp only [BufMgr.step] at hst
    split at hst
    · rename_i r hpc
      cases hst
      refine ⟨h.frame p h.refcount (fun q hq => ⟨update_of_ne hq _ _, rfl, rfl, ?_⟩)
        (.inl (update_self ..)) fun hw => absurd hw (not_waits_goto (by simp)),
        fun ho _ => Owned.goto (s := s.post r) ho (by simp [Waits, post, hpc]) .idle⟩
      refine Or.imp_left fun hs => ?_
      by_cases hqr : q = r
      · exact .inl (by simp [State.goto, post, hqr])
      · refine (hs.goto (p := p) (by simp [hpc, Ne.symm hqr]) .idle).imp ?_ id
        simp [State.goto, post, hqr]
    · rename_i hpc
      cases hst
      exact ⟨h.goto (by simp [hpc]) (.inl rfl) (by simp),
        fun ho _ => ho.goto (by simp [Waits, hpc]) _⟩
    · cases hst
  | lockBuffer p mode =>
    simp only [BufMgr.step] at hst
    split_ifs at hst with hfree hidle hpc
    · cases hst
      exact ⟨h.content _, fun ho _ => ho⟩
    · cases hst
      have hpinned : 0 < s.privateRefCount p := by simpa [hpc.1] using h.pinned p
      exact ⟨(h.content _).goto (by simp [hpc.1]) (.inr hpinned) (by simp),
        fun ho _ => Owned.goto ho (by simp [Waits, hpc.1]) _⟩
  | unlockBuffer p =>
    simp only [BufMgr.step] at hst
    split_ifs at hst with hidle hpc
    · cases hst
      exact ⟨h.content _, fun ho _ => ho⟩
    · -- it waits before and after
      cases hst
      have hpinned : 0 < s.privateRefCount p := by simpa [hpc] using h.pinned p
      have hgoto (q : P) : s.Cared q → (s.goto p .wait).Cared q :=
        Or.imp_left fun hs => hs.goto (by simp [hpc]) .wait
      exact ⟨h.frame p h.refcount (fun q hq => ⟨update_of_ne hq _ _, rfl, rfl, hgoto q⟩)
          (.inr (.inr hpinned)) fun _ => ⟨hgoto p (h.waits p (.inl hpc)), h.noted p (.inl hpc)⟩,
        fun ho _ => ho.frame p id rfl (fun _ hq => update_of_ne hq _ _)
          fun _ _ _ => .inr (update_self ..)⟩
  | lockBufferForCleanup p =>
    obtain ⟨⟨hpc, hone⟩, ⟨⟩⟩ := Option.ite_none_right_eq_some.mp hst
    exact ⟨h.goto (by simp [hpc]) (.inr (by omega)) (by simp),
      fun ho _ => ho.goto (by simp [Waits, hpc]) _⟩
  | checkRefcount p =>
    obtain ⟨hpc, ⟨⟩⟩ := Option.ite_none_right_eq_some.mp hst
    have hpinned : 0 < s.privateRefCount p := by simpa [hpc] using h.pinned p
    simp only [State.checkRefcount]
    split_ifs with hone hflag
    · exact ⟨h.goto (by simp [hpc]) (.inl rfl) (by simp),
        fun ho _ => ho.goto (by simp [Waits, hpc]) _⟩
    · exact ⟨(h.content _).fail (by simp [hpc]), fun ho _ => Owned.fail ho (h.content _)⟩
    · -- others have a pin, and nobody waits for them yet
      have hcount := h.refcount_pos p hpinned
      refine ⟨h.frame p h.refcount
        (fun q hq => ⟨update_of_ne hq _ _, rfl, update_of_ne hq _ _, fun hs => .inl ?_⟩)
        (.inr (.inr hpinned)) fun _ => ⟨.inr ⟨rfl, rfl, ?_⟩, update_self ..⟩,
        fun _ _ _ => ⟨p, rfl, .inl (update_self ..)⟩⟩
      · exact (hs.resolve_right fun hset => hflag hset.1).goto (by simp [hpc]) .unlock
      · show 2 ≤ s.refcount
        omega
  | wakeUp p =>
    obtain ⟨⟨hpc, -⟩, ⟨⟩⟩ := Option.ite_none_right_eq_some.mp hst
    have hpinned : 0 < s.privateRefCount p := by simpa [hpc] using h.pinned p
    refine ⟨h.frame p h.refcount
      (fun q hq => ⟨update_of_ne hq _ _, rfl, update_of_ne hq _ _, Or.imp_left fun hs => ?_⟩)
      (.inr (.inr hpinned)) fun hw => absurd hw (not_waits_goto (by simp)), fun ho hstray => ?_⟩
    · refine (hs.goto (p := p) (by simp [hpc]) .acquire).imp ?_ id
      simp [State.goto, hq]
    · exact ho.frame p id rfl (fun _ hq => update_of_ne hq _ _)
        fun _ hpid hset => absurd ⟨p, rfl, hset, hpid⟩ hstray
  | interrupt p =>
    obtain ⟨hpc, ⟨⟩⟩ := Option.ite_none_right_eq_some.mp hst
    exact ⟨h.fail (by simp [hpc]), fun ho _ => ho.fail h⟩
  | leftover p =>
    cases hst
    refine ⟨⟨h.refcount, h.pinned, fun q hw => (h.waits q hw).imp_left ?_, h.noted⟩, fun ho _ => ho⟩
    refine Or.imp_left fun hsem => ?_
    by_cases hqp : q = p
    · simp [post, hqp]
    · simpa [post, hqp] using hsem

omit [DecidableEq P] in
theorem Inv.safe (h : Inv s) : Safe s := by
  refine ⟨fun p hpc hone q hq => ?_, fun p hpc hother => ?_⟩
  · refine h.alone ?_ hone hq
    simpa [hpc] using h.pinned p
  refine (h.waits p (.inr hpc)).resolve_right fun hset => ?_
  have hle : #{q | 0 < s.privateRefCount q} ≤ #{p} := by
    refine card_le_card fun q hq => ?_
    by_contra hne
    simp [hother q (by simpa using hne)] at hq
  rw [← h.refcount, card_singleton] at hle
  omega

theorem run_inv : ∀ {es : List (Event P)} {s : State P}, Inv s → exec step s es = some t →
    Inv t ∧ (Owned s → Never step Stray s es → Owned t)
  | [], s, h, hrun => by
    cases hrun
    exact ⟨h, fun howned _ => howned⟩
  | e :: es, s, h, hrun => by
    obtain ⟨u, hst, hrun⟩ := exists_of_exec_cons hrun
    obtain ⟨hu, hkeep⟩ := h.step hst
    obtain ⟨ht, howned⟩ := run_inv hu hrun
    refine ⟨ht, fun hs hnever => ?_⟩
    obtain ⟨hstray, hnever⟩ := (never_cons hst).mp hnever
    exact howned (hkeep hs hstray) hnever

omit [DecidableEq P] in
theorem inv_init : Inv (init : State P) where
  refcount := by simp [init]
  pinned p := .inl rfl
  waits p hw := by simp [Waits, init] at hw
  noted p hw := by simp [Waits, init] at hw

/-- The first backend waits for the second one's pin. -/
def waiting : List (Event Bool) :=
  [.pinBuffer true, .pinBuffer false, .lockBufferForCleanup true, .lockBuffer true .exclusive,
    .checkRefcount true, .unlockBuffer true]

/-- Then it is woken up by something else. -/
def earlyWake : List (Event Bool) :=
  waiting ++ [.leftover true, .wakeUp true, .lockBuffer true .exclusive]

theorem earlyWake_isSome : (exec step init earlyWake).isSome = true := by decide

theorem earlyWake_not_genuine : ∃ t, exec step init earlyWake = some t ∧ ¬ Genuine t := by
  refine ⟨_, (Option.some_get earlyWake_isSome).symm, fun herror => ?_⟩
  obtain ⟨q, hq, hw⟩ := herror true (by decide) (by decide) (by decide)
  cases q with
  | true => exact hq rfl
  | false => rcases hw with hw | hw <;> revert hw <;> decide

/-- In every run the shared count is the number of backends that have the buffer pinned; and at
zero, where the buffer may be replaced, nobody is in a routine that still uses it. -/
theorem refcount_exact {es : List (Event P)} (hrun : exec step init es = some t) :
    t.refcount = #{q | 0 < t.privateRefCount q} ∧ (t.refcount = 0 → ∀ p,
      t.privateRefCount p = 0 ∧ (t.pc p = .idle ∨ ∃ q, t.pc p = .signal q)) := by
  obtain ⟨h, -⟩ := run_inv inv_init hrun
  refine ⟨h.refcount, fun hzero p => ?_⟩
  have hfree : t.privateRefCount p = 0 := by
    by_contra hne
    exact (h.refcount_pos p (Nat.pos_of_ne_zero hne)).ne' hzero
  exact ⟨hfree, by simpa [hfree] using h.pinned p⟩

theorem refcount_exact_earlyWake : ∃ t, exec step init earlyWake = some t ∧
    t.refcount = 2 ∧ t.refcount = #{q | 0 < t.privateRefCount q} := by
  have hrun := (Option.some_get earlyWake_isSome).symm
  exact ⟨_, hrun, by decide, (refcount_exact hrun).1⟩

end PrlPg.BufMgr
