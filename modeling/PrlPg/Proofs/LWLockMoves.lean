/-
What a step of the lightweight locks does, and who holds them.

`Moved` says once what a step can do; everything that holds over all runs is proved from it.
The first such result is here.  The counters of a lock are the numbers of its holders, and only
a lock without holders is given to an exclusive one (`Counted`).
-/
import PrlPg.Lib.Count
import PrlPg.Storage.LWLock

namespace PrlPg.LWLocks

open Function List State

variable {P : Type*}

/-! ### What a step can do -/

variable {lock : LWLock P} {mode : LWLockMode}

section Fields

variable (s : State P) (p : P) (l : LWLockId)

@[simp]
theorem setLock_lock (lock : LWLock P) : (s.setLock l lock).lock = update s.lock l lock := rfl

@[simp]
theorem setLock_proc (lock : LWLock P) : (s.setLock l lock).proc = s.proc := rfl

@[simp]
theorem setLock_stage (lock : LWLock P) : (s.setLock l lock).stage = s.stage := rfl

variable [DecidableEq P]

@[simp]
theorem setStage_lock (stage : Stage P) : (s.setStage p stage).lock = s.lock := rfl

@[simp]
theorem setStage_proc (stage : Stage P) : (s.setStage p stage).proc = s.proc := rfl

@[simp]
theorem setStage_stage (stage : Stage P) : (s.setStage p stage).stage = update s.stage p stage := rfl

@[simp]
theorem setHeld_held (held : List (LWLockId × LWLockMode)) : (s.setHeld p held).held = update s.held p held := rfl

section

variable (f : PGPROC P → PGPROC P)
include f

@[simp]
theorem modifyProc_lock : (s.modifyProc p f).lock = s.lock := rfl

@[simp]
theorem modifyProc_proc : (s.modifyProc p f).proc = update s.proc p (f (s.proc p)) := rfl

@[simp]
theorem modifyProc_stage : (s.modifyProc p f).stage = s.stage := rfl

end

end Fields

/-- The lock that a process waits for. -/
def Stage.sleeps : Stage P → Option LWLockId
  | .waiting lockid _ _ => some lockid
  | .awakened lockid _ _ => some lockid
  | _ => none

/-- The unlinked waiters that a process has not awakened yet. -/
def Stage.rest : Stage P → Option P
  | .waking head => head
  | .posting _ head => head
  | _ => none

theorem drop_head (lock : LWLock P) : lock.drop.head = lock.head := by
  unfold LWLock.drop
  split
  · rfl
  · rfl

theorem drop_tail (lock : LWLock P) : lock.drop.tail = lock.tail := by
  unfold LWLock.drop
  split
  · rfl
  · rfl

theorem drop_releaseOK (lock : LWLock P) : lock.drop.releaseOK = lock.releaseOK := by
  unfold LWLock.drop
  split
  · rfl
  · rfl

/-- What `take` does to a lock. -/
theorem take_spec {lock' : LWLock P} (h : lock.take mode = some lock') :
    lock'.head = lock.head ∧ lock'.tail = lock.tail ∧ lock'.releaseOK = lock.releaseOK ∧
      lock.exclusive = 0 ∧
      (mode = .exclusive ∧ lock.shared = 0 ∧ lock'.exclusive = 1 ∧ lock'.shared = 0 ∨
        mode = .shared ∧ lock'.exclusive = 0 ∧ lock'.shared = lock.shared + 1) := by
  cases mode with
  | exclusive =>
    rw [LWLock.take] at h
    split_ifs at h with hfree
    cases h
    refine ⟨rfl, rfl, rfl, hfree.1, .inl ⟨rfl, hfree.2, ?_, hfree.2⟩⟩
    change lock.exclusive + 1 = 1
    omega
  | shared =>
    rw [LWLock.take] at h
    split_ifs at h with hfree
    cases h
    exact ⟨rfl, rfl, rfl, hfree, .inr ⟨rfl, hfree, rfl⟩⟩

theorem take_eq_none (h : lock.take mode = none) : ¬ (lock.exclusive = 0 ∧ lock.shared = 0) := by
  rintro ⟨hex, hsh⟩
  cases mode with
  | exclusive => rw [LWLock.take, if_pos ⟨hex, hsh⟩] at h; cases h
  | shared => rw [LWLock.take, if_pos hex] at h; cases h

theorem seen_spec (s : State P) (l : LWLockId) (retry : Bool) :
    (s.seen l retry).exclusive = (s.lock l).exclusive ∧
      (s.seen l retry).shared = (s.lock l).shared ∧ (s.seen l retry).head = (s.lock l).head ∧
      (s.seen l retry).tail = (s.lock l).tail := by
  cases retry with
  | _ => exact ⟨rfl, rfl, rfl, rfl⟩

section Moved

variable [DecidableEq P]

/-- What an event adds to the wake-ups that a process is to find for its other waits. -/
def Event.foreign : Event P → P → Int
  | .foreignPost q, p => if q = p then 1 else 0
  | .foreignWait q, p => if q = p then -1 else 0
  | _, _ => 0

/-- What a step can do. -/
inductive Moved [Fintype P] (s : State P) : Event P → State P → Prop where
  | refused {e : Event P} (he : ∀ p, e.foreign p = 0) : Moved s e s
  | begun {p lockid mode} (hp : s.stage p = .idle) :
      Moved s (.acquire p lockid mode) (s.setStage p (.trying lockid mode false 0))
  | given {p lockid mode lock}
      (hp : s.stage p = .idle) (hlock : (s.lock lockid).take mode = some lock) :
      Moved s (.conditionalAcquire p lockid mode)
        ((s.setLock lockid lock).setHeld p ((lockid, mode) :: s.held p))
  | got {p lockid mode retry n lock} (hp : s.stage p = .trying lockid mode retry n)
      (hlock : (s.seen lockid retry).take mode = some lock) :
      Moved s (.proceed p)
        (((s.setLock lockid lock).setHeld p ((lockid, mode) :: s.held p)).setStage p (.restoring n))
  | queued {p lockid mode retry n}
      (hp : s.stage p = .trying lockid mode retry n)
      (hlock : (s.seen lockid retry).take mode = none) :
      Moved s (.proceed p)
        (((s.setLock lockid (s.seen lockid retry)).enqueue p lockid mode).setStage p
          (.waiting lockid mode n))
  | taken {p lockid mode n s'}
      (hp : s.stage p = .waiting lockid mode n) (hsem : s.semWait p = some s') :
      Moved s (.proceed p) (s'.setStage p (.awakened lockid mode n))
  | absorbed {p lockid mode n}
      (hp : s.stage p = .awakened lockid mode n) (hwaiting : (s.proc p).lwWaiting = true) :
      Moved s (.proceed p) (s.setStage p (.waiting lockid mode (n + 1)))
  | retried {p lockid mode n}
      (hp : s.stage p = .awakened lockid mode n) (hwaiting : (s.proc p).lwWaiting = false) :
      Moved s (.proceed p) (s.setStage p (.trying lockid mode true n))
  | restored {p} (hp : s.stage p = .restoring 0) :
      Moved s (.proceed p) (s.setStage p .idle)
  | reposted {p n} (hp : s.stage p = .restoring (n + 1)) :
      Moved s (.proceed p) ((s.semPost p).setStage p (.restoring n))
  | released {p lockid} (hp : s.stage p = .idle)
      (hheld : ∃ mode, (lockid, mode) ∈ s.held p)
      (hquiet : (s.lock lockid).head = none ∨ ¬ ((s.lock lockid).drop.exclusive = 0 ∧
        (s.lock lockid).drop.shared = 0 ∧ (s.lock lockid).releaseOK = true)) :
      Moved s (.release p lockid)
        (((s.unheld p lockid).setLock lockid (s.lock lockid).drop).setStage p (.waking none))
  | unlinked {p head lockid} (hp : s.stage p = .idle)
      (hheld : ∃ mode, (lockid, mode) ∈ s.held p) (hhead : (s.lock lockid).head = some head)
      (hfree : (s.lock lockid).drop.exclusive = 0 ∧ (s.lock lockid).drop.shared = 0) :
      Moved s (.release p lockid) ((((s.unheld p lockid).modifyProc (lastReleased s.proc head)
            fun proc => { proc with lwWaitLink := none }).setLock lockid
          { (s.lock lockid).drop with
            head := (s.proc (lastReleased s.proc head)).lwWaitLink, releaseOK := false }).setStage p
          (.waking (some head)))
  | finished {p} (hp : s.stage p = .waking none) :
      Moved s (.proceed p) (s.setStage p .idle)
  | woke {p q} (hp : s.stage p = .waking (some q)) :
      Moved s (.proceed p)
        ((s.modifyProc q fun proc => { proc with lwWaitLink := none, lwWaiting := false }).setStage p
          (.posting q (s.proc q).lwWaitLink))
  | posted {p q head} (hp : s.stage p = .posting q head) :
      Moved s (.proceed p) ((s.semPost q).setStage p (.waking head))
  | foreignPost {p} : Moved s (.foreignPost p) (s.semPost p)
  | foreignWait {p s'} (hp : s.stage p = .idle) (hsem : s.semWait p = some s') :
      Moved s (.foreignWait p) s'

variable {p : P} {s s' : State P}

theorem semWait_spec (h : s.semWait p = some s') :
    (s.proc p).sem ≠ 0 ∧ s' = s.modifyProc p fun proc => { proc with sem := proc.sem - 1 } := by
  unfold semWait at h
  split_ifs at h with hsem
  exact ⟨hsem, (Option.some.inj h).symm⟩

/-- What a process that goes to sleep does to its own entry. -/
def PGPROC.enqueued (proc : PGPROC P) (mode : LWLockMode) : PGPROC P :=
  { proc with lwWaiting := true, lwExclusive := decide (mode = .exclusive), lwWaitLink := none }

/-- What a process that goes to sleep changes of the lock. -/
theorem enqueue_lock (s : State P) (p : P) (l : LWLockId) (mode : LWLockMode) :
    (s.enqueue p l mode).held = s.held ∧ (s.enqueue p l mode).stage = s.stage ∧
      (s.enqueue p l mode).lock = update s.lock l
        { s.lock l with head := some ((s.lock l).head.getD p), tail := some p } := by
  unfold enqueue
  simp only [modifyProc_lock]
  cases hhead : (s.lock l).head with
  | none => exact ⟨rfl, rfl, rfl⟩
  | some head =>
    cases (s.lock l).tail with
    | none | some tail => exact ⟨rfl, rfl, rfl⟩

variable {l : LWLockId}

theorem enqueue_proc_nil {s : State P} (h : (s.lock l).head = none) (p : P) (mode : LWLockMode) :
    (s.enqueue p l mode).proc = update s.proc p ((s.proc p).enqueued mode) := by
  unfold enqueue
  simp only [modifyProc_lock, h]
  rfl

theorem enqueue_proc_cons {s : State P} {head tail : P}
    (hhead : (s.lock l).head = some head) (htail : (s.lock l).tail = some tail)
    (hp : tail ≠ p) (mode : LWLockMode) :
    (s.enqueue p l mode).proc = update (update s.proc p ((s.proc p).enqueued mode)) tail
      { s.proc tail with lwWaitLink := some p } := by
  unfold enqueue
  simp only [modifyProc_lock, hhead, htail, setLock_proc, modifyProc_proc, update_of_ne hp]
  rfl

theorem moved_release [Fintype P] {s : State P} {lockid : LWLockId}
    (hp : s.stage p = .idle) (hheld : ∃ mode, (lockid, mode) ∈ s.held p) :
    Moved s (.release p lockid) (s.release p lockid) := by
  unfold release
  dsimp only
  split
  swap
  · rename_i hhead
    rw [drop_head] at hhead
    exact .released hp hheld (.inl hhead)
  rename_i head hhead
  rw [drop_head] at hhead
  split
  · rename_i hfree
    exact .unlinked hp hheld hhead ⟨hfree.1, hfree.2.1⟩
  rename_i hfree
  rw [drop_releaseOK] at hfree
  exact .released hp hheld (.inr hfree)

theorem moved_proceed [Fintype P] (h : proceed s p = some s') : Moved s (.proceed p) s' := by
  unfold proceed at h
  split at h
  · cases h
  · rename_i lockid mode retry n hp
    cases h
    unfold tryAcquire
    split
    · rename_i lock hlock
      exact .got hp hlock
    · rename_i hlock
      exact .queued hp hlock
  · rename_i lockid mode n hp
    obtain ⟨t, ht, rfl⟩ := Option.map_eq_some_iff.mp h
    exact .taken hp ht
  · rename_i lockid mode n hp
    split at h
    · rename_i hwaiting
      cases h
      exact .absorbed hp hwaiting
    rename_i hwaiting
    cases h
    exact .retried hp (Bool.eq_false_iff.mpr hwaiting)
  · rename_i hp
    cases h
    exact .restored hp
  · rename_i n hp
    cases h
    exact .reposted hp
  · rename_i hp
    cases h
    exact .finished hp
  · rename_i q hp
    cases h
    exact .woke hp
  rename_i q head hp
  cases h
  exact .posted hp

theorem moved_of_step [Fintype P] {e : Event P} (h : step s e = some s') : Moved s e s' := by
  cases e with
  | acquire p lockid mode =>
    simp only [step] at h
    split at h
    · rename_i hp
      split at h
      · cases h
        exact .refused fun _ => rfl
      · cases h
        exact .begun hp
    · cases h
  | conditionalAcquire p lockid mode =>
    simp only [step] at h
    split at h
    swap
    · cases h
    rename_i hp
    split at h
    · cases h
      exact .refused fun _ => rfl
    cases h
    unfold conditionalAcquire
    split
    · rename_i lock hlock
      exact .given hp hlock
    · exact .refused fun _ => rfl
  | release p lockid =>
    simp only [step] at h
    split at h
    swap
    · cases h
    rename_i hp
    split at h
    swap
    · cases h
      exact .refused fun _ => rfl
    rename_i hheld
    cases h
    rw [any_eq_true] at hheld
    obtain ⟨hold, hmem, hlock⟩ := hheld
    refine moved_release hp ⟨hold.2, ?_⟩
    rw [← of_decide_eq_true hlock]
    exact hmem
  | proceed p => exact moved_proceed h
  | foreignPost p =>
    cases h
    exact .foreignPost
  | foreignWait p =>
    simp only [step] at h
    split at h
    · rename_i hp
      exact .foreignWait hp h
    · cases h

end Moved

/-! ### Holders -/

section Counted

variable [Fintype P] {s s' : State P}

def State.holders (s : State P) (hold : LWLockId × LWLockMode) : Nat := ∑ p, (s.held p).count hold

/-- The counters of a lock are the numbers of its holders, and there is at most one holder
if one of them is exclusive. -/
structure Counted (s : State P) : Prop where
  exclusive : ∀ l, (s.lock l).exclusive = s.holders (l, .exclusive)
  shared : ∀ l, (s.lock l).shared = s.holders (l, .shared)
  one : ∀ l, (s.lock l).exclusive ≤ 1
  alone : ∀ l, 0 < (s.lock l).exclusive → (s.lock l).shared = 0

theorem Counted.congr (h : Counted s) (hheld : s'.held = s.held)
    (hlock : ∀ l, (s'.lock l).exclusive = (s.lock l).exclusive ∧
      (s'.lock l).shared = (s.lock l).shared) : Counted s' := by
  have hholders : s'.holders = s.holders := by
    funext hold
    rw [holders, holders, hheld]
  refine ⟨fun l => ?_, fun l => ?_, fun l => ?_, fun l hpos => ?_⟩
  · rw [(hlock l).1, hholders, h.exclusive]
  · rw [(hlock l).2, hholders, h.shared]
  · rw [(hlock l).1]
    exact h.one l
  · rw [(hlock l).1] at hpos
    rw [(hlock l).2, h.alone l hpos]

theorem one_le_holders {hold : LWLockId × LWLockMode} (h : hold ∈ s.held p) :
    1 ≤ s.holders hold := by
  have hle := weight_le_sum (fun held : List (LWLockId × LWLockMode) => held.count hold) s.held
    (Finset.mem_univ p)
  have hpos := count_pos_iff.mpr h
  exact le_trans hpos hle

section

variable (h : Counted s)
include h

/-- One lock changes, with its holders. -/
theorem Counted.change (hlock : s'.lock = update s.lock l lock)
    (hother : ∀ k mode, k ≠ l → s'.holders (k, mode) = s.holders (k, mode))
    (hexclusive : lock.exclusive = s'.holders (l, .exclusive))
    (hshared : lock.shared = s'.holders (l, .shared)) (hone : lock.exclusive ≤ 1)
    (halone : 0 < lock.exclusive → lock.shared = 0) : Counted s' := by
  have hself : s'.lock l = lock := by rw [hlock, update_self]
  have hne : ∀ k, k ≠ l → s'.lock k = s.lock k := by
    intro k hk
    rw [hlock, update_of_ne hk]
  refine ⟨fun k => ?_, fun k => ?_, fun k => ?_, fun k => ?_⟩
  · by_cases hk : k = l
    · rw [hk, hself, hexclusive]
    · rw [hne k hk, hother k _ hk, h.exclusive]
  · by_cases hk : k = l
    · rw [hk, hself, hshared]
    · rw [hne k hk, hother k _ hk, h.shared]
  · by_cases hk : k = l
    · rw [hk, hself]
      exact hone
    · rw [hne k hk]
      exact h.one k
  by_cases hk : k = l
  · rw [hk, hself]
    exact halone
  · rw [hne k hk]
    exact h.alone k

/-- A lock is taken by one more holder. -/
theorem Counted.take [DecidableEq P] (hex : (s.lock l).exclusive = 0)
    (htake : mode = .exclusive ∧ (s.lock l).shared = 0 ∧ lock.exclusive = 1 ∧ lock.shared = 0 ∨
        mode = .shared ∧ lock.exclusive = 0 ∧ lock.shared = (s.lock l).shared + 1)
    (hlock : s'.lock = update s.lock l lock)
    (hheld : s'.held = update s.held p ((l, mode) :: s.held p)) : Counted s' := by
  have hholders : ∀ hold, s'.holders hold = s.holders hold + if (l, mode) = hold then 1 else 0 := by
    intro hold
    have hsum := sum_update (fun held : List (LWLockId × LWLockMode) => held.count hold) s.held
      ((l, mode) :: s.held p) (Finset.mem_univ p)
    rw [count_cons] at hsum
    simp only [beq_iff_eq] at hsum
    rw [holders, holders, hheld]
    omega
  have hexcl := h.exclusive l
  have hshar := h.shared l
  refine h.change hlock (fun k mode hk => ?_) ?_ ?_ ?_ ?_
  · rw [hholders, if_neg (by simp [Ne.symm hk]), add_zero]
  · rw [hholders]
    rcases htake with ⟨rfl, -, hone, -⟩ | ⟨rfl, hzero, -⟩
    · rw [if_pos rfl]
      omega
    · rw [if_neg (by simp)]
      omega
  · rw [hholders]
    rcases htake with ⟨rfl, h0, -, h0'⟩ | ⟨rfl, -, hsucc⟩
    · rw [if_neg (by simp)]
      omega
    · rw [if_pos rfl]
      omega
  · omega
  · omega

/-- A lock that a process holds is given up. -/
theorem Counted.drop [DecidableEq P]
    (hmem : (l, mode) ∈ s.held p) (hlock : s'.lock = update s.lock l lock)
    (hheld : s'.held = (s.unheld p l).held)
    (hexclusive : lock.exclusive = (s.lock l).drop.exclusive)
    (hshared : lock.shared = (s.lock l).drop.shared) : Counted s' := by
  -- the entry that is removed
  obtain ⟨hold, l₁, l₂, -, hhold, hsplit, herase⟩ :=
    @exists_of_eraseP _ (fun hold : LWLockId × LWLockMode => decide (hold.1 = l)) _ _ hmem
      (decide_eq_true rfl)
  have hholders : ∀ other, s.holders other = s'.holders other + if hold = other then 1 else 0 := by
    intro other
    have hsum := sum_update (fun held : List (LWLockId × LWLockMode) => held.count other) s.held
      (l₁ ++ l₂) (Finset.mem_univ p)
    have hcount : (s.held p).count other =
        (l₁ ++ l₂).count other + if hold = other then 1 else 0 := by
      rw [hsplit, count_append, count_append, count_cons]
      simp only [beq_iff_eq]
      omega
    rw [holders, holders, hheld, unheld, setHeld_held, herase]
    omega
  obtain ⟨k, mode'⟩ := hold
  obtain rfl : k = l := of_decide_eq_true hhold
  have hexcl := h.exclusive k
  have hshar := h.shared k
  have hone := h.one k
  have halone := h.alone k
  have hex := hholders (k, .exclusive)
  have hsh := hholders (k, .shared)
  unfold LWLock.drop at hexclusive hshared
  refine h.change hlock (fun k' mode hk => ?_) ?_ ?_ ?_ ?_
  · rw [hholders, if_neg (by simp [Ne.symm hk]), add_zero]
  all_goals
    cases mode' with
    | exclusive =>
      rw [if_pos rfl] at hex
      rw [if_pos (show (s.lock k).exclusive > 0 by omega)] at hexclusive hshared
      dsimp only at hexclusive hshared
      omega
    | shared =>
      rw [if_pos rfl] at hsh
      rw [if_neg (show ¬ (s.lock k).exclusive > 0 by omega)] at hexclusive hshared
      dsimp only at hexclusive hshared
      omega

theorem Counted.moved [DecidableEq P] {e : Event P} (hmove : Moved s e s') :
    Counted s' := by
  cases hmove with
  | refused => exact h
  | given hp hlock =>
    obtain ⟨-, -, -, hex, htake⟩ := take_spec hlock
    exact h.take hex htake rfl rfl
  | @got p lockid mode retry n lock hp hlock =>
    obtain ⟨-, -, -, hex, htake⟩ := take_spec hlock
    obtain ⟨hseen, hseen', -, -⟩ := seen_spec s lockid retry
    rw [hseen] at hex
    rw [hseen'] at htake
    exact h.take hex htake rfl rfl
  | @queued p lockid mode retry n hp hlock =>
    obtain ⟨hseen, hseen', -, -⟩ := seen_spec s lockid retry
    obtain ⟨hheld, -, henq⟩ := enqueue_lock (s.setLock lockid (s.seen lockid retry)) p lockid mode
    refine h.congr hheld fun l => ?_
    rw [setStage_lock, henq, setLock_lock]
    by_cases hl : l = lockid
    · subst hl
      simp only [update_self]
      exact ⟨hseen, hseen'⟩
    · rw [update_of_ne hl, update_of_ne hl]
      exact ⟨rfl, rfl⟩
  | taken hp hsem | foreignWait hp hsem =>
    obtain ⟨-, rfl⟩ := semWait_spec hsem
    exact h.congr rfl fun _ => ⟨rfl, rfl⟩
  | released hp hheld | unlinked hp hheld =>
    obtain ⟨mode, hmem⟩ := hheld
    exact h.drop hmem rfl rfl rfl rfl
  | _ => exact h.congr rfl fun _ => ⟨rfl, rfl⟩

end

end Counted

end PrlPg.LWLocks
