/-
The wait queues of the lightweight locks.

The state is read together with lists of what the pointers say: the queue of each lock, the
waiters that each process has unlinked and not yet awakened, and for each process the one list
that it is on (`Lists`).  The invariant is that the pointers make these lists, and that a
process is on a list just if its `lwWaiting` is set (`Linked`).  Three steps change the lists: a
process goes to sleep, a release unlinks the first waiters, and a waiter is awakened.
-/
import PrlPg.Lib.LinkedList
import PrlPg.Proofs.LWLockMoves

namespace PrlPg.LWLocks

open Function LinkedList List Option State

variable {P : Type*}
variable {p : P} {l : LWLockId} {stage : Stage P}

section Linked

variable {s s' : State P}

/-- The list that a process is on: the queue of a lock, or the waiters that a process has
unlinked. -/
inductive Place (P : Type*) where
  | queue (l : LWLockId)
  | chain (r : P)
  deriving DecidableEq

/-- The queue of each lock, the waiters that each process has unlinked and not yet awakened,
and the one list that each process is on. -/
structure Lists (P : Type*) where
  queue : LWLockId → List P
  chain : P → List P
  place : P → Option (Place P)
  nodup_queue : ∀ l, (queue l).Nodup
  nodup_chain : ∀ r, (chain r).Nodup
  mem_queue : ∀ l p, p ∈ queue l ↔ place p = some (.queue l)
  mem_chain : ∀ r p, p ∈ chain r ↔ place p = some (.chain r)

def State.link (s : State P) (p : P) : Option P := (s.proc p).lwWaitLink

/-- The pointers make these lists, and the processes on them are those that wait. -/
structure Linked (s : State P) (g : Lists P) : Prop where
  queue : ∀ l, Chain s.link (s.lock l).head (g.queue l)
  tail : ∀ l p, (g.queue l).getLast? = some p → (s.lock l).tail = some p
  chain : ∀ r, Chain s.link (s.stage r).rest (g.chain r)
  waiting : ∀ p, (s.proc p).lwWaiting = true ↔ g.place p ≠ none
  sleeps : ∀ p, g.place p ≠ none → (s.stage p).sleeps ≠ none
  queued : ∀ l p, g.place p = some (.queue l) → (s.stage p).sleeps = some l

variable {g : Lists P} {lock : LWLock P}

/-- The queues do not depend on the rest of the state. -/
theorem Linked.congr (h : Linked s g)
    (hlock : ∀ l, (s'.lock l).head = (s.lock l).head ∧ (s'.lock l).tail = (s.lock l).tail)
    (hproc : ∀ p, (s'.proc p).lwWaitLink = (s.proc p).lwWaitLink ∧
      (s'.proc p).lwWaiting = (s.proc p).lwWaiting)
    (hrest : ∀ r, (s'.stage r).rest = (s.stage r).rest)
    (hsleeps : ∀ p, g.place p ≠ none → (s'.stage p).sleeps = (s.stage p).sleeps) :
    Linked s' g where
  queue l := by
    rw [(hlock l).1]
    exact (h.queue l).congr fun p _ => (hproc p).1
  tail l p hp := by
    rw [(hlock l).2]
    exact h.tail l p hp
  chain r := by
    rw [hrest r]
    exact (h.chain r).congr fun p _ => (hproc p).1
  waiting p := by
    rw [(hproc p).2]
    exact h.waiting p
  sleeps p hp := by
    rw [hsleeps p hp]
    exact h.sleeps p hp
  queued l p hp := by
    rw [hsleeps p (by rw [hp]; simp)]
    exact h.queued l p hp

theorem Linked.place_eq_none (h : Linked s g) (hp : (s.stage p).sleeps = none) :
    g.place p = none := by
  by_contra hplace
  exact h.sleeps p hplace hp

/-- The ends of the queues when those of the one lock that changes stay. -/
theorem ends_of_update (hhead : lock.head = (s.lock l).head)
    (htail : lock.tail = (s.lock l).tail) (k : LWLockId) :
    (update s.lock l lock k).head = (s.lock k).head ∧
      (update s.lock l lock k).tail = (s.lock k).tail := by
  by_cases hk : k = l
  · rw [hk, update_self]
    exact ⟨hhead, htail⟩
  · rw [update_of_ne hk]
    exact ⟨rfl, rfl⟩

theorem Lists.notMem_queue (g : Lists P) (hp : g.place p = none) (l : LWLockId) :
    p ∉ g.queue l := by
  rw [g.mem_queue, hp]
  exact (some_ne_none _).symm

theorem Lists.notMem_chain (g : Lists P) (hp : g.place p = none) (r : P) : p ∉ g.chain r := by
  rw [g.mem_chain, hp]
  exact (some_ne_none _).symm

/-- The waiters that are released together: those for shared access from the first one on. -/
theorem lastShared_spec : ∀ (fuel : Nat) (head : P) (l : List P),
    Chain s.link (some head) (head :: l) → l.length < fuel →
    ∃ rest, head :: l = (head :: l.takeWhile fun p => !(s.proc p).lwExclusive) ++ rest ∧
      (head :: l.takeWhile fun p => !(s.proc p).lwExclusive).getLast? =
        some (lastShared s.proc fuel head) := by
  intro fuel
  induction fuel with
  | zero =>
    intro head l _ hlt
    cases hlt
  | succ fuel ih =>
    intro head l hchain hlt
    obtain ⟨-, hnext⟩ := hchain
    cases l with
    | nil =>
      change (s.proc head).lwWaitLink = none at hnext
      refine ⟨[], rfl, ?_⟩
      rw [lastShared, hnext]
      rfl
    | cons next l =>
      obtain ⟨hlink, hrest⟩ := hnext
      change (s.proc head).lwWaitLink = some next at hlink
      rw [lastShared, hlink]
      simp only
      split_ifs with hex
      · rw [takeWhile_cons, hex]
        exact ⟨next :: l, rfl, rfl⟩
      rw [takeWhile_cons, Bool.eq_false_iff.mpr hex]
      obtain ⟨rest, hsplit, hlast⟩ := ih next l ⟨rfl, hrest⟩ (by rw [length_cons] at hlt; omega)
      refine ⟨rest, ?_, ?_⟩
      · rw [hsplit]
        rfl
      · rw [← hlast]
        rfl

/-- The last waiter to be released is on the queue. -/
theorem lastReleased_spec [Fintype P] (h : Linked s g) {head : P}
    (hhead : (s.lock l).head = some head) :
    ∃ w rest, g.queue l = w ++ lastReleased s.proc head :: rest := by
  have hchain := h.queue l
  rw [hhead] at hchain
  obtain ⟨tl, hqueue, hrest⟩ := hchain.eq_cons
  rw [hqueue]
  unfold lastReleased
  split_ifs with hex
  · exact ⟨[], tl, rfl⟩
  have hnd := g.nodup_queue l
  have hlen := hnd.length_le_card
  rw [hqueue] at hlen
  obtain ⟨rest, hsplit, hlast⟩ := lastShared_spec (Fintype.card P) head tl ⟨rfl, hrest⟩ hlen
  obtain ⟨init, hinit⟩ := getLast?_eq_some_iff.mp hlast
  refine ⟨init, rest, ?_⟩
  rw [hsplit, hinit, append_assoc]
  rfl

variable [DecidableEq P]

/-- A process goes on without touching a list. -/
theorem Linked.advance (h : Linked s g)
    (hstage : s'.stage = update s.stage p stage) (hrest : stage.rest = (s.stage p).rest)
    (hsleeps : g.place p ≠ none → stage.sleeps = (s.stage p).sleeps)
    (hlock : ∀ l, (s'.lock l).head = (s.lock l).head ∧ (s'.lock l).tail = (s.lock l).tail)
    (hproc : ∀ q, (s'.proc q).lwWaitLink = (s.proc q).lwWaitLink ∧
      (s'.proc q).lwWaiting = (s.proc q).lwWaiting) : Linked s' g := by
  refine h.congr hlock hproc (fun r => ?_) fun q hq => ?_
  · rw [hstage]
    by_cases hr : r = p
    · rw [hr, update_self, hrest]
    · rw [update_of_ne hr]
  rw [hstage]
  by_cases hqp : q = p
  · subst hqp
    rw [update_self, hsleeps hq]
  · rw [update_of_ne hqp]

/-- A semaphore changes. -/
theorem lists_of_sem (s : State P) (p : P) (n : Nat) (q : P) :
    ((s.modifyProc p fun proc => { proc with sem := n }).proc q).lwWaitLink =
        (s.proc q).lwWaitLink ∧
      ((s.modifyProc p fun proc => { proc with sem := n }).proc q).lwWaiting =
        (s.proc q).lwWaiting := by
  rw [modifyProc_proc]
  by_cases hq : q = p
  · rw [hq, update_self]
    exact ⟨rfl, rfl⟩
  · rw [update_of_ne hq]
    exact ⟨rfl, rfl⟩

namespace Lists

variable (g : Lists P)

/-- A process goes to sleep at the end of a queue. -/
def enqueue (p : P) (l : LWLockId) (hp : g.place p = none) : Lists P where
  queue := update g.queue l (g.queue l ++ [p])
  chain := g.chain
  place := update g.place p (some (.queue l))
  nodup_queue k := by
    by_cases hk : k = l
    · rw [hk, update_self]
      exact List.Nodup.append (g.nodup_queue l) (List.nodup_singleton p)
        (List.disjoint_singleton.mpr (g.notMem_queue hp l))
    · rw [update_of_ne hk]
      exact g.nodup_queue k
  nodup_chain := g.nodup_chain
  mem_queue k q := by
    by_cases hq : q = p
    · subst hq
      rw [update_self]
      by_cases hk : k = l
      · rw [hk, update_self]
        exact iff_of_true (by simp) rfl
      · rw [update_of_ne hk]
        exact iff_of_false (g.notMem_queue hp k) (by rintro ⟨⟩; exact hk rfl)
    rw [update_of_ne hq, ← g.mem_queue]
    by_cases hk : k = l
    · rw [hk, update_self, List.mem_append, List.mem_singleton, or_iff_left hq]
    · rw [update_of_ne hk]
  mem_chain r q := by
    by_cases hq : q = p
    · subst hq
      rw [update_self]
      exact iff_of_false (g.notMem_chain hp r) (by rintro ⟨⟩)
    · rw [update_of_ne hq]
      exact g.mem_chain r q

/-- The first waiters of a lock are unlinked by a process that has no others. -/
def unlink {l : LWLockId} {w rest : List P} {r : P} (hl : g.queue l = w ++ rest)
    (hr : g.chain r = []) : Lists P where
  queue := update g.queue l rest
  chain := update g.chain r w
  place q := if q ∈ w then some (.chain r) else g.place q
  nodup_queue k := by
    by_cases hk : k = l
    · have hnd := g.nodup_queue l
      rw [hl] at hnd
      rw [hk, update_self]
      exact hnd.of_append_right
    · rw [update_of_ne hk]
      exact g.nodup_queue k
  nodup_chain k := by
    by_cases hk : k = r
    · have hnd := g.nodup_queue l
      rw [hl] at hnd
      rw [hk, update_self]
      exact hnd.of_append_left
    · rw [update_of_ne hk]
      exact g.nodup_chain k
  mem_queue k q := by
    have hnd := g.nodup_queue l
    rw [hl, List.nodup_append'] at hnd
    have hmem := g.mem_queue l q
    rw [hl, List.mem_append] at hmem
    split_ifs with hw
    · refine iff_of_false ?_ (by rintro ⟨⟩)
      by_cases hk : k = l
      · rw [hk, update_self]
        exact fun hrest => hnd.2.2 hw hrest
      rw [update_of_ne hk, g.mem_queue, hmem.mp (.inl hw)]
      rintro ⟨⟩
      exact hk rfl
    rw [← g.mem_queue]
    by_cases hk : k = l
    · rw [hk, update_self, hl, List.mem_append, or_iff_right hw]
    · rw [update_of_ne hk]
  mem_chain k q := by
    have hmem := g.mem_queue l q
    rw [hl, List.mem_append] at hmem
    split_ifs with hw
    · by_cases hk : k = r
      · rw [hk, update_self]
        exact iff_of_true hw rfl
      · rw [update_of_ne hk, g.mem_chain, hmem.mp (.inl hw)]
        exact iff_of_false (by rintro ⟨⟩) (by rintro ⟨⟩; exact hk rfl)
    rw [← g.mem_chain]
    by_cases hk : k = r
    · rw [hk, update_self, hr]
      exact iff_of_false hw List.not_mem_nil
    · rw [update_of_ne hk]

/-- A process awakens the first of the waiters that it has unlinked. -/
def awaken {r q : P} {rest : List P} (hr : g.chain r = q :: rest) : Lists P where
  queue := g.queue
  chain := update g.chain r rest
  place := update g.place q none
  nodup_queue := g.nodup_queue
  nodup_chain k := by
    by_cases hk : k = r
    · have hnd := g.nodup_chain r
      rw [hr] at hnd
      rw [hk, update_self]
      exact hnd.of_cons
    · rw [update_of_ne hk]
      exact g.nodup_chain k
  mem_queue l p := by
    have hq := (g.mem_chain r q).mp (by rw [hr]; exact List.mem_cons_self)
    by_cases hp : p = q
    · subst hp
      rw [update_self, g.mem_queue, hq]
      exact iff_of_false (by rintro ⟨⟩) (by rintro ⟨⟩)
    · rw [update_of_ne hp, g.mem_queue]
  mem_chain k p := by
    have hnd := g.nodup_chain r
    rw [hr, List.nodup_cons] at hnd
    have hq := (g.mem_chain r q).mp (by rw [hr]; exact List.mem_cons_self)
    by_cases hp : p = q
    · subst hp
      rw [update_self]
      refine iff_of_false ?_ (by rintro ⟨⟩)
      by_cases hk : k = r
      · rw [hk, update_self]
        exact hnd.1
      rw [update_of_ne hk, g.mem_chain, hq]
      rintro ⟨⟩
      exact hk rfl
    rw [update_of_ne hp, ← g.mem_chain]
    by_cases hk : k = r
    · rw [hk, update_self, hr, List.mem_cons, or_iff_right hp]
    · rw [update_of_ne hk]

variable {g} {w rest : List P} {q r x : P} {k : LWLockId}

theorem queue_of_unlink {hl : g.queue l = w ++ rest} {hr : g.chain r = []}
    (hx : (g.unlink hl hr).place x = some (.queue k)) : g.place x = some (.queue k) := by
  change (if x ∈ w then some (Place.chain r) else g.place x) = _ at hx
  split at hx
  · cases hx
  · exact hx

theorem queue_of_awaken {hr : g.chain r = q :: rest}
    (hx : (g.awaken hr).place x = some (.queue k)) : g.place x = some (.queue k) := by
  by_cases hxq : x = q
  · rw [hxq, show (g.awaken hr).place q = none from update_self ..] at hx
    cases hx
  · exact (update_of_ne hxq _ _).symm.trans hx

end Lists

section

variable (h : Linked s g)
include h

theorem Linked.stage_of_place (hsleeps : (s.stage p).sleeps = none)
    (hstage : s'.stage = update s.stage p stage) {x : P} (hx : g.place x ≠ none) :
    s'.stage x = s.stage x := by
  rw [hstage, update_of_ne]
  rintro rfl
  exact hx (h.place_eq_none hsleeps)

/-- The pointers after a process has been put at the end of the queue. -/
theorem link_enqueue (hp : g.place p = none) (l : LWLockId) (mode : LWLockMode) :
    Chain (s.enqueue p l mode).link (some ((s.lock l).head.getD p)) (g.queue l ++ [p]) ∧
      (∀ q, q ≠ p → q ∉ g.queue l → (s.enqueue p l mode).link q = s.link q) ∧
      ∀ q, ((s.enqueue p l mode).proc q).lwWaiting = true ↔ q = p ∨ (s.proc q).lwWaiting = true := by
  have hchain := h.queue l
  cases hhead : (s.lock l).head with
  | none =>
    rw [hhead] at hchain
    rw [hchain.eq_nil]
    have hproc := enqueue_proc_nil hhead p mode
    refine ⟨⟨rfl, ?_⟩, fun q hq _ => ?_, fun q => ?_⟩
    · rw [link, hproc, update_self]
      rfl
    · rw [link, hproc, update_of_ne hq]
      rfl
    rw [hproc]
    by_cases hq : q = p
    · rw [hq, update_self]
      exact iff_of_true rfl (.inl rfl)
    · rw [update_of_ne hq, or_iff_right hq]
  | some head =>
    rw [hhead] at hchain
    have hne : g.queue l ≠ [] := by
      intro hnil
      rw [hnil] at hchain
      cases hchain
    obtain ⟨init, tail, hsplit⟩ : ∃ init tail, g.queue l = init ++ [tail] :=
      ⟨_, _, (dropLast_append_getLast hne).symm⟩
    have htail := h.tail l tail (by rw [hsplit, getLast?_concat])
    have hpq := g.notMem_queue hp l
    have htp : tail ≠ p := by
      rintro rfl
      exact hpq (by rw [hsplit]; simp)
    have hproc := enqueue_proc_cons hhead htail htp mode
    have hlink : (s.enqueue p l mode).link = update (update s.link p none) tail (some p) := by
      funext q
      rw [link, hproc]
      by_cases hqt : q = tail
      · rw [hqt, update_self, update_self]
      rw [update_of_ne hqt, update_of_ne hqt]
      by_cases hqp : q = p
      · rw [hqp, update_self, update_self]
        rfl
      · rw [update_of_ne hqp, update_of_ne hqp]
        rfl
    have hnd := g.nodup_queue l
    rw [hsplit] at hchain hnd hpq ⊢
    refine ⟨?_, fun q hqp hq => ?_, fun q => ?_⟩
    · rw [hlink]
      exact hchain.push hnd hpq
    · have hqt : q ≠ tail := by
        rintro rfl
        exact hq (by simp)
      rw [hlink, update_of_ne hqt, update_of_ne hqp]
    rw [hproc]
    by_cases hqt : q = tail
    · rw [hqt, update_self, or_iff_right htp]
    rw [update_of_ne hqt]
    by_cases hq : q = p
    · rw [hq, update_self]
      exact iff_of_true rfl (.inl rfl)
    · rw [update_of_ne hq, or_iff_right hq]

/-- A process that cannot get the lock goes to sleep at the end of its queue. -/
theorem Linked.enqueue {mode : LWLockMode} {n : Nat}
    (hp : g.place p = none) (hrest : (s.stage p).rest = none) :
    Linked ((s.enqueue p l mode).setStage p (.waiting l mode n)) (g.enqueue p l hp) := by
  obtain ⟨hqueue, hother, hwaiting⟩ := link_enqueue h hp l mode
  obtain ⟨-, hstage, hlock⟩ := enqueue_lock s p l mode
  have hstays : ∀ q, g.place q ≠ some (.queue l) → g.place q ≠ none →
      ((s.enqueue p l mode).setStage p (.waiting l mode n)).link q = s.link q := by
    intro q hql hq
    rw [Ne, ← g.mem_queue] at hql
    exact hother q (by rintro rfl; exact hq hp) hql
  have hplace : ∀ q, q ≠ p → (g.enqueue p l hp).place q = g.place q :=
    fun q hq => update_of_ne hq _ _
  have hplace' : (g.enqueue p l hp).place p = some (.queue l) := update_self ..
  have hqueue' : ∀ k, k ≠ l → (g.enqueue p l hp).queue k = g.queue k :=
    fun k hk => update_of_ne hk _ _
  have hqueuel : (g.enqueue p l hp).queue l = g.queue l ++ [p] := update_self ..
  refine ⟨fun k => ?_, fun k q hq => ?_, fun r => ?_, fun q => ?_, fun q hq => ?_, fun k q hq => ?_⟩
  · rw [setStage_lock, hlock]
    by_cases hk : k = l
    · rw [hk, update_self, hqueuel]
      exact hqueue
    rw [update_of_ne hk, hqueue' k hk]
    refine (h.queue k).congr fun q hq => ?_
    rw [g.mem_queue] at hq
    rw [hstays q]
    · rw [hq]
      rintro ⟨⟩
      exact hk rfl
    · rw [hq]
      exact some_ne_none _
  · rw [setStage_lock, hlock]
    by_cases hk : k = l
    · rw [hk, hqueuel, getLast?_concat] at hq
      rw [hk, update_self, ← hq]
    rw [hqueue' k hk] at hq
    rw [update_of_ne hk]
    exact h.tail k q hq
  · have hrest' : (((s.enqueue p l mode).setStage p (.waiting l mode n)).stage r).rest =
        (s.stage r).rest := by
      rw [setStage_stage, hstage]
      by_cases hr : r = p
      · rw [hr, update_self, hrest]
        rfl
      · rw [update_of_ne hr]
    rw [hrest']
    refine (h.chain r).congr fun q hq => ?_
    rw [g.mem_chain] at hq
    rw [hstays q]
    · rw [hq]
      rintro ⟨⟩
    · rw [hq]
      exact some_ne_none _
  · rw [setStage_proc, hwaiting]
    by_cases hq : q = p
    · rw [hq, hplace']
      exact iff_of_true (.inl rfl) (some_ne_none _)
    · rw [or_iff_right hq, hplace q hq]
      exact h.waiting q
  · rw [setStage_stage, hstage]
    by_cases hqp : q = p
    · rw [hqp, update_self]
      exact some_ne_none _
    rw [hplace q hqp] at hq
    rw [update_of_ne hqp]
    exact h.sleeps q hq
  rw [setStage_stage, hstage]
  by_cases hqp : q = p
  · subst hqp
    rw [hplace'] at hq
    cases hq
    rw [update_self]
    rfl
  rw [hplace q hqp] at hq
  rw [update_of_ne hqp]
  exact h.queued k q hq

/-- A release unlinks the first waiters. -/
theorem Linked.unlink {q : P} {w rest : List P}
    (hl : g.queue l = (w ++ [q]) ++ rest) (hp : g.chain p = [])
    (hsleeps : (s.stage p).sleeps = none) (hlock : s'.lock = update s.lock l lock)
    (hproc : s'.proc = update s.proc q { s.proc q with lwWaitLink := none })
    (hstage : s'.stage = update s.stage p stage)
    (hhead : lock.head = (s.proc q).lwWaitLink) (htail : lock.tail = (s.lock l).tail)
    (hrest : stage.rest = (s.lock l).head) : Linked s' (g.unlink hl hp) := by
  have hlink : s'.link = update s.link q none := by
    funext x
    rw [link, hproc]
    by_cases hx : x = q
    · rw [hx, update_self, update_self]
    · rw [update_of_ne hx, update_of_ne hx]
      rfl
  have hqueue := h.queue l
  have hnd := g.nodup_queue l
  rw [hl, append_assoc] at hqueue hnd
  obtain ⟨hcut, hback⟩ := hqueue.cut hnd
  have hq : g.place q = some (.queue l) := by
    rw [← g.mem_queue, hl]
    simp
  have hstays : ∀ x, g.place x ≠ some (.queue l) → s'.link x = s.link x := by
    intro x hx
    rw [hlink, update_of_ne]
    rintro rfl
    exact hx hq
  have hw : ∀ x ∈ w ++ [q], g.place x = some (.queue l) := by
    intro x hx
    rw [← g.mem_queue, hl]
    exact mem_append_left _ hx
  have hplace : ∀ x, (g.unlink hl hp).place x =
      if x ∈ w ++ [q] then some (.chain p) else g.place x := fun _ => rfl
  refine ⟨fun k => ?_, fun k x hx => ?_, fun r => ?_, fun x => ?_, fun x hx => ?_, fun k x hx => ?_⟩
  · change Chain s'.link (s'.lock k).head (update g.queue l rest k)
    rw [hlock]
    by_cases hk : k = l
    · rw [hk, update_self, update_self, hlink, hhead]
      exact hback
    rw [update_of_ne hk, update_of_ne hk]
    refine (h.queue k).congr fun x hx => hstays x ?_
    rw [(g.mem_queue k x).mp hx]
    rintro ⟨⟩
    exact hk rfl
  · change (update g.queue l rest k).getLast? = some x at hx
    rw [hlock]
    by_cases hk : k = l
    · rw [hk, update_self] at hx
      rw [hk, update_self, htail]
      refine h.tail l x ?_
      rw [hl, getLast?_append, hx]
      rfl
    rw [update_of_ne hk] at hx
    rw [update_of_ne hk]
    exact h.tail k x hx
  · change Chain s'.link (s'.stage r).rest (update g.chain p (w ++ [q]) r)
    rw [hstage]
    by_cases hr : r = p
    · rw [hr, update_self, update_self, hrest, hlink]
      exact hcut
    rw [update_of_ne hr, update_of_ne hr]
    refine (h.chain r).congr fun x hx => hstays x ?_
    rw [(g.mem_chain r x).mp hx]
    rintro ⟨⟩
  · have hwait : (s'.proc x).lwWaiting = (s.proc x).lwWaiting := by
      rw [hproc]
      by_cases hx : x = q
      · rw [hx, update_self]
      · rw [update_of_ne hx]
    rw [hwait, h.waiting, hplace]
    by_cases hx : x ∈ w ++ [q]
    · rw [if_pos hx, hw x hx]
      exact iff_of_true (some_ne_none _) (some_ne_none _)
    · rw [if_neg hx]
  · have hx' : g.place x ≠ none := by
      rw [hplace] at hx
      by_cases hmem : x ∈ w ++ [q]
      · rw [hw x hmem]
        exact some_ne_none _
      · rwa [if_neg hmem] at hx
    rw [h.stage_of_place hsleeps hstage hx']
    exact h.sleeps x hx'
  have hx := Lists.queue_of_unlink hx
  rw [h.stage_of_place hsleeps hstage (by rw [hx]; exact some_ne_none _)]
  exact h.queued k x hx

/-- A process awakens the first waiter that it has unlinked. -/
theorem Linked.awaken {q : P} {rest : List P}
    (hp : g.chain p = q :: rest) (hsleeps : (s.stage p).sleeps = none) (hlock : s'.lock = s.lock)
    (hproc : s'.proc = update s.proc q
      { s.proc q with lwWaitLink := none, lwWaiting := false })
    (hstage : s'.stage = update s.stage p stage)
    (hrest : stage.rest = (s.proc q).lwWaitLink) : Linked s' (g.awaken hp) := by
  have hlink : ∀ x, x ≠ q → s'.link x = s.link x := by
    intro x hx
    rw [link, hproc, update_of_ne hx]
    rfl
  have hq : g.place q = some (.chain p) := by
    rw [← g.mem_chain, hp]
    exact mem_cons_self
  have hchain := h.chain p
  rw [hp] at hchain
  have hnd := g.nodup_chain p
  rw [hp, nodup_cons] at hnd
  have hplace : ∀ x, x ≠ q → (g.awaken hp).place x = g.place x := fun x hx => update_of_ne hx _ _
  have hplace' : (g.awaken hp).place q = none := update_self ..
  refine ⟨fun k => ?_, fun k x hx => ?_, fun r => ?_, fun x => ?_, fun x hx => ?_, fun k x hx => ?_⟩
  · rw [hlock]
    refine (h.queue k).congr fun x hx => hlink x ?_
    rintro rfl
    rw [g.mem_queue, hq] at hx
    cases hx
  · rw [hlock]
    exact h.tail k x hx
  · change Chain s'.link (s'.stage r).rest (update g.chain p rest r)
    rw [hstage]
    by_cases hr : r = p
    · rw [hr, update_self, update_self, hrest]
      refine hchain.2.congr fun x hx => hlink x ?_
      rintro rfl
      exact hnd.1 hx
    rw [update_of_ne hr, update_of_ne hr]
    refine (h.chain r).congr fun x hx => hlink x ?_
    rintro rfl
    rw [g.mem_chain, hq] at hx
    cases hx
    exact hr rfl
  · by_cases hx : x = q
    · rw [hx, hproc, update_self, hplace']
      exact iff_of_false Bool.false_ne_true (fun hne => hne rfl)
    · rw [hproc, update_of_ne hx, hplace x hx]
      exact h.waiting x
  · have hxq : x ≠ q := by
      rintro rfl
      exact hx hplace'
    rw [hplace x hxq] at hx
    rw [h.stage_of_place hsleeps hstage hx]
    exact h.sleeps x hx
  have hx := Lists.queue_of_awaken hx
  rw [h.stage_of_place hsleeps hstage (by rw [hx]; exact some_ne_none _)]
  exact h.queued k x hx

end

end Linked

end PrlPg.LWLocks
