/-
The coded queue is a bounded first-in first-out queue.

`Inv` ties the three semaphores to the linked list.  Every unit of `spaces` is
either in the semaphore, or held by a process that is about to link a cell, or
stands for a linked cell, or is about to be posted by a process that has unlinked
one; `items` and `mutex` are accounted for in the same way.  The counts are sums
over the processes of what each point of a routine holds (`spaceUnits`, `itemUnits`,
`mutexUnits`), so one process moving changes each sum by one term.

The early return of `bufferQueueGet` needs no case of its own: a process that is
about to look at `head` holds a unit of `items` for which a cell is linked.
-/
import PrlPg.Storage.BufferQueue
import PrlPg.Lib.Count

namespace PrlPg.Sem

open Function List State

variable {α P : Type*}

/-! ### The chain of cells -/

variable {next : Addr → Option Addr}

/-- The cells met from `p` along `next` are exactly `l`. -/
def IsChain (next : Addr → Option Addr) : Option Addr → List Addr → Prop
  | p, [] => p = none
  | p, a :: l => p = some a ∧ IsChain next (next a) l

theorem IsChain.walk_eq :
    ∀ {l : List Addr} {p : Option Addr}, IsChain next p l → walk next l.length p = l := by
  intro l
  induction l with
  | nil => intro p _; rfl
  | cons a l ih =>
    intro p h
    obtain ⟨rfl, hrest⟩ := h
    show a :: walk next l.length (next a) = a :: l
    rw [ih hrest]

theorem IsChain.head_eq : ∀ {l : List Addr} {p : Option Addr}, IsChain next p l → p = l.head? := by
  intro l p h
  cases l with
  | nil => exact h
  | cons a l => exact h.1

/-- Linking `c` behind the last cell extends the chain by `c`. -/
theorem IsChain.concat {c t : Addr} :
    ∀ {l : List Addr} {p : Option Addr}, IsChain next p l → l.Nodup → c ∉ l → l.getLast? = some t →
      IsChain (update (update next t (some c)) c none) p (l ++ [c]) := by
  intro l
  induction l with
  | nil => intro p _ _ _ hlast; simp at hlast
  | cons a l ih =>
    intro p h hnd hc hlast
    obtain ⟨rfl, hrest⟩ := h
    have hac : a ≠ c := by rintro rfl; exact hc (by simp)
    refine ⟨rfl, ?_⟩
    rw [update_of_ne hac]
    cases l with
    | nil =>
      simp only [getLast?_singleton] at hlast
      cases hlast
      rw [update_self]
      exact ⟨rfl, by simp [IsChain]⟩
    | cons b l =>
      have hta : a ≠ t := by
        rintro rfl
        exact (nodup_cons.mp hnd).1 (mem_of_getLast? hlast)
      rw [update_of_ne hta]
      exact ih hrest (nodup_cons.mp hnd).2 (fun hm => hc (by simp [hm])) hlast

/-! ### What each point of a routine holds -/

/-- Units of `spaces` taken and not yet turned into a cell, or owed for an unlinked one. -/
def spaceUnits : Pc → Nat
  | .addMutex .. | .addLink .. | .getUnlock _ | .getPost _ => 1
  | _ => 0

/-- Units of `items` owed for a linked cell, or taken for a cell still linked. -/
def itemUnits : Pc → Nat
  | .addUnlock _ | .addPost _ | .getMutex | .getUnlink => 1
  | _ => 0

/-- One for a process inside a critical section. -/
def mutexUnits : Pc → Nat
  | .addLink .. | .addUnlock _ | .probeSize | .probeUnlock _ | .getUnlink | .getUnlock _
  | .getAbandoned | .stopSet _ | .stopUnlock _ => 1
  | _ => 0

/-- The list, the semaphores and the processes fit together; `l` is the chain. -/
structure Inv [Fintype P] (c : Nat) (s : State α P) (l : List Addr) : Prop where
  cap : s.shared.initSize = c
  chain : IsChain s.shared.next s.shared.head l
  tail : s.shared.tail = l.getLast?
  size : s.shared.size = l.length
  nodup : l.Nodup
  spaces : s.shared.spaces + ∑ p, spaceUnits (s.pc p) + l.length = c
  items : s.shared.items + ∑ p, itemUnits (s.pc p) = l.length
  mutex : s.shared.mutex + ∑ p, mutexUnits (s.pc p) = 1
  /-- What came out is a prefix of what went in, and the chain is the rest. -/
  order : s.inserted = s.handed ++ l
  apart : ∀ p a, (s.pc p).holds = some a → a ∉ l
  owner : ∀ p q a, (s.pc p).holds = some a → (s.pc q).holds = some a → p = q
  live : ∀ p, s.pc p ≠ .getAbandoned

variable {c : Nat} {s : State α P} {l : List Addr}

theorem Inv.fresh_iff [Fintype P] (h : Inv c s l) (cell : Addr) :
    Fresh s cell ↔ cell ∉ l ∧ ∀ p, (s.pc p).holds ≠ some cell := by
  have hwalk : walk s.shared.next s.shared.size.toNat s.shared.head = l := by
    rw [h.size, Int.toNat_natCast]
    exact h.chain.walk_eq
  rw [Fresh, hwalk]

variable [DecidableEq P]
variable {p : P} {v : Pc} {pc : P → Pc}

theorem holds_update {q : P} {a : Addr}
    (h : (update pc p v q).holds = some a) :
    (q = p ∧ v.holds = some a) ∨ (q ≠ p ∧ (pc q).holds = some a) := by
  by_cases hq : q = p
  · subst hq
    rw [update_self] at h
    exact .inl ⟨rfl, h⟩
  · rw [update_of_ne hq] at h
    exact .inr ⟨hq, h⟩

variable [Fintype P]
variable {s' : State α P} {cell : Addr} {stopOnLast : Bool} {sh : Shared α}

section

variable (h : Inv c s l)
include h

/-- One process moves from point `u` to point `v` and the chain comes to have `n` cells.  The
accounts balance if the units it gives up are in the semaphores or in the chain. -/
theorem Inv.traded {u : Pc} (hpc : s.pc p = u) (v : Pc) (sh : Shared α) (n : Nat)
    (hspaces : sh.spaces + spaceUnits v + n = s.shared.spaces + spaceUnits u + l.length)
    (hitems : sh.items + itemUnits v + l.length = s.shared.items + itemUnits u + n)
    (hmutex : sh.mutex + mutexUnits v = s.shared.mutex + mutexUnits u) :
    sh.spaces + ∑ q, spaceUnits (update s.pc p v q) + n = c ∧
      sh.items + ∑ q, itemUnits (update s.pc p v q) = n ∧
      sh.mutex + ∑ q, mutexUnits (update s.pc p v q) = 1 := by
  subst hpc
  have hsum := fun w : Pc → Nat => sum_update w s.pc v (Finset.mem_univ p)
  have hs := h.spaces
  have hi := h.items
  have hm := h.mutex
  have e1 := hsum spaceUnits
  have e2 := hsum itemUnits
  have e3 := hsum mutexUnits
  exact ⟨by omega, by omega, by omega⟩

theorem Inv.live_update (hv : v ≠ .getAbandoned) (q : P) :
    update s.pc p v q ≠ .getAbandoned := by
  by_cases hq : q = p
  · subst hq; rw [update_self]; exact hv
  · rw [update_of_ne hq]; exact h.live q

/-- A process takes up a cell that nobody has in hand, or none. -/
theorem Inv.owner_update (hnobody : ∀ a, v.holds = some a → ∀ q, (s.pc q).holds ≠ some a) (q r : P) (a : Addr)
    (hq : (update s.pc p v q).holds = some a) (hr : (update s.pc p v r).holds = some a) : q = r := by
  rcases holds_update hq with ⟨hqp, hv⟩ | ⟨-, hq'⟩ <;>
    rcases holds_update hr with ⟨hrp, hv'⟩ | ⟨-, hr'⟩
  · rw [hqp, hrp]
  · exact absurd hr' (hnobody a hv r)
  · exact absurd hq' (hnobody a hv' q)
  · exact h.owner q r a hq' hr'

/-- A step that leaves the list alone and trades units one for one keeps everything. -/
theorem Inv.moves (p : P) (v : Pc) (sh : Shared α)
    (hspaces : sh.spaces + spaceUnits v = s.shared.spaces + spaceUnits (s.pc p))
    (hitems : sh.items + itemUnits v = s.shared.items + itemUnits (s.pc p))
    (hmutex : sh.mutex + mutexUnits v = s.shared.mutex + mutexUnits (s.pc p))
    (hholds : ∀ a, v.holds = some a → (s.pc p).holds = some a)
    (hlive : v ≠ .getAbandoned := by simp)
    (hlist : sh.initSize = s.shared.initSize ∧ sh.next = s.shared.next ∧
      sh.head = s.shared.head ∧ sh.tail = s.shared.tail ∧ sh.size = s.shared.size := by
        exact ⟨rfl, rfl, rfl, rfl, rfl⟩) :
    Inv c (s.write p v sh) l := by
  obtain ⟨hcap, hnext, hhead, htail, hsize⟩ := hlist
  obtain ⟨hs, hi, hm⟩ := h.traded rfl v sh l.length (by omega) (by omega) hmutex
  refine ⟨?_, ?_, ?_, ?_, h.nodup, hs, hi, hm, h.order, ?_, ?_, h.live_update hlive⟩
  · show sh.initSize = c
    rw [hcap]; exact h.cap
  · show IsChain sh.next sh.head l
    rw [hnext, hhead]; exact h.chain
  · show sh.tail = _
    rw [htail]; exact h.tail
  · show sh.size = _
    rw [hsize]; exact h.size
  · intro q a hq
    rcases holds_update hq with ⟨rfl, hv⟩ | ⟨-, hq'⟩
    · exact h.apart q a (hholds a hv)
    · exact h.apart q a hq'
  intro q r a hq hr
  have hback : ∀ u, (update s.pc p v u).holds = some a → (s.pc u).holds = some a := by
    intro u hu
    rcases holds_update hu with ⟨rfl, hv⟩ | ⟨-, hu'⟩
    · exact hholds a hv
    · exact hu'
  exact h.owner q r a (hback q hq) (hback r hr)

/-- A caller takes up fresh memory for its cell; the value it writes there is nobody's. -/
theorem Inv.callAdd {r : Result} (hpc : s.pc p = .out r) (cell : Addr)
    (value : BufferQueueCell α) (stopOnLast : Bool) (hfresh : Fresh s cell) :
    Inv c (s.write p (.addSpaces cell stopOnLast)
      { s.shared with value := update s.shared.value cell value }) l := by
  obtain ⟨hnotin, hnobody⟩ := (h.fresh_iff cell).mp hfresh
  obtain ⟨hs, hi, hm⟩ := h.traded hpc (.addSpaces cell stopOnLast) s.shared l.length rfl rfl rfl
  refine ⟨h.cap, h.chain, h.tail, h.size, h.nodup, hs, hi, hm, h.order, ?_, h.owner_update ?_,
    h.live_update (by simp)⟩
  · intro q a hq
    rcases holds_update hq with ⟨-, hv⟩ | ⟨-, hq'⟩
    · cases hv; exact hnotin
    · exact h.apart q a hq'
  · rintro a ⟨⟩
    exact hnobody

end

omit [DecidableEq P] [Fintype P] in
theorem linkCell_next {t : Addr} (ht : sh.tail = some t) (cell : Addr) :
    linkCell sh cell = { sh with
      tail := some cell
      next := update (update sh.next t (some cell)) cell none } := by
  unfold linkCell
  rw [ht]
  by_cases hh : sh.head = some t
  · simp [hh]
  · simp [hh]

omit [DecidableEq P] in
/-- All three insertion cases append the cell to the chain. -/
theorem Inv.link_chain (h : Inv c s l) (hnew : cell ∉ l) :
    IsChain (linkCell s.shared cell).next (linkCell s.shared cell).head (l ++ [cell]) ∧
      (linkCell s.shared cell).tail = some cell := by
  cases hl : l.getLast? with
  | none =>
    have hnil : l = [] := getLast?_eq_none_iff.mp hl
    subst hnil
    have htail : s.shared.tail = none := h.tail
    simp [linkCell, htail, IsChain]
  | some t =>
    have htail : s.shared.tail = some t := by rw [h.tail, hl]
    rw [linkCell_next htail]
    exact ⟨h.chain.concat h.nodup hnew hl, rfl⟩

/-- The critical section of `bufferQueueAdd`. -/
theorem Inv.addLink (h : Inv c s l) (hpc : s.pc p = .addLink cell stopOnLast) :
    Inv c { s.write p (.addUnlock (link s.shared cell stopOnLast).2)
        (link s.shared cell stopOnLast).1 with inserted := s.inserted ++ [cell] } (l ++ [cell]) := by
  have hnew : cell ∉ l := h.apart p cell (by rw [hpc]; rfl)
  obtain ⟨hchain, htail⟩ := h.link_chain hnew
  set v := Pc.addUnlock (link s.shared cell stopOnLast).2 with hv
  have hsem : (linkCell s.shared cell).initSize = s.shared.initSize ∧
      (linkCell s.shared cell).spaces = s.shared.spaces ∧
      (linkCell s.shared cell).items = s.shared.items ∧
      (linkCell s.shared cell).mutex = s.shared.mutex := by
    unfold linkCell; split <;> exact ⟨rfl, rfl, rfl, rfl⟩
  have hlen : (l ++ [cell]).length = l.length + 1 := length_append
  obtain ⟨hs, hi, hm⟩ := h.traded hpc v (linkCell s.shared cell) (l ++ [cell]).length
    (by simp only [hv, hsem.2.1, hlen, spaceUnits]; omega)
    (by simp only [hv, hsem.2.2.1, hlen, itemUnits]; omega) (by rw [hsem.2.2.2]; rfl)
  refine ⟨hsem.1.trans h.cap, hchain, ?_, ?_, ?_, hs, hi, hm, ?_, ?_, h.owner_update ?_,
    h.live_update (by simp [hv])⟩
  · rw [getLast?_concat]; exact htail
  · show s.shared.size + 1 = _
    rw [h.size]; simp
  · refine nodup_append.mpr ⟨h.nodup, nodup_singleton cell, ?_⟩
    intro a ha b hb hab
    rw [mem_singleton] at hb
    exact hnew (by rw [← hb, ← hab]; exact ha)
  · show s.inserted ++ [cell] = s.handed ++ (l ++ [cell])
    rw [h.order, append_assoc]
  · -- nobody else holds the cell just linked
    intro q a hq hmem
    rcases holds_update hq with ⟨-, hv'⟩ | ⟨hqp, hq'⟩
    · rw [hv] at hv'; cases hv'
    rcases mem_append.mp hmem with hl | hc
    · exact h.apart q a hq' hl
    · rw [mem_singleton] at hc
      exact hqp (h.owner q p a hq' (by rw [hpc, hc]; rfl))
  · rintro a ⟨⟩

omit [DecidableEq P] in
/-- A process about to look at `head` finds a cell there: it holds a unit of `items`. -/
theorem Inv.head_of_getUnlink (h : Inv c s l) (hpc : s.pc p = .getUnlink) :
    ∃ a rest, l = a :: rest ∧ s.shared.head = some a := by
  have hle := weight_le_sum itemUnits s.pc (Finset.mem_univ p)
  rw [hpc] at hle
  have hitems := h.items
  have hone : itemUnits .getUnlink = 1 := rfl
  rcases l with _ | ⟨a, rest⟩
  · simp only [length_nil] at hitems; omega
  · exact ⟨a, rest, rfl, h.chain.head_eq⟩

/-- The critical section of `bufferQueueGet`. -/
theorem Inv.getUnlink {a : Addr} {rest : List Addr} (h : Inv c s (a :: rest))
    (hpc : s.pc p = .getUnlink) :
    Inv c { s.write p (.getUnlock a) (unlink s.shared a) with handed := s.handed ++ [a] } rest := by
  obtain ⟨hhead, hrest⟩ := h.chain
  obtain ⟨hnotin, hnd⟩ := nodup_cons.mp h.nodup
  obtain ⟨hs, hi, hm⟩ := h.traded hpc (.getUnlock a) s.shared rest.length
    (by simp only [spaceUnits, length_cons]; omega)
    (by simp only [itemUnits, length_cons]; omega) rfl
  refine ⟨h.cap, hrest, ?_, ?_, hnd, hs, hi, hm, ?_, ?_, h.owner_update ?_,
    h.live_update (by simp)⟩
  · show (if s.shared.next a = none then none else s.shared.tail) = rest.getLast?
    rw [h.tail]
    cases rest with
    | nil => rw [if_pos (show s.shared.next a = none from hrest)]; rfl
    | cons b rest =>
      have hb : s.shared.next a = some b := hrest.1
      rw [if_neg (by simp [hb]), getLast?_cons_cons]
  · show s.shared.size - 1 = _
    rw [h.size]; simp
  · show s.inserted = s.handed ++ [a] ++ rest
    rw [h.order]; simp
  · intro q b hq hmem
    rcases holds_update hq with ⟨-, hv⟩ | ⟨-, hq'⟩
    · cases hv; exact hnotin hmem
    · exact h.apart q b hq' (by simp [hmem])
  -- the cell just taken was in the chain, so in nobody's hands
  rintro b ⟨⟩ q hq
  exact h.apart q a hq mem_cons_self

omit [Fintype P] in
theorem lock_eq_some {count : Nat} {taken : Nat → Shared α}
    (h : s.lock p v count taken = some s') :
    ∃ n, count = n + 1 ∧ s' = s.write p v (taken n) := by
  cases count with
  | zero => simp [lock] at h
  | succ n => exact ⟨n, rfl, by simpa [lock] using h.symm⟩

/-! ### Every step keeps the invariant -/

theorem Inv.of_tick (h : Inv c s l) (ht : tick s p = some s') : ∃ l', Inv c s' l' := by
  -- The list changes in two places only; every other point trades units.
  cases hpc : s.pc p with
  | out r => simp [tick, hpc] at ht
  | getAbandoned => exact absurd hpc (h.live p)
  | addLink cell sol =>
    simp only [tick, hpc] at ht
    cases ht
    exact ⟨_, h.addLink hpc⟩
  | getUnlink =>
    obtain ⟨a, rest, rfl, hhead⟩ := h.head_of_getUnlink hpc
    simp only [tick, hpc, hhead] at ht
    cases ht
    exact ⟨_, h.getUnlink hpc⟩
  | addSpaces cell sol | addMutex cell sol | probeMutex | getItems | getMutex | stopMutex new =>
    simp only [tick, hpc] at ht
    obtain ⟨n, hn, rfl⟩ := lock_eq_some ht
    exact ⟨l, h.moves p _ _ (by simp [hpc, spaceUnits, hn])
      (by simp [hpc, itemUnits, hn]) (by simp [hpc, mutexUnits, hn]) (by simp [hpc, Pc.holds])⟩
  | probeUnlock empty =>
    simp only [tick, hpc] at ht
    cases ht
    cases empty <;> exact ⟨l, h.moves p _ _ (by simp [hpc, spaceUnits])
        (by simp [hpc, itemUnits]) (by simp [hpc, mutexUnits]) (by simp [Pc.holds])⟩
  | probeSize | addUnlock r | addPost r | getUnlock a | getPost a | stopSet new | stopUnlock r =>
    simp only [tick, hpc] at ht
    cases ht
    exact ⟨l, h.moves p _ _ (by simp [hpc, spaceUnits])
      (by simp [hpc, itemUnits]) (by simp [hpc, mutexUnits]) (by simp [hpc, Pc.holds])⟩

theorem Inv.of_step (h : Inv c s l) {e : Event α P} (hst : step s e = some s') :
    ∃ l', Inv c s' l' := by
  cases e with
  | tick p => exact h.of_tick hst
  | call p call =>
    simp only [step] at hst
    split at hst
    swap
    · cases hst
    rename_i r hpc
    split at hst
    · split_ifs at hst with hfresh
      cases hst
      exact ⟨l, h.callAdd hpc _ _ _ hfresh⟩
    · rename_i wait
      cases hst
      cases wait <;> exact ⟨l, h.moves p _ s.shared (by simp [hpc, spaceUnits])
          (by simp [hpc, itemUnits]) (by simp [hpc, mutexUnits]) (by simp [Pc.holds])⟩
    cases hst
    exact ⟨l, h.moves p _ s.shared (by simp [hpc, spaceUnits])
      (by simp [hpc, itemUnits]) (by simp [hpc, mutexUnits]) (by simp [Pc.holds])⟩

omit [DecidableEq P] in
/-- A new queue on semaphores that count one: `spaces` is the capacity, `items` is zero. -/
theorem Inv.of_init (hc : 1 ≤ c) {value : Addr → BufferQueueCell α}
    (hcreate : createBufferQueue c 1 1 1 next value = some sh) : Inv (P := P) c (init sh) [] := by
  cases hcreate
  refine ⟨rfl, rfl, rfl, rfl, nodup_nil, ?_, ?_, ?_, rfl, ?_, ?_, ?_⟩
  · simp [init, spaceUnits]; omega
  · simp [init, itemUnits]
  · simp [init, mutexUnits]
  · intro p a hp; simp [init, Pc.holds] at hp
  · intro p q a hp; simp [init, Pc.holds] at hp
  · intro p; simp [init]

/--
Main result.  Whatever processes add, get and stop in whatever order of semaphore
operations, the chain from `head` has exactly `size` cells and at most the capacity,
`tail` is its last cell, the cells handed out are the cells linked in the order they
were linked, and `bufferQueueGet` never leaves by its early return.
-/
theorem bufferQueue_bounded_fifo (hc : 1 ≤ c) {next : Addr → Option Addr}
    {value : Addr → BufferQueueCell α} {sh : Shared α}
    (hcreate : createBufferQueue c 1 1 1 next value = some sh)
    (hrun : Run.Steps step (fun _ _ => True) (init sh) s) :
    ∃ l : List Addr, IsChain s.shared.next s.shared.head l ∧ l.Nodup ∧
      s.shared.size = l.length ∧ 0 ≤ s.shared.size ∧ s.shared.size ≤ c ∧
      (s.shared.tail = none ↔ s.shared.head = none) ∧
      (∀ t, s.shared.tail = some t → l.getLast? = some t) ∧
      s.inserted = s.handed ++ l ∧ ∀ p, s.pc p ≠ .getAbandoned := by
  obtain ⟨l, h⟩ : ∃ l, Inv c s l :=
    hrun.invariant (I := fun s => ∃ l, Inv c s l) ⟨[], Inv.of_init hc hcreate⟩
      (fun _ _ _ ⟨_, hu⟩ _ hst => hu.of_step hst)
  refine ⟨l, h.chain, h.nodup, h.size, ?_, ?_, ?_, ?_, h.order, h.live⟩
  · rw [h.size]; exact Int.natCast_nonneg _
  · have := h.spaces
    rw [h.size]
    omega
  · rw [h.tail, h.chain.head_eq]
    simp
  · intro t ht
    rw [← h.tail, ht]

/-- The queue of one cell that `createBufferQueue` makes. -/
def oneCell : Shared Nat :=
  { initSize := 1, size := 0, stop := false, head := none, tail := none, spaces := 1, items := 0,
    mutex := 1, next := fun _ => none, value := fun _ => .last }

/-- A reader that waits, and a writer whose post lets it go on. -/
theorem bufferQueue_bounded_fifo_oneCell :
    ∃ s : State Nat Bool, Run.Steps step (fun _ _ => True) (init oneCell) s ∧
      (s.handed, s.pc false) = ([7], .getUnlock 7) ∧
      ∃ l : List Addr, IsChain s.shared.next s.shared.head l ∧ l.Nodup ∧
        s.shared.size = l.length ∧ 0 ≤ s.shared.size ∧ s.shared.size ≤ (1 : Nat) ∧
        (s.shared.tail = none ↔ s.shared.head = none) ∧
        (∀ t, s.shared.tail = some t → l.getLast? = some t) ∧
        s.inserted = s.handed ++ l ∧ ∀ p, s.pc p ≠ .getAbandoned := by
  obtain ⟨s, hrun, hout⟩ := Run.exists_steps step (P := fun _ _ => True)
    (f := fun s : State Nat Bool => (s.handed, s.pc false)) (b := ([7], .getUnlock 7))
    (s := init oneCell)
    [.call false (.get true), .call true (.add 7 (.tuple 5) true), .tick true, .tick true,
      .tick true, .tick true, .tick true, .tick false, .tick false, .tick false]
    (fun _ _ _ => trivial) (by decide +kernel)
  exact ⟨s, hrun, hout, bufferQueue_bounded_fifo (Nat.le_refl 1) rfl hrun⟩

/-! ### The coded queue refines the queue its callers see

The abstract queue changes at three points only, each inside a critical section, and
there it changes by the function the callers are modelled with.  Every other step
leaves it alone.  Nothing but a full or an empty abstract queue keeps a process from
going on: when no process can take a step, the ones inside a routine are exactly
those the functions would block.
-/

/-- The queue as the callers see it. -/
def abs (s : State α P) : BufferQueue α :=
  { initSize := s.shared.initSize
    cells := (walk s.shared.next s.shared.size.toNat s.shared.head).map s.shared.value
    stop := s.shared.stop }

omit [DecidableEq P] in
theorem Inv.abs_eq (h : Inv c s l) :
    abs s = { initSize := c, cells := l.map s.shared.value, stop := s.shared.stop } := by
  have hwalk : walk s.shared.next s.shared.size.toNat s.shared.head = l := by
    rw [h.size, Int.toNat_natCast]
    exact h.chain.walk_eq
  rw [abs, hwalk, h.cap]

/-- What an event does to the queue as the callers see it: one routine, whose result the process
has from then on, or nothing. -/
def Refines (s s' : State α P) : Event α P → Prop
  | .call _ _ => abs s' = abs s
  | .tick p =>
    match s.pc p with
    | .addLink cell sol => ∃ r, s'.pc p = .addUnlock r ∧
        bufferQueueAdd (abs s) (s.shared.value cell) sol = some (abs s', r)
    | .getUnlink => ∃ a, s'.pc p = .getUnlock a ∧
        bufferQueueGet (abs s) = some (s.shared.value a, abs s')
    | .probeSize => abs s' = abs s ∧
        s'.pc p = .probeUnlock (bufferQueueGetNoWait (abs s)).1.isNone
    | .stopSet new => ∃ r, s'.pc p = .stopUnlock r ∧
        bufferQueueSetStop (abs s) new = (abs s', r)
    | _ => abs s' = abs s

theorem Inv.addLink_refines (h : Inv c s l) (hpc : s.pc p = .addLink cell stopOnLast)
    (ht : tick s p = some s') : Refines s s' (.tick p) := by
  simp only [tick, Refines, hpc] at ht ⊢
  cases ht
  refine ⟨_, update_self .., ?_⟩
  have hroom : l.length < c := by
    have hle := weight_le_sum spaceUnits s.pc (Finset.mem_univ p)
    rw [hpc] at hle
    have hone : spaceUnits (.addLink cell stopOnLast) = 1 := rfl
    have := h.spaces
    omega
  have hval : (linkCell s.shared cell).value = s.shared.value := by unfold linkCell; split <;> rfl
  rw [h.abs_eq, (h.addLink hpc).abs_eq]
  simp only [bufferQueueAdd, length_map, hroom, if_true]
  simp [link, write, hval]

theorem Inv.getUnlink_refines (h : Inv c s l) (hpc : s.pc p = .getUnlink)
    (ht : tick s p = some s') : Refines s s' (.tick p) := by
  obtain ⟨a, rest, rfl, hhead⟩ := h.head_of_getUnlink hpc
  simp only [tick, Refines, hpc, hhead] at ht ⊢
  cases ht
  refine ⟨a, update_self .., ?_⟩
  rw [h.abs_eq, (h.getUnlink hpc).abs_eq]
  rfl

/-- The probe of a call that does not wait sees whether the queue is empty. -/
theorem Inv.probeSize_refines (h : Inv c s l) (hpc : s.pc p = .probeSize)
    (ht : tick s p = some s') : Refines s s' (.tick p) := by
  simp only [tick, Refines, hpc] at ht ⊢
  cases ht
  refine ⟨rfl, ?_⟩
  show update s.pc p _ p = _
  rw [update_self, h.abs_eq, h.size]
  cases l with
  | nil => simp [bufferQueueGetNoWait]
  | cons a rest => simp [bufferQueueGetNoWait]; omega

theorem Inv.tick_refines (h : Inv c s l) (ht : tick s p = some s') :
    Refines s s' (.tick p) := by
  cases hpc : s.pc p with
  | addLink => exact h.addLink_refines hpc ht
  | getUnlink => exact h.getUnlink_refines hpc ht
  | probeSize => exact h.probeSize_refines hpc ht
  | out r => simp [tick, hpc] at ht
  | getAbandoned => exact absurd hpc (h.live p)
  | stopSet new =>
    simp only [tick, Refines, hpc] at ht ⊢
    cases ht
    exact ⟨_, update_self .., rfl⟩
  | addSpaces | addMutex | probeMutex | getItems | getMutex | stopMutex =>
    simp only [tick, Refines, hpc] at ht ⊢
    obtain ⟨n, -, rfl⟩ := lock_eq_some ht
    rfl
  | _ =>
    simp only [tick, Refines, hpc] at ht ⊢
    cases ht
    rfl

/-- A caller filling its own cell does not change the abstract queue either. -/
theorem Inv.abs_of_call (h : Inv c s l) {call : Call α} (hst : step s (.call p call) = some s') :
    abs s' = abs s := by
  simp only [step] at hst
  split at hst
  swap
  · cases hst
  rename_i r hpc
  split at hst
  · split at hst
    swap
    · cases hst
    rename_i cell value sol hfresh
    cases hst
    rw [(h.callAdd hpc cell value sol hfresh).abs_eq, h.abs_eq]
    have hmap : l.map (update s.shared.value cell value) = l.map s.shared.value := by
      refine map_congr_left fun a ha => update_of_ne ?_ _ _
      rintro rfl
      exact ((h.fresh_iff a).mp hfresh).1 ha
    simp [write, hmap]
  all_goals
    cases hst
    rfl

omit [Fintype P] in
/-- No process inside a critical section, and none about to post, is ever blocked. -/
theorem tick_none_units (hlive : ∀ p, s.pc p ≠ .getAbandoned) (hnone : tick s p = none) :
    mutexUnits (s.pc p) = 0 ∧ (0 < s.shared.mutex → spaceUnits (s.pc p) = 0 ∧
      itemUnits (s.pc p) = 0 ∧ ((∃ r, s.pc p = .out r) ∨
        (∃ cell sol, s.pc p = .addSpaces cell sol ∧ s.shared.spaces = 0) ∨
        (s.pc p = .getItems ∧ s.shared.items = 0))) := by
  have hlock : ∀ {v : Pc} {n : Nat} {f : Nat → Shared α}, s.lock p v n f = none → n = 0 := by
    intro v n f h
    cases n with
    | zero => rfl
    | succ n => simp [lock] at h
  cases hpc : s.pc p with
  | out r => exact ⟨rfl, fun _ => ⟨rfl, rfl, .inl ⟨r, rfl⟩⟩⟩
  | getAbandoned => exact absurd hpc (hlive p)
  | addSpaces cell sol =>
    simp only [tick, hpc] at hnone
    exact ⟨rfl, fun _ => ⟨rfl, rfl, .inr (.inl ⟨cell, sol, rfl, hlock hnone⟩)⟩⟩
  | getItems =>
    simp only [tick, hpc] at hnone
    exact ⟨rfl, fun _ => ⟨rfl, rfl, .inr (.inr ⟨rfl, hlock hnone⟩)⟩⟩
  | addMutex | probeMutex | getMutex | stopMutex =>
    simp only [tick, hpc] at hnone
    exact ⟨rfl, fun hm => absurd (hlock hnone) (by omega)⟩
  | getUnlink =>
    simp only [tick, hpc] at hnone
    split at hnone <;> simp at hnone
  | _ => simp [tick, hpc] at hnone

/--
When no process can take a step, a process inside a routine is in `bufferQueueAdd` on a
full queue or in `bufferQueueGet` on an empty one.
-/
theorem Inv.blocked (h : Inv c s l) (hnone : ∀ p, tick s p = none) (p : P) :
    (∃ r, s.pc p = .out r) ∨ (∃ cell sol, s.pc p = .addSpaces cell sol ∧
        bufferQueueAdd (abs s) (s.shared.value cell) sol = none) ∨
      (s.pc p = .getItems ∧ bufferQueueGet (abs s) = none) := by
  have hmutex : ∑ q, mutexUnits (s.pc q) = 0 :=
    Finset.sum_eq_zero fun q _ => (tick_none_units h.live (hnone q)).1
  have hpos : 0 < s.shared.mutex := by have := h.mutex; omega
  have hspaces : ∑ q, spaceUnits (s.pc q) = 0 :=
    Finset.sum_eq_zero fun q _ => ((tick_none_units h.live (hnone q)).2 hpos).1
  have hitems : ∑ q, itemUnits (s.pc q) = 0 :=
    Finset.sum_eq_zero fun q _ => ((tick_none_units h.live (hnone q)).2 hpos).2.1
  have hs := h.spaces
  have hi := h.items
  obtain ⟨-, -, hout | ⟨cell, sol, hpc, hzero⟩ | ⟨hpc, hzero⟩⟩ :=
    (tick_none_units h.live (hnone p)).2 hpos
  · exact .inl hout
  · refine .inr (.inl ⟨cell, sol, hpc, ?_⟩)
    rw [h.abs_eq]
    simp only [bufferQueueAdd, length_map]
    rw [if_neg (by omega)]
  refine .inr (.inr ⟨hpc, ?_⟩)
  have hnil : l = [] := eq_nil_of_length_eq_zero (by omega)
  rw [h.abs_eq, hnil]
  rfl

section Runs

variable {value : Addr → BufferQueueCell α} (hc : 1 ≤ c)
  (hcreate : createBufferQueue c 1 1 1 next value = some sh)
  (hrun : Run.Steps step (fun _ _ => True) (init sh) s)
include hc hcreate hrun

theorem exists_inv : ∃ l, Inv c s l :=
  hrun.invariant (I := fun s => ∃ l, Inv c s l) ⟨[], Inv.of_init hc hcreate⟩
    fun _ _ _ ⟨_, hu⟩ _ hst => hu.of_step hst

/-- The code with its semaphores and its list refines the queue that the jobs are modelled with:
it starts as a new one, and every step of every run is a step of it or none. -/
theorem bufferQueue_refines {e : Event α P} (hst : step s e = some s') :
    abs (init sh : State α P) = PrlPg.createBufferQueue c ∧ Refines s s' e := by
  obtain ⟨l, h⟩ := exists_inv hc hcreate hrun
  refine ⟨(Inv.of_init hc hcreate).abs_eq.trans ?_, ?_⟩
  · cases hcreate
    rfl
  cases e with
  | call p call => exact h.abs_of_call hst
  | tick p => exact h.tick_refines hst

/-- Where nobody can go on, those in a routine all add to a full queue or all get from an empty
one: writers and readers never wait for each other. -/
theorem bufferQueue_never_deadlocks (hnone : ∀ p, tick s p = none) :
    (∀ p, (∃ r, s.pc p = .out r) ∨
      (∃ cell sol, s.pc p = .addSpaces cell sol) ∧ (abs s).cells.length = c) ∨
    ∀ p, (∃ r, s.pc p = .out r) ∨ s.pc p = .getItems ∧ (abs s).cells = [] := by
  obtain ⟨l, h⟩ := exists_inv hc hcreate hrun
  have hroom := h.spaces
  have habs := h.abs_eq
  by_cases hl : l = []
  · refine .inr fun p => (h.blocked hnone p).imp id ?_
    rintro (⟨cell, sol, -, hadd⟩ | ⟨hpc, -⟩)
    · simp [habs, hl, bufferQueueAdd] at hadd
      omega
    · exact ⟨hpc, by rw [habs, hl]; rfl⟩
  · refine .inl fun p => (h.blocked hnone p).imp id ?_
    rintro (⟨cell, sol, hpc, hadd⟩ | ⟨-, hget⟩)
    · refine ⟨⟨cell, sol, hpc⟩, ?_⟩
      simp [habs, bufferQueueAdd] at hadd ⊢
      omega
    · obtain ⟨a, rest, rfl⟩ := exists_cons_of_ne_nil hl
      simp [habs, bufferQueueGet] at hget

end Runs

/-- A writer links its cell. -/
theorem bufferQueue_refines_oneCell :
    ∃ s s' : State Nat Bool, Run.Steps step (fun _ _ => True) (init oneCell) s ∧
      s.pc true = .addLink 7 true ∧ step s (.tick true) = some s' ∧
      abs (init oneCell : State Nat Bool) = PrlPg.createBufferQueue 1 ∧
      Refines s s' (.tick true) := by
  obtain ⟨s, hrun, hout⟩ := Run.exists_steps step (P := fun _ _ => True)
    (f := fun s : State Nat Bool => (s.pc true, (step s (.tick true)).isSome))
    (b := (.addLink 7 true, true)) (s := init oneCell)
    [.call true (.add 7 (.tuple 5) true), .tick true, .tick true]
    (fun _ _ _ => trivial) (by decide +kernel)
  obtain ⟨hpc, hsome⟩ := Prod.mk.inj hout
  obtain ⟨s', hst⟩ := Option.isSome_iff_exists.mp hsome
  exact ⟨s, s', hrun, hpc, hst, bufferQueue_refines (Nat.le_refl 1) rfl hrun hst⟩

/-- Two readers of an empty queue. -/
theorem bufferQueue_never_deadlocks_oneCell :
    ∃ s : State Nat Bool, Run.Steps step (fun _ _ => True) (init oneCell) s ∧
      (s.pc false, s.pc true) = (.getItems, .getItems) ∧
      ((∀ p, (∃ r, s.pc p = .out r) ∨
        (∃ cell sol, s.pc p = .addSpaces cell sol) ∧ (abs s).cells.length = 1) ∨
      ∀ p, (∃ r, s.pc p = .out r) ∨ s.pc p = .getItems ∧ (abs s).cells = []) := by
  obtain ⟨s, hrun, hout⟩ := Run.exists_steps step (P := fun _ _ => True)
    (f := fun s : State Nat Bool =>
      ((s.pc false, s.pc true), (tick s false).isNone && (tick s true).isNone))
    (b := ((.getItems, .getItems), true)) (s := init oneCell)
    [.call false (.get true), .call true (.get true)]
    (fun _ _ _ => trivial) (by decide +kernel)
  obtain ⟨hpc, hnone⟩ := Prod.mk.inj hout
  refine ⟨s, hrun, hpc, bufferQueue_never_deadlocks (Nat.le_refl 1) rfl hrun ?_⟩
  simpa using hnone

end PrlPg.Sem
