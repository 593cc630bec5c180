/-
The semaphores are conserved as long as there are enough of them.

The boxes on the free list and those of the live queues are all the boxes, each one once, so
the number of live queues tells how many are free.  A create that finds fewer than three on the
list leaves the spinlock held, and nothing that comes later releases it.
-/
import PrlPg.Storage.PrlSemas
import PrlPg.Lib.LinkedList
import PrlPg.Lib.Run
import Mathlib.Data.List.Perm.Basic
import Mathlib.Data.List.Range

namespace PrlPg.PrlSemas

open Function LinkedList List Option Run State

/-- The free boxes, each with count 1, and those of the live queues are all `n` boxes. -/
structure Pooled (n : Nat) (s : State) (free : List Nat) : Prop where
  chain : Chain s.shmem.next s.shmem.freeSems free
  boxes : (free ++ s.owned).Perm (List.range n)
  counts : ∀ box ∈ free, s.shmem.sem box = 1

/-- What is to hold after every call. -/
def Conserved (n : Nat) (s : State) : Prop := s.shmem.prlSemLock = false ∧ ∃ free, Pooled n s free

variable {n : Nat} {s t : State} {free : List Nat}

theorem chain_push {m : Shmem} {box : Nat} (h : Chain m.next m.freeSems free)
    (hbox : box ∉ free) : Chain (m.push box).next (m.push box).freeSems (box :: free) := by
  refine ⟨rfl, ?_⟩
  rw [show (m.push box).next box = m.freeSems from update_self ..]
  refine h.congr fun a ha => ?_
  have hne : a ≠ box := fun heq => hbox (heq ▸ ha)
  exact update_of_ne hne _ _

namespace Pooled

theorem nodup (h : Pooled n s free) : (free ++ s.owned).Nodup := h.boxes.nodup_iff.mpr nodup_range

theorem length (h : Pooled n s free) : free.length + 3 * s.queues.length = n := by
  have hlen := h.boxes.length_eq
  have howned : s.owned.length = 3 * s.queues.length := by
    rw [owned, length_flatMap]
    simp [BufferQueue.boxes, Nat.mul_comm]
  rw [length_append, howned, length_range] at hlen
  exact hlen

/-- A create that finds three semaphores. -/
theorem create {a b c : Nat} (h : Pooled n s (a :: b :: c :: free))
    (hlock : s.shmem.prlSemLock = false) (bufferSize : Int) :
    ∃ t, step s (.create bufferSize) = some t ∧ Conserved n t ∧
      t.queues.length = s.queues.length + 1 := by
  have hnodup := h.nodup
  simp only [cons_append, nodup_cons, mem_cons, mem_append, not_or] at hnodup
  obtain ⟨⟨hab, hac, ha, -⟩, ⟨hbc, hb, -⟩, -⟩ := hnodup
  have htake : takeSems { s.shmem with prlSemLock := true } =
      .ok (⟨a, b, c⟩, { s.shmem with freeSems := s.shmem.next c, prlSemLock := true }) := by
    simp only [takeSems, Shmem.pop, h.chain.1, h.chain.2.1, h.chain.2.2.1, map_some]
  have hsem : update s.shmem.sem a (s.shmem.sem a + (bufferSize - 1).toNat) b = 1 := by
    rw [update_of_ne (Ne.symm hab)]
    exact h.counts b (by simp)
  simp only [step, createBufferQueue, hlock, Bool.false_eq_true, if_false, htake, hsem]
  refine ⟨_, rfl, ⟨rfl, free, h.chain.2.2.2, ?_, fun box hbox => ?_⟩, rfl⟩
  · refine Perm.trans ?_ h.boxes
    rw [show owned ⟨_, _ :: s.queues⟩ = [a, b, c] ++ s.owned from rfl, ← append_assoc]
    exact perm_append_comm.append_right s.owned
  have hne : box ≠ a ∧ box ≠ b := ⟨fun heq => ha (heq ▸ hbox), fun heq => hb (heq ▸ hbox)⟩
  change update (update _ a _) b _ box = 1
  rw [update_of_ne hne.2, update_of_ne hne.1]
  exact h.counts box (by simp [hbox])

/-- A create that does not. -/
theorem create_fails (h : Pooled n s free) (hlen : free.length < 3)
    (hlock : s.shmem.prlSemLock = false) (bufferSize : Int) :
    ∃ t, step s (.create bufferSize) = some t ∧ t.shmem.prlSemLock = true := by
  have hchain := h.chain
  simp only [step, createBufferQueue, hlock, Bool.false_eq_true, if_false]
  rcases free with - | ⟨a, - | ⟨b, - | ⟨c, free⟩⟩⟩
  · simp only [takeSems, Shmem.pop, hchain.head_eq, head?_nil, map_none]
    exact ⟨_, rfl, rfl⟩
  · have hend : s.shmem.next a = none := hchain.2
    simp only [takeSems, Shmem.pop, hchain.1, hend, map_some, map_none]
    exact ⟨_, rfl, rfl⟩
  · have hend : s.shmem.next b = none := hchain.2.2
    simp only [takeSems, Shmem.pop, hchain.1, hchain.2.1, hend, map_some, map_none]
    exact ⟨_, rfl, rfl⟩
  · simp only [length_cons] at hlen
    omega

section

variable (h : Pooled n s free) (hlock : s.shmem.prlSemLock = false)
include h hlock

theorem destroy {i : Nat}
    (hst : step s (.destroy i) = some t) :
    Conserved n t ∧ t.queues.length = s.queues.length - 1 := by
  simp only [step] at hst
  split at hst
  · cases hst
  rename_i bq hbq
  obtain ⟨hi, hget⟩ := List.getElem?_eq_some_iff.mp hbq
  simp only [destroyBufferQueue, hlock, Bool.false_eq_true, if_false, map_some] at hst
  cases hst
  -- the boxes of the queue, taken out of those of all queues
  have howned : s.owned.Perm (bq.boxes ++ (s.queues.eraseIdx i).flatMap BufferQueue.boxes) := by
    have hperm := getElem_cons_eraseIdx_perm hi
    rw [hget] at hperm
    exact (hperm.flatMap_right BufferQueue.boxes).symm
  have hperm : ((bq.spaces :: bq.mutex :: bq.items :: free) ++
      (s.queues.eraseIdx i).flatMap BufferQueue.boxes).Perm (free ++ s.owned) := by
    refine List.Perm.trans ?_ (howned.append_left free).symm
    rw [← append_assoc]
    refine List.Perm.append_right _ (List.Perm.trans ?_ perm_append_comm)
    exact ((List.Perm.swap bq.items bq.mutex []).cons bq.spaces).append_right free
  have hnodup := (hperm.nodup_iff.mpr h.nodup).of_append_left
  simp only [nodup_cons] at hnodup
  refine ⟨⟨rfl, _, chain_push (chain_push (chain_push h.chain hnodup.2.2.1) hnodup.2.1)
    hnodup.1, hperm.trans h.boxes, fun box hbox => ?_⟩, length_eraseIdx_of_lt hi⟩
  change update (update (update _ _ _) _ _) _ _ box = 1
  simp only [update_apply]
  split_ifs with hspaces hmutex hitems
  · rfl
  · rfl
  · rfl
  · simp only [mem_cons, hspaces, hmutex, hitems, false_or] at hbox
    exact h.counts box hbox

theorem use {box count : Nat}
    (hst : step s (.use box count) = some t) :
    Conserved n t ∧ t.queues.length = s.queues.length := by
  simp only [step] at hst
  split_ifs at hst with hbox
  cases hst
  refine ⟨⟨hlock, free, h.chain, h.boxes, fun b hb => ?_⟩, rfl⟩
  refine (update_of_ne ?_ _ _).trans (h.counts b hb)
  rintro rfl
  exact disjoint_of_nodup_append h.nodup hb hbox

end

end Pooled

/-- A create gives a queue or fails, according to the number of live queues. -/
theorem Conserved.create (h : Conserved n s) (bufferSize : Int) :
    ∃ t, step s (.create bufferSize) = some t ∧
      if 3 * (s.queues.length + 1) ≤ n then
        Conserved n t ∧ t.queues.length = s.queues.length + 1
      else t.shmem.prlSemLock = true := by
  obtain ⟨hlock, free, hs⟩ := h
  have hlen := hs.length
  split_ifs with hroom
  · rcases free with - | ⟨a, - | ⟨b, - | ⟨c, free⟩⟩⟩
    · simp at hlen; omega
    · simp at hlen; omega
    · simp at hlen; omega
    · exact hs.create hlock bufferSize
  · exact hs.create_fails (by omega) hlock bufferSize

/-- From a conserved state both calls return. -/
theorem Conserved.returns (h : Conserved n s) :
    (∀ bufferSize, (step s (.create bufferSize)).isSome = true) ∧
      ∀ i < s.queues.length, (step s (.destroy i)).isSome = true := by
  refine ⟨fun bufferSize => ?_, fun i hi => ?_⟩
  · obtain ⟨t, ht, -⟩ := h.create bufferSize
    rw [ht]
    rfl
  · simp only [step, getElem?_eq_getElem hi, destroyBufferQueue, h.1, Bool.false_eq_true,
      if_false, map_some, isSome_some]

end PrlPg.PrlSemas
