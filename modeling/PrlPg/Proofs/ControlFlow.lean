/-
Where the master can go.

`MasterPc.Next` lists the edges between the points of the master's program, whatever the
data are, and `masterStep_next` says that every step follows one.  What a part of the
program can lead to is then read off the list: the working part leads to itself and, when
a worker was cancelled, to the recovery; the recovery leads to nothing but itself.
-/
import PrlPg.Proofs.Invariant

namespace PrlPg

open Option State

variable {α : Type*} {job : Job α} {s s' : State α}
variable {cell : BufferQueueCell α}

/-- The edges of the master's program. -/
inductive MasterPc.Next : MasterPc α → MasterPc α → Prop
  | create {i} : Next (.create i) (.create (i + 1))
  | created {i} : Next (.create i) (.wait .initial 0 0)
  | dry {i} : Next (.create i) .fatal
  | count {b k c k' c'} : Next (.wait b k c) (.wait b k' c')
  | pass {b k c} : Next (.wait b k c) b.next
  | register {k} : Next (.register k) (.register (k + 1))
  | registered {k} : Next (.register k) (.transition .start 0)
  | transition {h k} : Next (.transition h k) (.transition h (k + 1))
  | deal {k} : Next (.transition .start k) .distribute
  | drain {k i} : Next (.transition .start k) (.poll i)
  | acked {k} : Next (.transition .ack k) (.prepare 0)
  | distribute : Next .distribute .distribute
  | dealt : Next .distribute (.distributeLast 0)
  | distributeLast {i} : Next (.distributeLast i) (.distributeLast (i + 1))
  | closed {i} : Next (.distributeLast i) (.wait .finished 0 0)
  | prepare {cw} : Next (.prepare cw) (.prepare (cw + 1))
  | prepared {cw} : Next (.prepare cw) .getTuple
  | take {stup} : Next .getTuple (.fetch stup)
  | taken : Next .getTuple .idle
  | fetched {stup} : Next (.fetch stup) .idle
  | poll {i j} : Next (.poll i) (.poll j)
  | polled {i} : Next (.poll i) .idle
  | planDone {i j} : Next (.poll i) (.waitState j)
  | ended {i} : Next (.waitState i) (.assign i)
  | canceled {i} : Next (.waitState i) (.cancel 0)
  | assign {i} : Next (.assign i) (.poll i)
  | stopScan {k} : Next (.stopScan k) (.stopScan (k + 1))
  | stopFull {k} : Next (.stopScan k) (.stopGet k)
  | stopped {k} : Next (.stopScan k) (.wait .ended 0 0)
  | stopGet {k} : Next (.stopGet k) (.stopScan (k + 1))
  | destroy {k} : Next (.destroyScan k) (.destroyScan (k + 1))
  | destroyed {k} : Next (.destroyScan k) (.wait .dead 0 0)
  | release {k} : Next (.releaseScan k) (.releaseScan (k + 1))
  | released {k} : Next (.releaseScan k) .closed
  | cancel {k} : Next (.cancel k) (.cancel (k + 1))
  | asked {k} : Next (.cancel k) (.waitAll 0 false)
  | waitAll {k b k' b'} : Next (.waitAll k b) (.waitAll k' b')
  | waited {k b} : Next (.waitAll k b) (.cleanup 0)
  | cleanup {k} : Next (.cleanup k) (.cleanup (k + 1))
  | cleaned {k} : Next (.cleanup k) .recovered

theorem addTo_pc {i : Nat} (h : addTo s i cell = some s') : s'.pc = s.pc := by
  obtain ⟨k, w, r, -, -, rfl⟩ := addTo_eq_some h
  rfl

variable {pc : MasterPc α}

/-- A queue operation of the master, and what it does afterwards. -/
theorem next_of_map {β : Type*} {o : Option β} {f : β → State α} (hst : o.map f = some s')
    (h : ∀ b, o = some b → pc.Next (f b).pc) : pc.Next s'.pc := by
  obtain ⟨b, hb, rfl⟩ := map_eq_some_iff.mp hst
  exact h b hb

/-- Every step of the master follows an edge. -/
theorem masterStep_next (hst : masterStep job s = some s') : s.pc.Next s'.pc := by
  cases hpc : s.pc with
  | create i | wait b k c | register k | getTuple | poll i | waitState i | assign i | stopGet k
  | destroyScan k | releaseScan k | cancel k | waitAll k b | cleanup k =>
    simp only [masterStep, hpc, createStep, waitForWorkers, registerWorkers,
      gettupleslotFromWorker, pollStep, waitForEnd, assignPlan, stopGetStep, destroyStep,
      releaseStep, cancelStep, waitForAllWorkers, cleanupStep] at hst
    repeat' split at hst
    all_goals cases hst <;> constructor
  | transition ho k =>
    simp only [masterStep, hpc, stateTransition] at hst
    split at hst <;> cases hst
    · exact .transition
    cases ho with
    | start =>
      simp only [goto, HandOver.next]
      split <;> constructor
    | ack => exact .acked
  | distribute =>
    simp only [masterStep, hpc, distributeToWorker] at hst
    split at hst
    · cases hst
      exact .dealt
    refine next_of_map hst fun s₁ hs₁ => ?_
    rw [show _ = s₁.pc from rfl, addTo_pc hs₁, hpc]
    exact .distribute
  | distributeLast i =>
    simp only [masterStep, hpc, distributeLast] at hst
    split at hst
    · exact next_of_map hst fun _ _ => .distributeLast
    · cases hst
      exact .closed
  | prepare cw =>
    simp only [masterStep, hpc, prepareForMerge] at hst
    split at hst
    · exact next_of_map hst fun _ _ => .prepare
    · cases hst
      exact .prepared
  | fetch stup =>
    simp only [masterStep, hpc, fetchNext] at hst
    exact next_of_map hst fun _ _ => .fetched
  | stopScan k =>
    simp only [masterStep, hpc, stopStep] at hst
    split at hst
    · split at hst <;> cases hst
      · simp only [goto]
        split <;> constructor
      · exact .stopScan
    · cases hst
      exact .stopped
  | _ => simp [masterStep, hpc] at hst

variable {pc' : MasterPc α}

theorem MasterPc.Next.recovery (h : pc.Next pc') (hn : pc.normal = false) : pc'.normal = false := by
  cases h with
  | cancel | asked | waitAll | waited | cleanup | cleaned => rfl
  | _ => simp [MasterPc.normal] at hn

/-- It is entered because the semaphores ran out or because a worker was cancelled. -/
theorem MasterPc.Next.leaves (h : pc.Next pc') (hn : pc.normal = true) (hn' : pc'.normal = false) :
    (∃ i, pc = .create i ∧ pc' = .fatal) ∨ ∃ i, pc = .waitState i ∧ pc' = .cancel 0 := by
  cases h with
  | dry => exact .inl ⟨_, rfl, rfl⟩
  | canceled => exact .inr ⟨_, rfl, rfl⟩
  | @pass b => cases b <;> simp [MasterPc.normal, Barrier.next] at hn'
  | cancel | asked | waitAll | waited | cleanup | cleaned => simp [MasterPc.normal] at hn
  | _ => simp [MasterPc.normal] at hn'

/-- The points from which the master comes back to its caller. -/
def MasterPc.returns : MasterPc α → Bool
  | .getTuple | .fetch _ | .poll _ => true
  | _ => false

theorem MasterPc.Next.not_idle (h : pc.Next pc') (hpc : pc.returns = false) : pc' ≠ .idle := by
  cases h with
  | @pass b => cases b <;> simp [Barrier.next]
  | taken | fetched | polled => simp [MasterPc.returns] at hpc
  | _ => simp

/-! ### What has been returned -/

theorem addTo_returned {i : Nat} (h : addTo s i cell = some s') :
    s'.returned = s.returned ∧ s'.eof = s.eof := by
  obtain ⟨k, w, r, -, -, rfl⟩ := addTo_eq_some h
  exact ⟨rfl, rfl⟩

theorem getFrom_returned {i : Nat} (h : getFrom s i = some (cell, s')) :
    s'.returned = s.returned ∧ s'.eof = s.eof := by
  obtain ⟨k, w, -, -, rfl⟩ := getFrom_eq_some h
  exact ⟨rfl, rfl⟩

/-- What a step of the master can return to its caller: nothing yet, a tuple, or an empty
slot. -/
inductive Returns (s s' : State α) : Prop
  | nothing (hpc : s'.pc ≠ .idle) (h : s'.returned = s.returned) (heof : s'.eof = s.eof)
  | tuple (t : α) (hpc : s'.pc = .idle) (h : s'.returned = s.returned ++ [t])
      (heof : s'.eof = s.eof)
  | empty (hpc : s'.pc = .idle) (h : s'.returned = s.returned) (heof : s'.eof = true)

theorem masterStep_returns (hst : masterStep job s = some s') : Returns s s' := by
  cases hpc : s.pc with
  | create i | wait b k c | register k | transition ho k | waitState i | assign i | stopScan k
  | stopGet k | destroyScan k | releaseScan k | cancel k | waitAll k b | cleanup k =>
    have hidle : s'.pc ≠ .idle := fun hidle => by
      have hnext := masterStep_next hst
      rw [hpc] at hnext
      exact hnext.not_idle rfl hidle
    simp only [masterStep, hpc, createStep, waitForWorkers, registerWorkers, stateTransition,
      waitForEnd, assignPlan, stopStep, stopGetStep, destroyStep, releaseStep, cancelStep,
      waitForAllWorkers, cleanupStep] at hst
    repeat' split at hst
    all_goals first
      | (cases hst; exact .nothing hidle rfl rfl)
      | simp at hst
  | distribute =>
    simp only [masterStep, hpc, distributeToWorker] at hst
    split at hst
    · cases hst
      exact .nothing (by simp [goto]) rfl rfl
    obtain ⟨s₁, hs₁, rfl⟩ := map_eq_some_iff.mp hst
    obtain ⟨hret, heof⟩ := addTo_returned hs₁
    exact .nothing (by simp [addTo_pc hs₁, hpc]) hret heof
  | distributeLast i =>
    simp only [masterStep, hpc, distributeLast] at hst
    split at hst
    · obtain ⟨s₁, hs₁, rfl⟩ := map_eq_some_iff.mp hst
      obtain ⟨hret, heof⟩ := addTo_returned hs₁
      exact .nothing (by simp [goto]) hret heof
    · cases hst
      exact .nothing (by simp [goto]) rfl rfl
  | prepare cw =>
    simp only [masterStep, hpc, prepareForMerge] at hst
    split at hst
    · obtain ⟨⟨cell, s₁⟩, hs₁, rfl⟩ := map_eq_some_iff.mp hst
      obtain ⟨hret, heof⟩ := getFrom_returned hs₁
      exact .nothing (by simp) hret heof
    · cases hst
      exact .nothing (by simp) rfl rfl
  | fetch stup =>
    simp only [masterStep, hpc, fetchNext] at hst
    obtain ⟨⟨cell, s₁⟩, hs₁, rfl⟩ := map_eq_some_iff.mp hst
    obtain ⟨hret, heof⟩ := getFrom_returned hs₁
    exact .tuple stup.tuple rfl (by simp only [yield, hret]) heof
  | getTuple | poll i =>
    simp only [masterStep, hpc, gettupleslotFromWorker, pollStep] at hst
    repeat' split at hst
    all_goals first
      | (cases hst; exact .nothing (by simp [goto]) rfl rfl)
      | (cases hst; exact .empty rfl rfl rfl)
      | (cases hst; exact .tuple _ rfl rfl rfl)
      | simp at hst
  | _ => simp [masterStep, hpc] at hst

/-- What has been returned stays returned. -/
theorem returned_grows {e : Event} (hst : step job s e = some s') : s.returned <+: s'.returned := by
  cases step_occurs hst with
  | master hst =>
    cases masterStep_returns hst with
    | nothing _ h | empty _ h => rw [h]
    | tuple t _ h =>
      rw [h]
      exact List.prefix_append _ _
  | abort hst => rw [(abortStep_eq_some hst).2.2.1]
  | _ => exact List.prefix_rfl

end PrlPg
