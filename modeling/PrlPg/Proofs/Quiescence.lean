/-
When the shared memory is reclaimed.

After an error the master asks its workers to cancel, waits, takes everything off the
lists and resets the memory the records are in.  Nobody may use them any more then.  A
worker that has announced `CANCELED` or `DEAD` does not, and neither does one that was
never forked, because its `WorkDef` is off the postmaster's list.  That is all there is:
`waitForAllWorkers` lets the master go on as soon as every worker that is up is at
`CANCELED` or at `END`, but a worker at `END` polls its state for ever, and a worker that
is just coming up was not looked at.
-/
import PrlPg.Proofs.Recovery

namespace PrlPg

open Run

variable {α : Type*} {job : Job α} {s s' : State α} {w w' : Slot α}

/-- Nobody will use the records again. -/
def Slot.Abandoned (w : Slot α) : Prop := w.pc = .exited ∨ (w.pc = .absent ∧ w.inJobsList = false)

theorem Slot.Abandoned.goes (h : w.Abandoned) (hnew : w.new = true → w.pc = .absent)
    {localSort : List α → List α} {rows : Option Nat → List α} {held : Bool}
    (hg : w.Goes localSort rows held w') : w'.Abandoned := by
  cases hg with
  | cleanup => exact h.imp id fun h => ⟨h.1, rfl⟩
  | worker hst => rcases h with h | ⟨h, -⟩ <;> simp [slaveStep, h] at hst
  | fail hst => rcases h with h | ⟨h, -⟩ <;> simp [slaveFail, h] at hst
  | interrupt hst => rcases h with h | ⟨h, -⟩ <;> simp [slaveInterrupt, h] at hst
  | fork hst =>
    obtain ⟨hj, hn, -⟩ := forkSlave_eq_some hst
    rcases h with h | ⟨-, hlist⟩
    · simp [h] at hnew
      simp [hnew] at hn
    · simp [hlist] at hj
  | _ => exact h

theorem Recovery.unlisted (h : Recovery job s) (hinv : Inv true job s) (hpc : s.pc = .recovered)
    (i : Nat) : (s.slots i).inJobsList = false := by
  by_cases hi : i < job.workersCnt
  · exact h.cleaned i (by rw [hpc]; exact hi)
  · rw [hinv.beyond i (by omega)]
    rfl

end PrlPg
