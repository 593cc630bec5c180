/-
The postmaster forks the right workers, and keeps to the rules of the lock only if there is
none to fork.

A pass clears the flag of every `WorkDef` that it forks, so the second pass finds nothing and
is the last one.  The lock is released at the first new `WorkDef` and is not taken again before
the pass ends: the next cell, or the release at the end, comes without it.
-/
import PrlPg.Postmaster.StartWorkers
import Mathlib.Data.List.Nodup

namespace PrlPg.StartWorkers

open Function List

variable {ι : Type*} {list : List ι} {new : ι → Bool}

/-- The workers that are forked, in order. -/
def forked (actions : List (Action ι)) : List ι :=
  actions.filterMap fun
    | .fork work => some work
    | _ => none

/-- Acquires and releases alternate, and cells are read in between.  `held` says whether the
lock is held before the first action; it is free after the last. -/
def Disciplined : Bool → List (Action ι) → Prop
  | held, [] => held = false
  | held, .acquire :: actions => held = false ∧ Disciplined true actions
  | held, .release :: actions => held = true ∧ Disciplined false actions
  | held, .read _ :: actions => held = true ∧ Disciplined held actions
  | held, .fork _ :: actions => Disciplined held actions

/-- Each new `WorkDef` of the list is forked once, and no other. -/
def ForksNew (list : List ι) (new : ι → Bool) (actions : List (Action ι)) : Prop :=
  (forked actions).Nodup ∧ ∀ work, work ∈ forked actions ↔ work ∈ list ∧ new work = true

theorem disciplined_reads (list : List ι) :
    Disciplined true (list.map .read ++ [Action.release]) := by
  induction list with
  | nil => exact ⟨rfl, rfl⟩
  | cons a list ih => exact ⟨rfl, ih⟩

variable [DecidableEq ι]

/-! ### One pass -/

theorem pass_new (list : List ι) : ∀ (new : ι → Bool) (work : ι),
    (pass list new).new work = (new work && decide (work ∉ list)) := by
  induction list with
  | nil => intro new work; simp [pass]
  | cons a list ih =>
    intro new work
    rw [pass]
    split_ifs with ha <;> by_cases hw : work = a <;> simp [ih, hw, ha]

theorem pass_forks (list : List ι) : ∀ new : ι → Bool,
    ForksNew list new (pass list new).actions := by
  induction list with
  | nil => intro new; simp [pass, ForksNew, forked]
  | cons a list ih =>
    intro new
    rw [pass]
    split_ifs with ha
    · obtain ⟨hnodup, hmem⟩ := ih (update new a false)
      refine ⟨nodup_cons.mpr ⟨fun h => ?_, hnodup⟩, fun work => ?_⟩
      · simpa using ((hmem a).mp h).2
      refine (mem_cons.trans (or_congr_right (hmem work))).trans ?_
      by_cases hw : work = a
      · simp [hw, ha]
      · simp [hw]
    obtain ⟨hnodup, hmem⟩ := ih new
    refine ⟨hnodup, fun work => (hmem work).trans ?_⟩
    by_cases hw : work = a
    · simp [hw, ha]
    · simp [hw]

theorem pass_of_old (h : ∀ work ∈ list, new work = false) :
    pass list new = ⟨list.map .read, new, false⟩ := by
  induction list with
  | nil => rfl
  | cons a list ih =>
    obtain ⟨ha, hlist⟩ := forall_mem_cons.mp h
    rw [pass, if_neg (by simp [ha]), ih hlist]
    rfl

theorem found_of_new (h : ∃ work ∈ list, new work = true) : (pass list new).found = true := by
  induction list generalizing new with
  | nil => simp at h
  | cons a list ih =>
    rw [pass]
    split_ifs with ha
    · rfl
    · exact ih (by simpa [ha] using h)

/-- Without the lock neither the next cell nor the end of the pass is right. -/
theorem not_disciplined_unlocked (actions : List (Action ι)) :
    ¬ Disciplined false ((pass list new).actions ++ .release :: actions) := by
  cases list with
  | nil => exact fun h => by cases h.1
  | cons a list =>
    rw [pass]
    split_ifs <;> exact fun h => by cases h.1

theorem not_disciplined_of_new (h : ∃ work ∈ list, new work = true) (actions : List (Action ι)) :
    ¬ Disciplined true ((pass list new).actions ++ .release :: actions) := by
  induction list generalizing new with
  | nil => simp at h
  | cons a list ih =>
    rw [pass]
    split_ifs with ha
    · exact fun hd => not_disciplined_unlocked actions hd.2.2
    · exact fun hd => ih (by simpa [ha] using h) hd.2

/-! ### The whole function -/

theorem startParallelWorkers_of_old (h : ∀ work ∈ list, new work = false) (fuel : Nat) :
    startParallelWorkers list (fuel + 1) new
      = some (.acquire :: list.map .read ++ [.release], new) := by
  rw [startParallelWorkers, pass_of_old h]
  rfl

/-- It ends after two passes at most, and whatever the list is it forks the new ones. -/
theorem startParallelWorkers_forks (list : List ι) (new : ι → Bool) (fuel : Nat) :
    ∃ actions new', startParallelWorkers list (fuel + 2) new = some (actions, new') ∧
      ForksNew list new actions := by
  by_cases hold : ∀ work ∈ list, new work = false
  · refine ⟨_, _, startParallelWorkers_of_old hold (fuel + 1), ?_⟩
    have hforks := pass_forks list new
    rw [pass_of_old hold] at hforks
    simpa [ForksNew, forked] using hforks
  have hnew : ∃ work ∈ list, new work = true := by simpa using hold
  have hcleared : ∀ work ∈ list, (pass list new).new work = false := by
    intro work hw
    simp [pass_new, hw]
  rw [startParallelWorkers]
  simp only [found_of_new hnew, if_true, startParallelWorkers_of_old hcleared fuel]
  refine ⟨_, _, rfl, ?_⟩
  have hforks := pass_forks list new
  simpa [ForksNew, forked, filterMap_append] using hforks

/-- `StartParallelWorkers` ends, forks each new `WorkDef` once and no other, reads the list
under its lock and releases only what it holds: if and only if no `WorkDef` is new. -/
theorem startParallelWorkers_right_iff (list : List ι) (new : ι → Bool) :
    (∃ fuel actions new', startParallelWorkers list fuel new = some (actions, new') ∧
      ForksNew list new actions ∧ Disciplined false actions) ↔
    ∀ work ∈ list, new work = false := by
  constructor
  · rintro ⟨fuel, actions, new', hrun, -, hd⟩
    by_contra hold
    have hnew : ∃ work ∈ list, new work = true := by simpa using hold
    cases fuel with
    | zero => cases hrun
    | succ fuel =>
      rw [startParallelWorkers] at hrun
      simp only [found_of_new hnew, if_true, Option.map_eq_some_iff] at hrun
      obtain ⟨r, -, hr⟩ := hrun
      cases hr
      simp only [cons_append, append_assoc] at hd
      exact not_disciplined_of_new hnew _ hd.2
  intro hold
  obtain ⟨actions, new', hrun, hforks⟩ := startParallelWorkers_forks list new 0
  refine ⟨2, actions, new', hrun, hforks, ?_⟩
  rw [startParallelWorkers_of_old hold] at hrun
  cases hrun
  exact ⟨rfl, disciplined_reads list⟩

/-- One new `WorkDef`: the lock is released twice. -/
theorem one_new_releases_twice : startParallelWorkers [()] 2 (fun _ => true) =
        some ([.acquire, .read (), .release, .fork (), .release, .acquire, .read (), .release],
          update (fun _ => true) () false) ∧
      ¬ Disciplined false
        [Action.acquire, .read (), .release, .fork (), .release, .acquire, .read (), .release] := by
  refine ⟨rfl, fun h => ?_⟩
  cases h.2.2.2.1

end PrlPg.StartWorkers
