/-
Runs of a partial step function.

A system is given as `step : S → E → Option S`: in state `s` the event `e` is
either impossible (`none`) or leads to exactly one state.  All the nondeterminism
of a concurrent system is in the choice of the next event, so a statement about
every interleaving is a statement about every list of events.

Two notions of run are used.  `exec` folds a concrete list of events and computes;
`Steps` is the relation the proofs induct on, and it carries a condition that every
step of the run meets.  `steps_of_exec` goes from the first to the second.

Two rules carry the rest of the development: an invariant is proved once from its
one-step lemma (`Steps.invariant`), and a goal is reachable as soon as every state
that has not met it offers a run that lowers a measure (`Steps.reach_of_measure`).
-/
import Mathlib.Order.WellFounded
import Mathlib.Data.Prod.Lex

namespace PrlPg.Run

open List

variable {S E : Type*} {step : S → E → Option S}

/-- Take the events one after another; `none` as soon as one is impossible. -/
def exec (step : S → E → Option S) : S → List E → Option S
  | s, [] => some s
  | s, e :: es =>
    match step s e with
    | none => none
    | some s' => exec step s' es

/-- The event `e` is possible in `s`. -/
def Enabled (step : S → E → Option S) (s : S) (e : E) : Prop := ∃ s', step s e = some s'

/-- A finite run from `s` every step of which meets `P`. -/
inductive Steps (step : S → E → Option S) (P : S → E → Prop) (s : S) : S → Prop
  | refl : Steps step P s s
  | tail {t u : S} {e : E} (h : Steps step P s t) (hP : P t e) (hst : step t e = some u) :
      Steps step P s u

namespace Steps

variable {P Q : S → E → Prop}

theorem single {s t : S} {e : E} (hP : P s e) (hst : step s e = some t) : Steps step P s t :=
  Steps.tail Steps.refl hP hst

theorem trans {s t u : S} (h₁ : Steps step P s t) (h₂ : Steps step P t u) : Steps step P s u := by
  induction h₂ with
  | refl => exact h₁
  | tail _ hP hst ih => exact Steps.tail ih hP hst

theorem head {s t u : S} {e : E} (hP : P s e) (hst : step s e = some t)
    (h : Steps step P t u) : Steps step P s u :=
  (Steps.single hP hst).trans h

theorem mono (hPQ : ∀ s e, P s e → Q s e) {s t : S} (h : Steps step P s t) : Steps step Q s t := by
  induction h with
  | refl => exact Steps.refl
  | tail _ hP hst ih => exact Steps.tail ih (hPQ _ _ hP) hst

/-- What holds at the start and survives every step of the run holds at its end. -/
theorem invariant {I : S → Prop} {s t : S} (h : Steps step P s t) (h₀ : I s)
    (hstep : ∀ u e v, I u → P u e → step u e = some v → I v) : I t := by
  induction h with
  | refl => exact h₀
  | tail _ hP hst ih => exact hstep _ _ _ ih hP hst

/--
A goal is reachable when every state short of it offers a run that lowers a measure.  The
measure is a pair compared lexicographically: how far the system is, and the work left
until it gets further.
-/
theorem reach_of_measure {I G : S → Prop} (μ : S → ℕ ×ₗ ℕ)
    (hI : ∀ u e v, I u → P u e → step u e = some v → I v)
    (hprog : ∀ u, I u → ¬ G u → ∃ v, Steps step P u v ∧ μ v < μ u) :
    ∀ s, I s → ∃ t, Steps step P s t ∧ G t := by
  intro s
  induction hm : μ s using WellFoundedLT.induction generalizing s with
  | _ m ih =>
    intro hs
    by_cases hG : G s
    · exact ⟨s, Steps.refl, hG⟩
    obtain ⟨v, hrun, hlt⟩ := hprog s hs hG
    obtain ⟨t, hrun', hGt⟩ := ih (μ v) (hm ▸ hlt) v rfl (hrun.invariant hs hI)
    exact ⟨t, hrun.trans hrun', hGt⟩

/-- A run that leaves a set of states stays in it up to the step that leaves it. -/
theorem leaves {A : S → Prop} {s t : S} (h : Steps step P s t) (hs : A s) (ht : ¬ A t) :
    ∃ u e v, Steps step (fun u e => P u e ∧ A u) s u ∧ A u ∧ P u e ∧ step u e = some v ∧ ¬ A v := by
  have hsplit : (Steps step (fun u e => P u e ∧ A u) s t ∧ A t) ∨
      ∃ u e v, Steps step (fun u e => P u e ∧ A u) s u ∧ A u ∧ P u e ∧ step u e = some v ∧ ¬ A v := by
    clear ht
    induction h with
    | refl => exact .inl ⟨Steps.refl, hs⟩
    | @tail t u e _ hP hst ih =>
      rcases ih with ⟨hrun, hA⟩ | hout
      · by_cases hu : A u
        · exact .inl ⟨hrun.tail ⟨hP, hA⟩ hst, hu⟩
        · exact .inr ⟨t, e, u, hrun, hA, hP, hst, hu⟩
      · exact .inr hout
  exact hsplit.resolve_left fun hin => ht hin.2

end Steps

variable {P : S → E → Prop}

/-- A list of events that goes through is a run. -/
theorem steps_of_exec :
    ∀ (es : List E) {s t : S}, (∀ u, ∀ e ∈ es, P u e) → exec step s es = some t →
      Steps step P s t := by
  intro es
  induction es with
  | nil =>
    intro s t _ h
    cases h
    exact Steps.refl
  | cons e es ih =>
    intro s t hP h
    cases hst : step s e with
    | none => simp [exec, hst] at h
    | some u =>
      simp only [exec, hst] at h
      exact Steps.head (hP s e (by simp)) hst (ih (fun v e' he' => hP v e' (by simp [he'])) h)

theorem exec_append (es es' : List E) :
    ∀ s : S, exec step s (es ++ es') = (exec step s es).bind fun t => exec step t es' := by
  induction es with
  | nil => intro s; rfl
  | cons e es ih =>
    intro s
    cases hst : step s e with
    | none => simp [exec, hst]
    | some u => simpa [exec, hst] using ih u

/-- A run is a list of events that goes through. -/
theorem Steps.exists_exec {Q : E → Prop} {s t : S} (h : Steps step (fun _ e => Q e) s t) :
    ∃ es, (∀ e ∈ es, Q e) ∧ exec step s es = some t := by
  induction h with
  | refl => exact ⟨[], by simp, rfl⟩
  | @tail t u e _ hQ hst ih =>
    obtain ⟨es, hes, hexec⟩ := ih
    refine ⟨es ++ [e], ?_, ?_⟩
    · intro e' he'
      rcases mem_append.mp he' with he' | he'
      · exact hes e' he'
      · rw [mem_singleton.mp he']
        exact hQ
    · rw [exec_append, hexec]
      simp [exec, hst]

variable {es : List E}

/-- A list of events that does not go through has a first one that is impossible. -/
theorem exec_none_split : ∀ {s : S}, exec step s es = none →
      ∃ pre e post t, es = pre ++ e :: post ∧ exec step s pre = some t ∧ step t e = none := by
  induction es with
  | nil => intro s h; simp [exec] at h
  | cons e es ih =>
    intro s h
    cases hst : step s e with
    | none => exact ⟨[], e, es, s, rfl, rfl, hst⟩
    | some u =>
      simp only [exec, hst] at h
      obtain ⟨pre, e', post, t, rfl, hpre, he'⟩ := ih h
      exact ⟨e :: pre, e', post, t, rfl, by simp only [exec, hst, hpre], he'⟩

/-- Take the events one after another, leaving out those that are impossible. -/
def follow (step : S → E → Option S) : S → List E → S
  | s, [] => s
  | s, e :: es => follow step ((step s e).getD s) es

/-- The events of a list that are possible when their turn comes. -/
def taken (step : S → E → Option S) : S → List E → List E
  | _, [] => []
  | s, e :: es =>
    match step s e with
    | none => taken step s es
    | some s' => e :: taken step s' es

variable (step) in
theorem exec_taken : ∀ (es : List E) (s : S),
    exec step s (taken step s es) = some (follow step s es) := by
  intro es
  induction es with
  | nil => intro s; rfl
  | cons e es ih =>
    intro s
    cases hst : step s e with
    | none => simpa [taken, follow, hst] using ih s
    | some u => simpa [taken, follow, exec, hst] using ih u

/-- A schedule is a run. -/
theorem steps_of_follow :
    ∀ (es : List E) {s : S}, (∀ u, ∀ e ∈ es, P u e) → Steps step P s (follow step s es) := by
  intro es
  induction es with
  | nil => intro s _; exact Steps.refl
  | cons e es ih =>
    intro s hP
    have hrest : ∀ u, ∀ e' ∈ es, P u e' := fun u e' he' => hP u e' (by simp [he'])
    cases hst : step s e with
    | none => simpa [follow, hst] using ih hrest
    | some u => simpa [follow, hst] using Steps.head (hP s e (by simp)) hst (ih hrest)

variable (step) in
/-- Evaluating what a list of events leads to gives a run that leads there. -/
theorem exists_steps {β : Type*} {f : S → β} {b : β} {s : S} (es : List E)
    (hP : ∀ u, ∀ e ∈ es, P u e) (h : (exec step s es).map f = some b) :
    ∃ t, Steps step P s t ∧ f t = b := by
  cases ht : exec step s es with
  | none => simp [ht] at h
  | some t => exact ⟨t, steps_of_exec es hP ht, by simpa [ht] using h⟩

/-! ### What holds all along a run -/

/-- No step of the run is a bad one. -/
def Never (step : S → E → Option S) (bad : S → E → Prop) (s : S) (es : List E) : Prop :=
  ∀ pre e post t, es = pre ++ e :: post → exec step s pre = some t → ¬ bad t e

/-- Every state of the run, the first and the last one included, is a good one. -/
def Always (step : S → E → Option S) (good : S → Prop) (s : S) (es : List E) : Prop :=
  ∀ pre post t, es = pre ++ post → exec step s pre = some t → good t

theorem never_nil {bad : S → E → Prop} {s : S} : Never step bad s [] := by
  intro pre e post t h
  exact absurd h.symm (append_ne_nil_of_right_ne_nil pre (cons_ne_nil e post))

theorem never_cons {bad : S → E → Prop} {s u : S} {e : E} (hst : step s e = some u) :
    Never step bad s (e :: es) ↔ ¬ bad s e ∧ Never step bad u es := by
  constructor
  · intro h
    refine ⟨h [] e es s rfl rfl, ?_⟩
    intro pre e' post t hes ht
    refine h (e :: pre) e' post t (by rw [hes]; rfl) ?_
    rw [exec, hst]
    exact ht
  rintro ⟨hfirst, hrest⟩ pre e' post t hes ht
  cases pre with
  | nil =>
    obtain ⟨rfl, rfl⟩ := cons.inj hes
    cases ht
    exact hfirst
  | cons x pre =>
    obtain ⟨rfl, htail⟩ := cons.inj hes
    rw [exec, hst] at ht
    exact hrest pre e' post t htail ht

theorem always_nil {good : S → Prop} {s : S} : Always step good s [] ↔ good s := by
  constructor
  · intro h
    exact h [] [] s rfl rfl
  intro h pre post t hes ht
  obtain ⟨rfl, -⟩ := append_eq_nil_iff.1 hes.symm
  cases ht
  exact h

theorem always_cons {good : S → Prop} {s u : S} {e : E} (hst : step s e = some u) :
    Always step good s (e :: es) ↔ good s ∧ Always step good u es := by
  constructor
  · intro h
    refine ⟨h [] (e :: es) s rfl rfl, ?_⟩
    intro pre post t hes ht
    refine h (e :: pre) post t (by rw [hes]; rfl) ?_
    rw [exec, hst]
    exact ht
  rintro ⟨hfirst, hrest⟩ pre post t hes ht
  cases pre with
  | nil =>
    cases ht
    exact hfirst
  | cons x pre =>
    obtain ⟨rfl, htail⟩ := cons.inj hes
    rw [exec, hst] at ht
    exact hrest pre post t htail ht

theorem exists_of_exec_cons {s t : S} {e : E}
    (h : exec step s (e :: es) = some t) : ∃ u, step s e = some u ∧ exec step u es = some t := by
  cases hst : step s e with
  | none => simp [exec, hst] at h
  | some u =>
    rw [exec, hst] at h
    exact ⟨u, rfl, h⟩

end PrlPg.Run
