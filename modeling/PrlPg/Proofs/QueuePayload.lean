/-
Values are freed with the layout they were stored with, as far as the place that frees them is
made for the job.

The queue of a worker holds values of one layout only, that of its job, whatever happens to it.
The release loops of both nodes and `cleanup` free everything as a `PrlSortTuple`.
-/
import PrlPg.Storage.QueuePayload

namespace PrlPg.QueuePayload

open List BufferQueueCell

variable {τ : Type*} {s : State τ} {w : Worker τ}

/-- The values of a queue have the layout of its job. -/
def Worker.Ok (w : Worker τ) : Prop := ∀ p ∈ tuples w.cells, p.layout = w.jobType.layout

def Freed.Ok (f : Freed τ) : Prop := f.payload.layout = f.place.layout

/-- The type of job that a place is made for. -/
def Place.jobType : Place → JobType
  | stopLoop node => node
  | releaseLoop _ | cleanup => .sort

theorem Place.layout_eq_iff (place : Place) (jobType : JobType) :
    jobType.layout = place.layout ↔ jobType = place.jobType := by
  cases place with
  | stopLoop node => cases node <;> cases jobType <;> decide
  | _ => cases jobType <;> simp [layout, JobType.layout, Place.jobType]

variable {cells : List (BufferQueueCell (Payload τ))}

theorem Worker.Ok.sublist (h : w.Ok)
    (hsub : cells <+ w.cells) : Worker.Ok { w with cells := cells } :=
  fun p hp => h p ((hsub.filterMap _).subset hp)

/-- Cells of a queue are freed with their layout just if they hold no value or the place is made for
the job. -/
theorem Worker.Ok.free_iff (h : w.Ok) {place : Place} (hsub : cells <+ w.cells) :
    (∀ f ∈ free place cells, f.Ok) ↔ (tuples cells ≠ [] → w.jobType = place.jobType) := by
  have hlayout : ∀ p ∈ tuples cells, p.layout = w.jobType.layout :=
    fun p hp => h p ((hsub.filterMap _).subset hp)
  simp only [free, forall_mem_map, Freed.Ok]
  constructor
  · intro hall hne
    obtain ⟨p, hp⟩ := exists_mem_of_ne_nil _ hne
    exact (place.layout_eq_iff _).mp ((hlayout p hp).symm.trans (hall p hp))
  · intro hjob p hp
    exact (hlayout p hp).trans ((place.layout_eq_iff _).mpr (hjob (ne_nil_of_mem hp)))

/-- What has to be in the queues when an event comes: the stop loop of a node clears a value of a
job of its own type only, and the release loops and `cleanup` find values of sort jobs only. -/
def Suits (s : State τ) : Event τ → Prop
  | .stop node jobId i => ∀ w, s.workers[i]? = some w → w.isOf jobId = true →
      tuples (w.cells.take 1) ≠ [] → w.jobType = node
  | .release _ jobId =>
    ∀ w ∈ s.workers, w.isOf jobId = true → tuples w.cells ≠ [] → w.jobType = .sort
  | .cleanup => ∀ w ∈ s.workers, tuples w.cells ≠ [] → w.jobType = .sort
  | _ => True

/-- The queues are in order, and what has been freed was freed with its layout just if it was before
and the condition holds. -/
structure Stepped (s s' : State τ) (suits : Prop) : Prop where
  workers : ∀ w ∈ s'.workers, w.Ok
  freed : (∀ f ∈ s'.freed, f.Ok) ↔ (∀ f ∈ s.freed, f.Ok) ∧ suits

theorem Stepped.congr {s' : State τ} {suits suits' : Prop} (h : Stepped s s' suits)
    (hiff : suits ↔ suits') : Stepped s s' suits' := ⟨h.workers, by rw [h.freed, hiff]⟩

section

variable (h : ∀ w ∈ s.workers, w.Ok)
include h

theorem stepped_change {i : Nat} {f : Worker τ → Worker τ × List (Freed τ)}
    (hf : ∀ w, w.Ok → (f w).1.Ok) :
    Stepped s (s.change i f) (∀ w, s.workers[i]? = some w → ∀ r ∈ (f w).2, r.Ok) := by
  cases hi : s.workers[i]? with
  | none => exact ⟨by simpa only [State.change, hi] using h, by simp [State.change, hi]⟩
  | some w =>
    refine ⟨fun v hv => ?_, by simp [State.change, hi, or_imp, forall_and]⟩
    simp only [State.change, hi] at hv
    rcases mem_or_eq_of_mem_set hv with hv | rfl
    · exact h v hv
    · exact hf w (h w (mem_of_getElem? hi))

theorem stepped_release (place : Place) (sel : Worker τ → Bool) :
    Stepped s (s.release place sel)
      (∀ w ∈ s.workers, sel w = true → tuples w.cells ≠ [] → w.jobType = place.jobType) := by
  refine ⟨fun w hw => h w (mem_filter.mp hw).1, ?_⟩
  simp only [State.release, mem_append, or_imp, forall_and]
  refine and_congr_right fun _ => ⟨fun hall w hw hsel => ?_, fun hall r hr => ?_⟩
  · exact ((h w hw).free_iff (Sublist.refl _)).mp fun r hr =>
      hall r (mem_flatMap.mpr ⟨w, mem_filter.mpr ⟨hw, hsel⟩, hr⟩)
  · obtain ⟨w, hw, hr⟩ := mem_flatMap.mp hr
    obtain ⟨hw, hsel⟩ := mem_filter.mp hw
    exact ((h w hw).free_iff (Sublist.refl _)).mpr (hall w hw hsel) r hr

theorem stepped_step (e : Event τ) : Stepped s (step s e) (Suits s e) := by
  cases e with
  | create jobType jobId =>
    refine ⟨fun w hw => ?_, (and_iff_left trivial).symm⟩
    rcases mem_append.mp hw with hw | hw
    · exact h w hw
    · rw [mem_singleton.mp hw]
      exact fun p hp => absurd hp not_mem_nil
  | up i => exact (stepped_change h fun w hw => hw).congr (by simp [Suits])
  | add i tuple =>
    refine (stepped_change h fun w hw p hp => ?_).congr (by simp [Suits])
    rw [tuples, filterMap_append] at hp
    rcases mem_append.mp hp with hp | hp
    · exact hw p hp
    cases tuple with
    | none => cases hp
    | some t => rw [show p = ⟨w.jobType.layout, t⟩ by simpa [Worker.cell] using hp]
  | get i =>
    exact (stepped_change h fun w hw => hw.sublist (tail_sublist _)).congr (by simp [Suits])
  | stop node jobId i =>
    refine (stepped_change h fun w hw => ?_).congr (forall₂_congr fun w hi => ?_)
    · split_ifs
      · exact hw.sublist (tail_sublist _)
      · exact hw
    · by_cases hof : w.isOf jobId = true
      · simp only [hof, if_true, true_imp_iff]
        exact (h w (mem_of_getElem? hi)).free_iff (take_sublist 1 _)
      · simp [hof]
  | release node jobId => exact stepped_release h _ _
  | cleanup => exact (stepped_release h .cleanup _).congr (by simp [Suits, Place.jobType])

end

theorem run_concat (events : List (Event τ)) (e : Event τ) :
    run (events ++ [e]) = step (run events) e := foldl_append ..

theorem workers_run (events : List (Event τ)) : ∀ w ∈ (run events).workers, w.Ok := by
  induction events using reverseRecOn with
  | nil => exact forall_mem_nil _
  | append_singleton events e ih =>
    rw [run_concat]
    exact (stepped_step ih e).workers

/-- For every mix of jobs and every history of their queues, each value is freed with the layout
its producer stored: if and only if, whenever a stop loop, a release loop or `cleanup` comes to the
queues, they hold values of the type of job that it is made for. -/
theorem freed_as_stored_iff (events : List (Event τ)) :
    (∀ f ∈ (run events).freed, f.payload.layout = f.place.layout) ↔
      ∀ before e after, events = before ++ e :: after → Suits (run before) e := by
  induction events using reverseRecOn with
  | nil => simp [run]
  | append_singleton events e ih =>
    rw [run_concat]
    refine (stepped_step (workers_run events) e).freed.trans ((and_congr_left' ih).trans ?_)
    constructor
    · rintro ⟨hall, hlast⟩ before e' after heq
      rcases eq_nil_or_concat' after with rfl | ⟨after, x, rfl⟩
      · obtain ⟨rfl, he⟩ := append_inj' heq rfl
        exact singleton_inj.mp he ▸ hlast
      · have hends : events ++ [e] = (before ++ e' :: after) ++ [x] := by simpa using heq
        exact hall before e' after (append_inj' hends rfl).1
    · intro hall
      exact ⟨fun before e' after heq => hall before e' (after ++ [e]) (by simp [heq]),
        hall events e [] rfl⟩

/-- A query job ends with a row left in the queue of its worker. -/
theorem row_freed_as_sort_tuple :
    (run [.create .query 1, .up 0, .add 0 (some ()), .release .query 1]).freed.map
      (fun f => (f.payload.layout, f.place.layout)) = [(.minimalTuple, .prlSortTuple)] := by
  decide

end PrlPg.QueuePayload
