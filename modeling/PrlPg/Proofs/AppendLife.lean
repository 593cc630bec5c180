/-
When an Append can be rescanned, and when it can be ended.

On the parallel path all the calls of a node, rescans or not, read one and the same stream
of tuples: what the plans given to the workers return.  `ParallelOk` says so of the log of
the node.  A rescan is therefore harmless only as long as nothing has been read, and then the
stream is the union of all subplans only if no plan was left out, that is, with at most two
workers.  On the serial path every rescan starts the stream anew (`SerialOk`).

Both paths make their state in the first `ExecAppend`, so a node that is ended without one
has none to read.

For the sequences of calls that do go wrong the subplans are chosen to show it: one tuple in
the first plan, or one tuple in the plan that is left out.
-/
import PrlPg.Executor.AppendLife
import PrlPg.Proofs.ParallelAppend

namespace PrlPg

open List Run AppendLife

variable {α : Type*}

/-! ### A call of the parallel path -/

section Job

variable {job : Job α} {s s' : State α}

/-- What has been returned at any time is part of what the given plans return. -/
theorem AppendRun.returned_length (h : AppendRun job s) (hq : 0 < job.queueSize)
    (happ : job.isSort = false) (hcnt : 0 < job.workersCnt) :
    s.returned.length ≤ (givenRows job job.allGiven).length := by
  obtain ⟨t, hrun, heof⟩ := h.reaches_eof hq happ
  have ht : AppendRun job t := hrun.invariant h fun _ _ _ hu he hst => hu.event hq happ he hst
  have hgrows : s.returned <+: t.returned := hrun.invariant
    (I := fun u => s.returned <+: u.returned) prefix_rfl
    fun _ _ _ hu _ hst => hu.trans (returned_grows hst)
  rw [← (ht.of_eof happ hcnt heof).2.length_eq]
  exact hgrows.length_le

/-- The run of a call: no tuple is asked for before the master is back. -/
def InCall (s : State α) (e : Event) : Prop := e.drains = true ∧ s.pc ≠ .idle

/-- Once an empty slot has been returned, the next call finds out at once. -/
theorem AppendRun.poll_of_eof (h : AppendRun job s) (happ : job.isSort = false)
    (hidle : s.pc ≠ .idle) (heof : s.eof = true) :
    step job s .master = some { s with eof := true, pc := .idle } := by
  obtain ⟨hpc, left, hd⟩ := h.data.of_eof h.inv happ h.supplied heof
  obtain ⟨i, hpc⟩ := hpc.resolve_left hidle
  obtain ⟨-, hworkers, -⟩ := h.inv.located hpc rfl
  have hall : (range s.workers.length).all s.merge.workersFinished = true := by
    rw [hworkers]
    simpa [registered] using hd.eof heof
  simp only [step, masterStep, hpc, pollStep]
  rw [if_pos hall]

/-- A call comes back. -/
theorem AppendRun.comes_back (h : AppendRun job s) (hq : 0 < job.queueSize)
    (happ : job.isSort = false) : ∃ t, Steps (step job) InCall s t ∧ t.pc = .idle := by
  by_cases hidle : s.pc = .idle
  · exact ⟨s, Steps.refl, hidle⟩
  by_cases heof : s.eof = true
  · exact ⟨_, Steps.single (e := .master) ⟨rfl, hidle⟩ (h.poll_of_eof happ hidle heof), rfl⟩
  obtain ⟨t, hrun, ht⟩ := h.reaches_eof hq happ
  obtain ⟨u, e, v, hrun', ⟨hidle', heof'⟩, he, hst, hv⟩ := hrun.leaves
    (A := fun u => u.pc ≠ .idle ∧ ¬ u.eof = true) ⟨hidle, heof⟩ fun hA => hA.2 ht
  have hcall : Steps (step job) InCall s u := hrun'.mono fun _ _ hx => ⟨hx.1, hx.2.1⟩
  refine ⟨v, hcall.tail ⟨he, hidle'⟩ hst, ?_⟩
  by_contra hne
  cases step_occurs hst with
  | master hst =>
    cases masterStep_returns hst with
    | nothing _ _ hsame => exact hv ⟨hne, by rwa [hsame]⟩
    | tuple _ hpc | empty hpc => exact hne hpc
  | fetch hpc => exact hidle' hpc
  | worker | fork => exact hv ⟨hidle', heof'⟩
  | _ => simp [Drain, Event.drains] at he

end Job

/-! ### The log -/

variable {plans : List (List α)}

/-- The call a reply belongs to. -/
def AppendReply.call : AppendReply α → AppendCall
  | .slot _ => .exec
  | .rescanned => .rescan

def AppendReply.row? : AppendReply α → Option α
  | .slot t => t
  | .rescanned => none

/-- The tuples in a log. -/
def logRows (log : List (AppendReply α)) : List α := log.filterMap AppendReply.row?

theorem logRows_append (log log' : List (AppendReply α)) :
    logRows (log ++ log') = logRows log ++ logRows log' := filterMap_append

/-- Where calls after a rescan have come to an empty slot, they have returned the whole. -/
def RescansWell (whole : List α) (log : List (AppendReply α)) : Prop :=
  ∀ (pre : List (AppendReply α)) (seg : List α) (post), log = pre ++ .rescanned ::
    (seg.map (fun t => AppendReply.slot (some t)) ++ .slot none :: post) → seg.Perm whole

/-- A place in a list that grows at its end is the new end, or was there before. -/
theorem snoc_split {β : Type*} {l pre post : List β} {r x : β} (h : l ++ [r] = pre ++ x :: post) :
    (post = [] ∧ pre = l ∧ x = r) ∨ ∃ post', post = post' ++ [r] ∧ l = pre ++ x :: post' := by
  rcases eq_nil_or_concat post with rfl | ⟨post', r', rfl⟩
  · obtain ⟨rfl, hr⟩ := append_inj' h rfl
    exact .inl ⟨rfl, rfl, (singleton_inj.mp hr).symm⟩
  rw [concat_eq_append, ← cons_append, ← append_assoc] at h
  obtain ⟨rfl, hr⟩ := append_inj' h rfl
  obtain rfl := singleton_inj.mp hr
  exact .inr ⟨post', by simp, rfl⟩

/-- A log of the parallel path: one stream, and an empty slot at its end only. -/
structure ParallelOk (job : Job α) (s : State α) (log : List (AppendReply α)) : Prop where
  run : AppendRun job s
  rows : logRows log = s.returned
  ends : ∀ pre post, log = pre ++ .slot none :: post →
    (logRows pre).Perm (givenRows job job.allGiven)

/-- The tuples returned since the last rescan. -/
def sinceRescan (log : List (AppendReply α)) : List α :=
  log.foldl (fun rows r => match r with
    | .slot t => rows ++ t.toList
    | .rescanned => []) []

/-- A log of the serial path: after a rescan the stream starts anew. -/
structure SerialOk (plans : List (List α)) (rest : List (List α)) (log : List (AppendReply α)) :
    Prop where
  rescans : RescansWell plans.flatten log
  since : sinceRescan log ++ rest.flatten = plans.flatten

theorem sinceRescan_snoc (log : List (AppendReply α)) (t : Option α) :
    sinceRescan (log ++ [.slot t]) = sinceRescan log ++ t.toList := by
  simp [sinceRescan]

theorem sinceRescan_rescanned (log : List (AppendReply α)) :
    sinceRescan (log ++ [.rescanned]) = [] := by
  simp [sinceRescan]

theorem sinceRescan_segment (pre : List (AppendReply α)) (seg : List α) :
    sinceRescan (pre ++ .rescanned :: seg.map fun t => .slot (some t)) = seg := by
  induction seg using reverseRecOn with
  | nil => exact sinceRescan_rescanned pre
  | append_singleton seg t ih =>
    rw [map_append, map_singleton, ← cons_append, ← append_assoc, sinceRescan_snoc, ih]
    rfl

variable {log : List (AppendReply α)} {r : AppendReply α} {whole : List α} {freeSems : Nat}

theorem RescansWell.snoc (h : RescansWell whole log) (hr : r ≠ .slot none) :
    RescansWell whole (log ++ [r]) := by
  intro pre seg post heq
  rw [← cons_append, ← append_assoc] at heq
  rcases snoc_split heq with ⟨-, -, hlast⟩ | ⟨post', -, hlog⟩
  · exact absurd hlast.symm hr
  · exact h pre seg post' (by rw [hlog]; simp)

/-- A log grows by an empty slot. -/
theorem RescansWell.snoc_empty (h : RescansWell whole log)
    (hsince : sinceRescan log = whole) : RescansWell whole (log ++ [.slot none]) := by
  intro pre seg post heq
  rw [← cons_append, ← append_assoc] at heq
  rcases snoc_split heq with ⟨-, hlog, -⟩ | ⟨post', -, hlog⟩
  · rw [← hlog, sinceRescan_segment] at hsince
    rw [hsince]
  · exact h pre seg post' (by rw [hlog]; simp)

theorem SerialOk.exec {t : AppendLife α} (h : SerialOk plans t.rest t.log) :
    SerialOk plans t.serialExec.rest t.serialExec.log := by
  have hsince := h.since
  unfold serialExec
  rcases serialAppendNext_eq t.rest with ⟨hnext, hflat⟩ | ⟨row, rest, hnext, hflat⟩
  · rw [hnext]
    rw [hflat, append_nil] at hsince
    refine ⟨h.rescans.snoc_empty hsince, ?_⟩
    simpa [sinceRescan_snoc] using hsince
  rw [hnext]
  refine ⟨h.rescans.snoc (by simp), ?_⟩
  rw [hflat] at hsince
  simpa [sinceRescan_snoc] using hsince

theorem SerialOk.rescan {rest : List (List α)} (h : SerialOk plans rest log) :
    SerialOk plans plans (log ++ [.rescanned]) := by
  refine ⟨h.rescans.snoc (by simp), ?_⟩
  rw [sinceRescan_rescanned, nil_append]

/-! ### The life of a node -/

section Life

variable {prlSql : Bool} {job : Job α} {t t' : AppendLife α}

/-- What holds of a node, by its parallel state. -/
def LifeOk (prlSql : Bool) (job : Job α) (t : AppendLife α) : Prop :=
  match t.pas with
  | none => 3 * job.workersCnt ≤ t.freeSems ∧ (∀ r ∈ t.log, r = .rescanned) ∧
      SerialOk job.subplans t.rest t.log
  | some .serial => prlSql = false ∧ SerialOk job.subplans t.rest t.log
  | some (.parallel s) => prlSql = true ∧ ParallelOk job s t.log

/-- The calls made so far: those that returned, and the one the node is in. -/
def AppendLife.made (t : AppendLife α) : List AppendCall :=
  t.log.map AppendReply.call ++ if t.resting then [] else [.exec]

/-- What an event adds to the calls, and when it makes the parallel state. -/
structure Advances (e : AppendEvent) (t t' : AppendLife α) : Prop where
  made : t'.made = t.made ++ e.call?.toList
  isSome : t'.pas.isSome = (t.pas.isSome || e.call? == some .exec)

variable {s : State α}

theorem resting_parallel (h : t.pas = some (.parallel s)) : t.resting = true ↔ s.pc = .idle := by
  simp only [resting, h]
  split
  · rename_i hpc
    simp [hpc]
  · rename_i hpc
    simpa using hpc

theorem made_of_resting (h : t.resting = true) : t.made = t.log.map AppendReply.call := by
  simp [made, h]

theorem made_of_parallel (h : t.pas = some (.parallel s)) (hpc : s.pc ≠ .idle) :
    t.made = t.log.map AppendReply.call ++ [.exec] := by
  have hrest : ¬ t.resting = true := fun hr => hpc ((resting_parallel h).mp hr)
  simp [made, hrest]

theorem ParallelOk.rescan (h : ParallelOk job s log) : ParallelOk job s (log ++ [.rescanned]) := by
  refine ⟨h.run, ?_, fun pre post heq => ?_⟩
  · rw [logRows_append, h.rows]
    exact append_nil _
  rcases snoc_split heq with ⟨-, -, hlast⟩ | ⟨post', -, hlog⟩
  · cases hlast
  · exact h.ends pre post' hlog

variable {s s' : State α}

section

variable (h : ParallelOk job s log) (hq : 0 < job.queueSize) (happ : job.isSort = false)
include h hq happ

theorem ParallelOk.master (hcnt : 0 < job.workersCnt) (hst : step job s .master = some s') :
    ParallelOk job s' (log ++ replyOf s s') := by
  have hrun := h.run.event hq happ (e := .master) rfl hst
  cases masterStep_returns hst with
  | nothing hpc hret heof =>
    have hreply : replyOf s s' = [] := by
      unfold replyOf
      split
      · contradiction
      · rfl
    rw [hreply, append_nil]
    exact ⟨hrun, by rw [h.rows, hret], h.ends⟩
  | tuple row hpc hret heof =>
    have hreply : replyOf s s' = [.slot (some row)] := by simp [replyOf, hpc, hret]
    rw [hreply]
    refine ⟨hrun, ?_, fun pre post heq => ?_⟩
    · rw [hret, ← h.rows, logRows_append]
      rfl
    rcases snoc_split heq with ⟨-, -, hlast⟩ | ⟨post', -, hlog⟩
    · cases hlast
    · exact h.ends pre post' hlog
  | empty hpc hret heof =>
    have hreply : replyOf s s' = [.slot none] := by simp [replyOf, hpc, hret]
    rw [hreply]
    refine ⟨hrun, ?_, fun pre post heq => ?_⟩
    · rw [hret, ← h.rows, logRows_append]
      exact append_nil _
    rcases snoc_split heq with ⟨-, hpre, -⟩ | ⟨post', -, hlog⟩
    · -- the node says that there is no more, so everything has been returned
      rw [hpre, h.rows, ← hret]
      exact (hrun.of_eof happ hcnt heof).2
    · exact h.ends pre post' hlog

theorem ParallelOk.other {e : Event} (he : e.drains = true) (hst : step job s e = some s')
    (hret : s'.returned = s.returned) : ParallelOk job s' log :=
  ⟨h.run.event hq happ he hst, by rw [h.rows, hret], h.ends⟩

end

theorem lifeOk_init (prlSql : Bool) (hsem : 3 * job.workersCnt ≤ freeSems) :
    LifeOk prlSql job (AppendLife.init job freeSems) := by
  refine ⟨hsem, by simp [AppendLife.init], fun pre seg post heq => ?_, rfl⟩
  simp [AppendLife.init] at heq

theorem LifeOk.rescan (h : LifeOk prlSql job t) : LifeOk prlSql job (t.execReScanAppend job) := by
  unfold LifeOk at h ⊢
  simp only [execReScanAppend]
  cases hpas : t.pas with
  | none =>
    rw [hpas] at h
    refine ⟨h.1, fun r hr => ?_, h.2.2.rescan⟩
    rcases mem_append.mp hr with hr | hr
    · exact h.2.1 r hr
    · exact mem_singleton.mp hr
  | some pas =>
    rw [hpas] at h
    cases pas with
    | serial | parallel s => exact ⟨h.1, h.2.rescan⟩

theorem serialExec_spec (t : AppendLife α) :
    ∃ row, t.serialExec.log = t.log ++ [.slot row] ∧ t.serialExec.pas = t.pas := by
  unfold serialExec
  split
  · exact ⟨none, rfl, rfl⟩
  · exact ⟨some _, rfl, rfl⟩

theorem Advances.serialExec (hrest : t.resting = true) (hpas : t'.pas = some .serial)
    (hlog : t'.log = t.log) : Advances (.call .exec) t t'.serialExec := by
  obtain ⟨row, hrow, hpas'⟩ := serialExec_spec t'
  rw [hpas] at hpas'
  refine ⟨?_, by simp [hpas', AppendEvent.call?]⟩
  rw [made_of_resting hrest, made_of_resting (by simp [resting, hpas']), hrow, hlog]
  simp [AppendEvent.call?, AppendReply.call]

/-- What the processes do during a call they do in the life of the node. -/
theorem exists_life_steps (prlSql : Bool) {s u : State α} (h : Steps (step job) InCall s u)
    (hpas : t.pas = some (.parallel s)) :
    ∃ t', Steps (appendLifeStep prlSql job) (fun _ e => e.call? = none) t t' ∧
      t'.pas = some (.parallel u) := by
  induction h with
  | refl => exact ⟨t, Steps.refl, hpas⟩
  | @tail v u e _ hin hst ih =>
    obtain ⟨t', hrun, hpas'⟩ := ih
    obtain ⟨he, hidle⟩ := hin
    cases e with
    | master =>
      refine ⟨_, hrun.tail (e := .master) rfl (by simp only [appendLifeStep, hpas', hst]; rfl), rfl⟩
    | worker i =>
      refine ⟨_, hrun.tail (e := .worker i) rfl
        (by simp only [appendLifeStep, hpas', hst]; rfl), rfl⟩
    | fork i =>
      refine ⟨_, hrun.tail (e := .fork i) rfl (by simp only [appendLifeStep, hpas', hst]; rfl), rfl⟩
    | fetch =>
      cases step_occurs hst with
      | fetch hpc => exact absurd hpc hidle
    | _ => simp [Event.drains] at he

variable (hq : 0 < job.queueSize) (happ : job.isSort = false)
include hq happ

section

variable (h : LifeOk prlSql job t)
include h

theorem LifeOk.exec (hrest : t.resting = true) : LifeOk prlSql job (t.execAppend prlSql job) ∧
      Advances (.call .exec) t (t.execAppend prlSql job) := by
  unfold LifeOk at h
  unfold execAppend
  cases hpas : t.pas with
  | none =>
    rw [hpas] at h
    obtain ⟨hsem, hlog, hserial⟩ := h
    cases prlSql with
    | true =>
      have hnone : ∀ pre post, t.log ≠ pre ++ .slot none :: post := fun pre post heq => by
        have := hlog (.slot none) (by rw [heq]; simp)
        cases this
      have hrows : logRows t.log = [] := by
        rw [logRows, filterMap_eq_nil_iff]
        intro r hr
        rw [hlog r hr]
        rfl
      refine ⟨⟨rfl, appendRun_init hsem, hrows, fun pre post heq => absurd heq (hnone pre post)⟩,
        ?_, by simp [AppendEvent.call?]⟩
      rw [made_of_resting hrest, made_of_parallel rfl (by simp [init])]
      rfl
    | false =>
      refine ⟨?_, Advances.serialExec hrest rfl rfl⟩
      have hspec := (serialExec_spec { t with pas := some (PrlAppendState.serial) }).choose_spec.2
      unfold LifeOk
      simp only [Bool.false_eq_true, if_false, hspec]
      exact ⟨trivial, SerialOk.exec (t := { t with pas := some .serial }) hserial⟩
  | some pas =>
    rw [hpas] at h
    cases pas with
    | serial =>
      refine ⟨?_, Advances.serialExec hrest hpas rfl⟩
      have hspec := (serialExec_spec t).choose_spec.2
      unfold LifeOk
      simp only [hspec, hpas]
      exact ⟨h.1, h.2.exec⟩
    | parallel s =>
      have hpc := (resting_parallel hpas).mp hrest
      have hst : step job s .fetch = some (s.goto (.poll s.lastWorker)) := by simp [step, hpc, happ]
      refine ⟨⟨h.1, h.2.other hq happ (e := .fetch) rfl hst rfl⟩, ?_, by simp [hpas]⟩
      rw [made_of_resting hrest, made_of_parallel rfl (by simp [State.goto])]
      rfl

/-- A worker moves, or is forked. -/
theorem LifeOk.other (hpas : t.pas = some (.parallel s)) {e : Event}
    (he : e.drains = true) (hst : step job s e = some s') (hret : s'.returned = s.returned)
    (hpc : s'.pc = s.pc) {e' : AppendEvent} (he' : e'.call? = none) :
    LifeOk prlSql job { t with pas := some (.parallel s') } ∧
      Advances e' t { t with pas := some (.parallel s') } := by
  unfold LifeOk at h
  rw [hpas] at h
  refine ⟨⟨h.1, h.2.other hq happ he hst hret⟩, ?_, by simp [hpas, he']⟩
  simp [made, resting, hpas, hpc, he']

theorem LifeOk.master (hcnt : 0 < job.workersCnt)
    (hpas : t.pas = some (.parallel s)) (hst : step job s .master = some s') :
    LifeOk prlSql job
        { t with pas := some (.parallel s'), log := t.log ++ replyOf s s' } ∧
      Advances .master t
        { t with pas := some (.parallel s'), log := t.log ++ replyOf s s' } := by
  unfold LifeOk at h
  rw [hpas] at h
  have hidle : s.pc ≠ .idle := fun hpc => by simp [step, masterStep, hpc] at hst
  refine ⟨⟨h.1, h.2.master hq happ hcnt hst⟩, ?_, by simp [hpas, AppendEvent.call?]⟩
  rw [made_of_parallel hpas hidle]
  by_cases hpc : s'.pc = .idle
  · rw [made_of_resting ((resting_parallel rfl).mpr hpc)]
    simp [replyOf, hpc, AppendReply.call, AppendEvent.call?]
  have hreply : replyOf s s' = [] := by
    unfold replyOf
    split
    · contradiction
    · rfl
  rw [made_of_parallel rfl hpc, hreply]
  simp [AppendEvent.call?]

theorem LifeOk.event (hcnt : 0 < job.workersCnt) {e : AppendEvent}
    (hst : appendLifeStep prlSql job t e = some t') :
    LifeOk prlSql job t' ∧ Advances e t t' := by
  cases e with
  | call c =>
    simp only [appendLifeStep] at hst
    split_ifs at hst with hrest
    cases c with
    | exec =>
      cases hst
      exact h.exec hq happ hrest
    | rescan =>
      cases hst
      refine ⟨h.rescan, ?_, by simp [execReScanAppend, AppendEvent.call?]⟩
      have hrest' : (t.execReScanAppend job).resting = true := hrest
      rw [made_of_resting hrest, made_of_resting hrest']
      simp [execReScanAppend, AppendReply.call, AppendEvent.call?]
  | master =>
    simp only [appendLifeStep] at hst
    split at hst
    · rename_i s hpas
      obtain ⟨s', hs', rfl⟩ := Option.map_eq_some_iff.mp hst
      exact h.master hq happ hcnt hpas hs'
    · cases hst
  | worker i | fork i =>
    simp only [appendLifeStep] at hst
    split at hst
    · rename_i s hpas
      obtain ⟨s', hs', rfl⟩ := Option.map_eq_some_iff.mp hst
      obtain ⟨w, -, rfl⟩ := Option.map_eq_some_iff.mp hs'
      exact h.other hq happ hpas rfl hs' rfl rfl rfl
    · cases hst

end

theorem LifeOk.run (hcnt : 0 < job.workersCnt) (es : List AppendEvent) :
    ∀ {t t' : AppendLife α}, LifeOk prlSql job t →
      Run.exec (appendLifeStep prlSql job) t es = some t' →
      LifeOk prlSql job t' ∧ t'.made = t.made ++ es.filterMap AppendEvent.call? ∧
        (t'.pas.isSome = true ↔ t.pas.isSome = true ∨ .exec ∈ es.filterMap AppendEvent.call?) := by
  induction es with
  | nil =>
    intro t t' h hrun
    cases hrun
    simpa using h
  | cons e es ih =>
    intro t t' h hrun
    cases hst : appendLifeStep prlSql job t e with
    | none => simp [Run.exec, hst] at hrun
    | some u =>
      simp only [Run.exec, hst] at hrun
      obtain ⟨hu, hmade, hsome⟩ := h.event hq happ hcnt hst
      obtain ⟨ht', hmade', hsome'⟩ := ih hu hrun
      refine ⟨ht', ?_, ?_⟩
      · rw [hmade', hmade]
        cases hc : e.call? <;> simp [hc]
      rw [hsome', hsome]
      cases hc : e.call? with
      | none => simp [hc]
      | some c =>
        have hcomm : (.exec = c) ↔ c = .exec := eq_comm
        simp only [filterMap_cons, hc, mem_cons, Bool.or_eq_true, beq_iff_eq,
          Option.some.injEq, or_assoc, hcomm]

/-- Every call returns. -/
theorem LifeOk.comes_back (h : LifeOk prlSql job t) :
    ∃ es u, (∀ e ∈ es, e.call? = none) ∧ Run.exec (appendLifeStep prlSql job) t es = some u ∧
      u.resting = true := by
  by_cases hrest : t.resting = true
  · exact ⟨[], t, by simp, rfl, hrest⟩
  obtain ⟨s, hpas⟩ : ∃ s, t.pas = some (.parallel s) := by
    cases hpas : t.pas with
    | none => simp [resting, hpas] at hrest
    | some pas =>
      cases pas with
      | serial => simp [resting, hpas] at hrest
      | parallel s => exact ⟨s, rfl⟩
  unfold LifeOk at h
  rw [hpas] at h
  obtain ⟨u, hrun, hpc⟩ := h.2.run.comes_back hq happ
  obtain ⟨t', hrun', hpas'⟩ := exists_life_steps prlSql hrun hpas
  obtain ⟨es, hes, hexec⟩ := hrun'.exists_exec
  exact ⟨es, t', hes, hexec, (resting_parallel hpas').mpr hpc⟩

/-- Every sequence of calls can be made. -/
theorem LifeOk.can_make (hcnt : 0 < job.workersCnt) (calls : List AppendCall) :
    ∀ {t : AppendLife α}, LifeOk prlSql job t → t.resting = true →
      ∃ es u, Run.exec (appendLifeStep prlSql job) t es = some u ∧
        es.filterMap AppendEvent.call? = calls ∧ u.resting = true := by
  induction calls with
  | nil => exact fun _ hrest => ⟨[], _, rfl, rfl, hrest⟩
  | cons c calls ih =>
    intro t h hrest
    obtain ⟨t₁, hst⟩ : ∃ t₁, appendLifeStep prlSql job t (.call c) = some t₁ := by
      simp only [appendLifeStep, hrest, if_true]
      cases c <;> exact ⟨_, rfl⟩
    obtain ⟨h₁, -⟩ := h.event hq happ hcnt hst
    obtain ⟨es, t₂, hes, hexec, hrest₂⟩ := h₁.comes_back hq happ
    obtain ⟨h₂, -⟩ := LifeOk.run hq happ hcnt es h₁ hexec
    obtain ⟨es', u, hexec', hcalls, hu⟩ := ih h₂ hrest₂
    refine ⟨.call c :: (es ++ es'), u, ?_, ?_, hu⟩
    · simp only [Run.exec, hst, Run.exec_append, hexec, Option.bind_some, hexec']
    · have hnil : es.filterMap AppendEvent.call? = [] := filterMap_eq_nil_iff.mpr hes
      simp [AppendEvent.call?, hnil, hcalls]

end Life

/-! ### Subplans that show what goes wrong -/

variable {n : Nat} {k : Nat}

/-- The same settings, for the given subplans. -/
def Job.appending (job : Job α) (plans : List (List α)) : Job α :=
  { job with node := .append plans }

/-- `n` plans with one tuple in plan `k` and none in the others. -/
def oneRow (n k : Nat) (a : α) : List (List α) :=
  (List.range n).map fun p => if p = k then [a] else []

theorem oneRow_flatten (a : α) (hk : k < n) : (oneRow n k a).flatten = [a] := by
  have hzero : ∀ l : List Nat, k ∉ l → (l.map fun p => if p = k then [a] else []).flatten = [] := by
    intro l hl
    rw [flatten_eq_nil_iff]
    intro r hr
    obtain ⟨p, hp, rfl⟩ := mem_map.mp hr
    rw [if_neg]
    rintro rfl
    exact hl hp
  have hsplit : range n = range k ++ k :: range' (k + 1) (n - k - 1) := by
    rw [range_eq_range', range_eq_range', ← range'_succ]
    have happend := range'_append_1 (s := 0) (m := k) (n := n - k - 1 + 1)
    rw [zero_add] at happend
    rw [happend]
    congr 1
    omega
  rw [oneRow, hsplit, map_append, map_cons, flatten_append, flatten_cons,
    hzero _ (by simp), hzero _ (by simp), if_pos rfl]
  rfl

/-- The tuple comes back as often as its plan is given. -/
theorem givenRows_oneRow (job : Job α) (a : α) (hk : k < n) (given : List Nat) :
    givenRows (job.appending (oneRow n k a)) given = replicate (given.count k) a := by
  induction given with
  | nil => rfl
  | cons p given ih =>
    have hrows : (job.appending (oneRow n k a)).rows (some p) = if p = k then [a] else [] := by
      by_cases hp : p < n
      · simp [Job.rows, Job.subplans, Job.appending, oneRow, hp]
      · rw [if_neg (by omega)]
        simp [Job.rows, Job.subplans, Job.appending, oneRow, hp]
    rw [givenRows, flatMap_cons, hrows, ← givenRows, ih, count_cons]
    by_cases hpk : p = k
    · simp [hpk, replicate_succ]
    · simp [hpk]

variable {job : Job α} {pre post : List AppendCall}

theorem allGiven_count_zero (hcnt : 0 < job.workersCnt) : job.allGiven.count 0 = 1 := by
  obtain ⟨w, hw⟩ := Nat.exists_eq_add_of_lt hcnt
  have hrest : count 0 (range' job.workersCnt (job.subplans.length - job.workersCnt)) = 0 := by
    rw [count_eq_zero, mem_range'_1]
    omega
  have hinit : count 0 ((range job.workersCnt).map initialPlan) = 1 := by
    rw [hw, zero_add, range_succ_eq_map, map_cons, map_map, count_cons, count_eq_zero.mpr]
    · simp [initialPlan]
    · simp [initialPlan]
  rw [Job.allGiven, count_append, hinit, hrest]

theorem allGiven_count_two (hcnt : 2 < job.workersCnt) : job.allGiven.count 2 = 0 := by
  rw [Job.allGiven, count_eq_zero, mem_append, mem_range'_1, mem_map]
  rintro (⟨i, -, hi⟩ | h)
  · simp only [initialPlan] at hi
    omega
  · omega

/-! ### Rescans -/

theorem AppendReply.eq_rescanned (h : r.call = .rescan) : r = .rescanned := by
  cases r with
  | slot t => simp [AppendReply.call] at h
  | rescanned => rfl

theorem AppendReply.eq_slot (h : r.call = .exec) : ∃ t, r = .slot t := by
  cases r with
  | slot t => exact ⟨t, rfl⟩
  | rescanned => simp [AppendReply.call] at h

theorem logRows_of_no_exec (h : AppendCall.exec ∉ log.map AppendReply.call) : logRows log = [] := by
  rw [logRows, filterMap_eq_nil_iff]
  intro r hr
  cases r with
  | rescanned => rfl
  | slot t => exact absurd (mem_map.mpr ⟨_, hr, rfl⟩) h

/-- With a stream of one tuple that was read, or with an empty stream, the call after a rescan
finds nothing. -/
theorem ParallelOk.empty_after_rescan (h : ParallelOk job s log)
    (hq : 0 < job.queueSize) (happ : job.isSort = false) (hcnt : 0 < job.workersCnt)
    (hcalls : log.map AppendReply.call = pre ++ .rescan :: .exec :: post)
    (hstream : if .exec ∈ pre then (givenRows job job.allGiven).length = 1
      else givenRows job job.allGiven = []) :
    ∃ l l', log = l ++ .rescanned :: .slot none :: l' := by
  obtain ⟨l, rest, rfl, hl, hrest⟩ := map_eq_append_iff.mp hcalls
  obtain ⟨r, rest, rfl, hr, hrest⟩ := map_eq_cons_iff.mp hrest
  obtain ⟨x, l', rfl, hx, -⟩ := map_eq_cons_iff.mp hrest
  obtain rfl := AppendReply.eq_rescanned hr
  obtain ⟨row, rfl⟩ := AppendReply.eq_slot hx
  cases row with
  | none => exact ⟨l, l', rfl⟩
  | some row =>
    have htotal := h.run.returned_length hq happ hcnt
    rw [← h.rows, logRows_append] at htotal
    have hlen : (logRows (.rescanned :: .slot (some row) :: l')).length =
        (logRows l').length + 1 := rfl
    rw [length_append, hlen] at htotal
    split_ifs at hstream with hpre
    swap
    · rw [hstream] at htotal
      cases htotal
    -- an earlier call has found the end, without a tuple before it
    have hnone : logRows l = [] := length_eq_zero_iff.mp (by omega)
    rw [← hl, mem_map] at hpre
    obtain ⟨z, hz, hzcall⟩ := hpre
    obtain ⟨t, rfl⟩ := AppendReply.eq_slot hzcall
    have ht : t = none := filterMap_eq_nil_iff.mp hnone _ hz
    subst ht
    obtain ⟨u, v, rfl⟩ := append_of_mem hz
    have hends := (h.ends u (v ++ .rescanned :: .slot (some row) :: l') (by simp)).length_eq
    rw [logRows_append, append_eq_nil_iff] at hnone
    rw [hnone.1, hstream] at hends
    cases hends

/-- A rescan before the first tuple, with no plan left out, loses nothing. -/
theorem ParallelOk.rescansWell (h : ParallelOk job s log) (happ : job.isSort = false)
    (hok : ∀ pre post, log.map AppendReply.call = pre ++ .rescan :: .exec :: post →
      .exec ∉ pre ∧ job.workersCnt ≤ 2) : RescansWell job.subplans.flatten log := by
  intro pre seg post heq
  have hcalls : ∃ post', log.map AppendReply.call =
      pre.map AppendReply.call ++ .rescan :: .exec :: post' := by
    rw [heq]
    cases seg with
    | nil | cons t seg => exact ⟨_, by simp [AppendReply.call]; rfl⟩
  obtain ⟨post', hcalls⟩ := hcalls
  obtain ⟨hpre, hle⟩ := hok _ _ hcalls
  have hends := h.ends (pre ++ .rescanned :: seg.map fun t => .slot (some t)) post
    (by rw [heq]; simp)
  have hrows : logRows (.rescanned :: seg.map fun t => .slot (some t)) = seg := by
    show (seg.map _).filterMap _ = seg
    rw [filterMap_map]
    exact filterMap_some
  rw [logRows_append, logRows_of_no_exec hpre, nil_append, hrows] at hends
  exact hends.trans (givenRows_allGiven happ hle)

theorem appending_workersCnt (job : Job α) (hlen : plans.length = n) :
    (job.appending plans).workersCnt = min n job.level := by
  rw [workersCnt_append rfl]
  simp [Job.appending, Job.subplans, hlen]

/-- What is known of a node after the calls of a run. -/
theorem lifeOk_of_exec {prlSql : Bool} (hq : 0 < job.queueSize)
    (happ : job.isSort = false) (hcnt : 0 < job.workersCnt) (hsem : 3 * job.workersCnt ≤ freeSems)
    {es : List AppendEvent} {t : AppendLife α}
    (h : Run.exec (appendLifeStep prlSql job) (AppendLife.init job freeSems) es = some t) :
    LifeOk prlSql job t ∧ t.made = es.filterMap AppendEvent.call? ∧
      (t.pas.isSome = true ↔ .exec ∈ es.filterMap AppendEvent.call?) := by
  obtain ⟨hok, hmade, hsome⟩ := LifeOk.run hq happ hcnt es (lifeOk_init prlSql hsem) h
  refine ⟨hok, ?_, ?_⟩
  · rw [hmade]
    simp [AppendLife.made, AppendLife.init, AppendLife.resting]
  · simpa [AppendLife.init] using hsome

theorem isSome_execEndAppend (t : AppendLife α) : t.execEndAppend.isSome = t.pas.isSome := by
  unfold execEndAppend
  split <;> simp_all

/-- The tuple of the plan that was read before, or left out, is missing after the rescan. -/
theorem not_rescansWell_oneRow {a : α} (hk : k < n)
    (hlevel : 0 < job.level) (hq : 0 < job.queueSize) {t : AppendLife α}
    (hok : LifeOk true (job.appending (oneRow n k a)) t) (hset : t.pas.isSome = true)
    (hcalls : t.log.map AppendReply.call = pre ++ .rescan :: .exec :: post)
    (hgiven : (job.appending (oneRow n k a)).allGiven.count k = if .exec ∈ pre then 1 else 0) :
    ¬ RescansWell (oneRow n k a).flatten t.log := by
  intro hwell
  have hcnt : 0 < (job.appending (oneRow n k a)).workersCnt := by
    rw [appending_workersCnt job (show (oneRow n k a).length = n by simp [oneRow])]
    omega
  have hq' : 0 < (job.appending (oneRow n k a)).queueSize := hq
  obtain ⟨s, hpas⟩ : ∃ s, t.pas = some (.parallel s) := by
    unfold LifeOk at hok
    cases hpas : t.pas with
    | none => simp [hpas] at hset
    | some pas =>
      rw [hpas] at hok
      cases pas with
      | serial => exact absurd hok.1 (by simp)
      | parallel s => exact ⟨s, rfl⟩
  unfold LifeOk at hok
  rw [hpas] at hok
  obtain ⟨l, l', hlog⟩ := hok.2.empty_after_rescan hq' rfl hcnt hcalls (by
    rw [givenRows_oneRow job a hk, hgiven]
    split_ifs <;> rfl)
  have hperm := hwell l [] l' hlog
  rw [oneRow_flatten a hk] at hperm
  simpa using hperm.length_eq

/--
Take an Append of `n` subplans and any sequence of `ExecAppend` and `ExecReScanAppend` calls.
Whatever the subplans return and whatever the interleaving: that after each rescan the calls
return the union of the subplans before they return an empty slot, and that `ExecEndAppend`
has a parallel state to read, holds exactly when `ExecAppend` is called at all and, on the
parallel path, a rescan that is followed by an `ExecAppend` comes before any other and there
are at most two workers.  Every call that is made returns.
-/
theorem append_life_iff [Nonempty α] (job : Job α) (hlevel : 0 < job.level)
    (hq : 0 < job.queueSize) {n : Nat} (hn : 0 < n) {freeSems : Nat}
    (hsem : 3 * min n job.level ≤ freeSems) (prlSql : Bool) (calls : List AppendCall) :
    ((∀ plans : List (List α), plans.length = n → ∀ es t,
        Run.exec (appendLifeStep prlSql (job.appending plans))
          (AppendLife.init (job.appending plans) freeSems) es = some t →
        es.filterMap AppendEvent.call? = calls → t.resting = true →
        RescansWell plans.flatten t.log ∧ t.execEndAppend.isSome = true) ↔
      .exec ∈ calls ∧ (prlSql = true → ∀ pre post, calls = pre ++ .rescan :: .exec :: post →
        .exec ∉ pre ∧ min n job.level ≤ 2)) ∧
    ∀ plans : List (List α), plans.length = n → ∀ es t,
      Run.exec (appendLifeStep prlSql (job.appending plans))
        (AppendLife.init (job.appending plans) freeSems) es = some t →
      ∃ es' u, (∀ e ∈ es', e.call? = none) ∧
        Run.exec (appendLifeStep prlSql (job.appending plans)) t es' = some u ∧
        u.resting = true := by
  have hq' : ∀ plans : List (List α), 0 < (job.appending plans).queueSize := fun _ => hq
  have hpos : ∀ plans : List (List α), plans.length = n → 0 < (job.appending plans).workersCnt := by
    intro plans hlen
    rw [appending_workersCnt job hlen]
    omega
  have hsem' : ∀ plans : List (List α), plans.length = n →
      3 * (job.appending plans).workersCnt ≤ freeSems := by
    intro plans hlen
    rwa [appending_workersCnt job hlen]
  have hmake : ∀ plans : List (List α), plans.length = n → ∃ es t,
      Run.exec (appendLifeStep prlSql (job.appending plans))
        (AppendLife.init (job.appending plans) freeSems) es = some t ∧
      es.filterMap AppendEvent.call? = calls ∧ t.resting = true := fun plans hlen =>
    LifeOk.can_make (hq' plans) rfl (hpos plans hlen) calls (lifeOk_init prlSql (hsem' plans hlen)) rfl
  have hrun : ∀ plans : List (List α), plans.length = n → ∀ {es t},
      Run.exec (appendLifeStep prlSql (job.appending plans))
        (AppendLife.init (job.appending plans) freeSems) es = some t →
      LifeOk prlSql (job.appending plans) t ∧ t.made = es.filterMap AppendEvent.call? ∧
        (t.pas.isSome = true ↔ .exec ∈ es.filterMap AppendEvent.call?) :=
    fun plans hlen => lifeOk_of_exec (hq' plans) rfl (hpos plans hlen) (hsem' plans hlen)
  refine ⟨⟨fun hall => ⟨?_, ?_⟩, ?_⟩, fun plans hlen es t hexec => ?_⟩
  · obtain ⟨es, t, hexec, hcalls, hrest⟩ := hmake (replicate n []) (by simp)
    have hset := (hall _ (by simp) es t hexec hcalls hrest).2
    rw [isSome_execEndAppend] at hset
    rw [← hcalls]
    exact (hrun _ (by simp) hexec).2.2.mp hset
  · rintro rfl pre post heq
    obtain ⟨a⟩ := ‹Nonempty α›
    have hlen : ∀ k, (oneRow n k a).length = n := fun k => by simp [oneRow]
    have hbad : ∀ k < n, (job.appending (oneRow n k a)).allGiven.count k ≠
        if .exec ∈ pre then 1 else 0 := by
      intro k hk hgiven
      obtain ⟨es, t, hexec, hcalls, hrest⟩ := hmake (oneRow n k a) (hlen k)
      obtain ⟨hwell, hset⟩ := hall _ (hlen k) es t hexec hcalls hrest
      obtain ⟨hok, hmade, -⟩ := hrun _ (hlen k) hexec
      rw [made_of_resting hrest, hcalls, heq] at hmade
      rw [isSome_execEndAppend] at hset
      exact not_rescansWell_oneRow hk hlevel hq hok hset hmade hgiven hwell
    -- the first plan is given once, and with more than two workers the third one never
    have hpre : .exec ∉ pre := fun hpre => hbad 0 hn (by
      rw [if_pos hpre]
      exact allGiven_count_zero (hpos _ (hlen 0)))
    refine ⟨hpre, ?_⟩
    by_contra hle
    refine hbad 2 (by omega) ?_
    rw [if_neg hpre]
    exact allGiven_count_two (by rw [appending_workersCnt job (hlen 2)]; omega)
  · rintro ⟨hexec, hsegs⟩ plans hlen es t hes hcalls hrest
    obtain ⟨hok, hmade, hsome⟩ := hrun plans hlen hes
    rw [made_of_resting hrest, hcalls] at hmade
    rw [hcalls] at hsome
    refine ⟨?_, by rw [isSome_execEndAppend]; exact hsome.mpr hexec⟩
    unfold LifeOk at hok
    cases hpas : t.pas with
    | none => simp [hpas, hexec] at hsome
    | some pas =>
      rw [hpas] at hok
      cases pas with
      | serial => exact hok.2.rescans
      | parallel s =>
        refine hok.2.rescansWell rfl fun pre post heq => ?_
        rw [appending_workersCnt job hlen]
        exact hsegs hok.1 pre post (hmade.symm.trans heq)
  · exact (hrun plans hlen hexec).1.comes_back (hq' plans) rfl

/-! ### Runs -/

/-- The master and its two workers in turn, with the postmaster. -/
def inAppend (rounds : Nat) : List AppendEvent :=
  (List.replicate rounds [.master, .fork 0, .worker 0, .fork 1, .worker 1]).flatten

/-- The rescan comes before the first tuple. -/
def rescanFirst : List AppendEvent :=
  .call .rescan :: (List.replicate 3 (.call .exec :: inAppend 20)).flatten

/-- The rescan comes after the first tuple. -/
def rescanLater : List AppendEvent := .call .exec :: inAppend 20 ++ rescanFirst

/-- Where a schedule leads an Append of two plans, with one tuple each. -/
def appendLife (es : List AppendEvent) : AppendLife Nat :=
  Run.follow (appendLifeStep true (appendNats [[1], [2]] 2 1))
    (AppendLife.init (appendNats [[1], [2]] 2 1) 6) es

theorem append_life_iff_rescanFirst : RescansWell [1, 2] (appendLife rescanFirst).log ∧
      (appendLife rescanFirst).execEndAppend.isSome = true := by
  have hcond : .exec ∈ [AppendCall.rescan, .exec, .exec, .exec] ∧
      (true = true → ∀ pre post, [AppendCall.rescan, .exec, .exec, .exec] =
        pre ++ .rescan :: .exec :: post → .exec ∉ pre ∧ min 2 2 ≤ 2) := by
    refine ⟨by decide, fun _ pre post heq => ?_⟩
    cases pre with
    | nil => exact ⟨by simp, by decide⟩
    | cons c pre =>
      have hmem : AppendCall.rescan ∈ [AppendCall.exec, .exec, .exec] := by
        rw [(cons.inj heq).2]
        simp
      simp at hmem
  have hsem : 3 * min 2 (appendNats [] 2 1).level ≤ 6 := by decide
  have hall := (append_life_iff (appendNats [] 2 1) (by decide) (by decide) (by decide) hsem true
    [.rescan, .exec, .exec, .exec]).1.mpr hcond
  exact hall [[1], [2]] rfl _ _ (exec_taken _ rescanFirst _) (by decide +kernel) (by decide +kernel)

/-- After one tuple and a rescan the first tuple does not come again, and a node that was
never executed has no parallel state to end. -/
theorem rescanLater_misses_row : (Run.exec (appendLifeStep true (appendNats [[1], [2]] 2 1))
        (AppendLife.init (appendNats [[1], [2]] 2 1) 6)
        (Run.taken (appendLifeStep true (appendNats [[1], [2]] 2 1))
          (AppendLife.init (appendNats [[1], [2]] 2 1) 6) rescanLater) =
      some (appendLife rescanLater) ∧
      (appendLife rescanLater).log =
        [.slot (some 1), .rescanned, .slot (some 2), .slot none, .slot none] ∧
      ¬ RescansWell [1, 2] (appendLife rescanLater).log) ∧
    ∀ prlSql, ∃ t : AppendLife Nat, Run.exec (appendLifeStep prlSql (appendNats [[1], [2]] 2 1))
        (AppendLife.init (appendNats [[1], [2]] 2 1) 6) [] = some t ∧ t.execEndAppend = none := by
  have hlog : (appendLife rescanLater).log =
      [.slot (some 1), .rescanned, .slot (some 2), .slot none, .slot none] := by
    decide +kernel
  refine ⟨⟨exec_taken _ _ _, hlog, fun hwell => ?_⟩, fun _ => ⟨_, rfl, rfl⟩⟩
  have hperm := hwell [.slot (some 1)] [2] [.slot none] hlog
  simpa using hperm.length_eq

end PrlPg
