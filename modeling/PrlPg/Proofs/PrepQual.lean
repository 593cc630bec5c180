/-
What `canonicalize_qual` keeps and what it brings about.

Both passes are followed by one predicate, `Canonical`: every AND and OR has an argument and
none of its own kind directly below it, and a NOT is only above a clause that has no rule for
pushing it further.  `find_nots` turns any tree whose ANDs and ORs have arguments into a
canonical one, whether it was flat or not, because it flattens what it rebuilds;
`find_duplicate_ors` keeps the tree canonical, and never turns something that is no OR into an
OR, which is why the source needs no `pull_ors` there.

The truth value is followed through the two laws the passes apply: De Morgan's, and taking
the common conditions out of a disjunction (`disj_factor`).  The second law covers the
degenerate case too: an arm of which nothing is left is the empty conjunction, which is true.
-/
import PrlPg.Optimizer.PrepQual

namespace PrlPg.PrepQual

open PrlPg.Expr List ThreeValued Bool

variable {V : Type*}

/-! ### Shapes -/

/-- Every AND and OR of the boolean structure has an argument. -/
inductive Armed : Expr V → Prop
  | boolExpr {op : BoolExprType} {args : List (Expr V)} (hne : args ≠ [])
      (hargs : ∀ e ∈ args, Armed e) : Armed (.boolExpr op args)
  | not {arg : Expr V} (harg : Armed arg) : Armed (.not arg)
  | leaf {e : Expr V} (h : e.isConnective = false) : Armed e

/-- No AND is directly below an AND, and no OR directly below an OR. -/
inductive Flat : Expr V → Prop
  | boolExpr {op : BoolExprType} {args : List (Expr V)} (hargs : ∀ e ∈ args, Flat e)
      (hop : ∀ e ∈ args, e.boolop? ≠ some op) : Flat (.boolExpr op args)
  | not {arg : Expr V} (harg : Flat arg) : Flat (.not arg)
  | leaf {e : Expr V} (h : e.isConnective = false) : Flat e

/-- There is no rule for the negation of the clause. -/
def NoRule (negator : Oid → Option Oid) : Expr V → Prop
  | .opExpr opno _ => negator opno = none
  | .scalarArrayOp opno _ _ _ => negator opno = none
  | e => e.isConnective = false

/-- A NOT is only above clauses that have no rule. -/
inductive NotsPushed (negator : Oid → Option Oid) : Expr V → Prop
  | boolExpr {op : BoolExprType} {args : List (Expr V)}
      (hargs : ∀ e ∈ args, NotsPushed negator e) : NotsPushed negator (.boolExpr op args)
  | not {arg : Expr V} (h : NoRule negator arg) : NotsPushed negator (.not arg)
  | leaf {e : Expr V} (h : e.isConnective = false) : NotsPushed negator e

/-- A qualification: an expression whose ANDs and ORs have arguments. -/
structure Qual (V : Type*) where
  expr : Expr V
  armed : Armed expr

/-- All three at once, with nothing but a clause without a rule below a NOT. -/
inductive Canonical (negator : Oid → Option Oid) : Expr V → Prop
  | boolExpr {op : BoolExprType} {args : List (Expr V)} (hne : args ≠ [])
      (hargs : ∀ e ∈ args, Canonical negator e) (hop : ∀ e ∈ args, e.boolop? ≠ some op) :
      Canonical negator (.boolExpr op args)
  | not {arg : Expr V} (h : NoRule negator arg) : Canonical negator (.not arg)
  | leaf {e : Expr V} (h : e.isConnective = false) : Canonical negator e

section Shapes

variable {negator : Oid → Option Oid} {e : Expr V}

theorem NoRule.isConnective (h : NoRule negator e) : e.isConnective = false := by
  cases e <;> first | rfl | exact h

section

variable (h : Canonical negator e)
include h

theorem Canonical.armed : Armed e := by
  induction h with
  | boolExpr hne hargs hop ih => exact .boolExpr hne ih
  | not h => exact .not (.leaf h.isConnective)
  | leaf h => exact .leaf h

theorem Canonical.flat : Flat e := by
  induction h with
  | boolExpr hne hargs hop ih => exact .boolExpr ih hop
  | not h => exact .not (.leaf h.isConnective)
  | leaf h => exact .leaf h

theorem Canonical.notsPushed : NotsPushed negator e := by
  induction h with
  | boolExpr hne hargs hop ih => exact .boolExpr ih
  | not h => exact .not h
  | leaf h => exact .leaf h

end

end Shapes

/-! ### Flattening -/

variable {l : List (Expr V)}

section Flattening

variable {op : BoolExprType} {negator : Oid → Option Oid}

theorem exists_of_boolop? {e : Expr V} (h : e.boolop? = some op) :
    ∃ args, e = .boolExpr op args := by
  cases e <;> cases h
  exact ⟨_, rfl⟩

theorem pullArg_of_ne {e : Expr V} (h : e.boolop? ≠ some op) : pullArg op e = [e] := by
  cases e <;> try rfl
  rw [pullArg, if_neg]
  intro heq
  exact h (congrArg some heq)

theorem pullArgs_of_ne (h : ∀ e ∈ l, e.boolop? ≠ some op) : pullArgs op l = l := by
  induction l with
  | nil => rfl
  | cons e l ih =>
    rw [pullArgs, pullArg_of_ne (h e mem_cons_self), ih fun x hx => h x (mem_cons_of_mem e hx)]
    rfl

/-- One level of flattening is enough for an argument that is flat itself. -/
theorem pullArg_canonical {e : Expr V} (h : Canonical negator e) :
    pullArg op e ≠ [] ∧ ∀ x ∈ pullArg op e, Canonical negator x ∧ x.boolop? ≠ some op := by
  by_cases hop : e.boolop? = some op
  · obtain ⟨args, rfl⟩ := exists_of_boolop? hop
    cases h with
    | boolExpr hne hargs hops =>
      rw [pullArg, if_pos rfl, pullArgs_of_ne hops]
      exact ⟨hne, fun x hx => ⟨hargs x hx, hops x hx⟩⟩
    | leaf h => cases h
  rw [pullArg_of_ne hop]
  refine ⟨cons_ne_nil e [], fun x hx => ?_⟩
  cases mem_singleton.mp hx
  exact ⟨h, hop⟩

theorem pullArgs_canonical (h : ∀ e ∈ l, Canonical negator e) :
    ∀ x ∈ pullArgs op l, Canonical negator x ∧ x.boolop? ≠ some op := by
  induction l with
  | nil =>
    intro x hx
    cases hx
  | cons e l ih =>
    intro x hx
    rw [pullArgs, mem_append] at hx
    rcases hx with hx | hx
    · exact (pullArg_canonical (h e mem_cons_self)).2 x hx
    · exact ih (fun y hy => h y (mem_cons_of_mem e hy)) x hx

theorem canonical_pullArgs (hne : l ≠ []) (h : ∀ e ∈ l, Canonical negator e) :
    Canonical negator (.boolExpr op (pullArgs op l)) := by
  refine .boolExpr ?_ (fun x hx => (pullArgs_canonical h x hx).1)
    fun x hx => (pullArgs_canonical h x hx).2
  obtain ⟨e, l', rfl⟩ := exists_cons_of_ne_nil hne
  exact append_ne_nil_of_left_ne_nil (pullArg_canonical (h e mem_cons_self)).1 _

variable (I : Interp V) (row : Nat → Option V)

mutual

theorem combine_pullArgs (op : BoolExprType) : ∀ l : List (Expr V),
    op.combine ((pullArgs op l).map (truth I row)) = op.combine (l.map (truth I row))
  | [] => rfl
  | e :: l => by
    rw [pullArgs, map_append, BoolExprType.combine_append, combine_pullArg op e,
      combine_pullArgs op l, map_cons,
      BoolExprType.combine_cons op _ (l.map (truth I row))]

theorem combine_pullArg (op : BoolExprType) : ∀ e : Expr V,
    op.combine ((pullArg op e).map (truth I row)) = truth I row e
  | .boolExpr op' args => by
    rw [pullArg]
    split_ifs with h
    · rw [combine_pullArgs op args, truth_boolExpr, h]
    · exact BoolExprType.combine_singleton op _
  | .var _ | .const _ | .opExpr _ _ | .funcExpr _ _ | .scalarArrayOp _ _ _ _
  | .arrayExpr _ _ | .not _ | .nullTest _ _ _ | .booleanTest _ _ | .relabelType _
  | .restrictInfo _ => BoolExprType.combine_singleton op _

end

theorem truth_pullArgs (l : List (Expr V)) :
    truth I row (.boolExpr op (pullArgs op l)) = op.combine (l.map (truth I row)) := by
  rw [truth_boolExpr, combine_pullArgs]

end Flattening

/-! ### NOTs -/

section Nots

variable {negator : Oid → Option Oid}

theorem findNotsList_eq_map (l : List (Expr V)) :
    findNotsList negator l = l.map (findNots negator) := by
  induction l with
  | nil => rfl
  | cons e l ih => rw [findNotsList, ih, map_cons]

theorem pushNotsList_eq_map (l : List (Expr V)) :
    pushNotsList negator l = l.map (pushNots negator) := by
  induction l with
  | nil => rfl
  | cons e l ih => rw [pushNotsList, ih, map_cons]

theorem findNots_boolExpr (op : BoolExprType) (args : List (Expr V)) :
    findNots negator (.boolExpr op args)
      = .boolExpr op (pullArgs op (args.map (findNots negator))) := by
  cases op with
  | and => rw [findNots, pullAnds, findNotsList_eq_map]
  | or => rw [findNots, pullOrs, findNotsList_eq_map]

theorem pushNots_boolExpr (op : BoolExprType) (args : List (Expr V)) :
    pushNots negator (.boolExpr op args)
      = .boolExpr op.dual (pullArgs op.dual (args.map (pushNots negator))) := by
  cases op with
  | and =>
    rw [pushNots, pushNotsList_eq_map]
    rfl
  | or =>
    rw [pushNots, pushNotsList_eq_map]
    rfl

theorem findNots_leaf {e : Expr V} (h : e.isConnective = false) : findNots negator e = e := by
  cases e <;> first | rfl | cases h

variable (negator) in
/-- What becomes of the negation of a clause: another clause, or a NOT where no rule is. -/
theorem pushNots_leaf {e : Expr V} (h : e.isConnective = false) :
    (∃ opno neg' args, e = .opExpr opno args ∧ negator opno = some neg' ∧
        pushNots negator e = .opExpr neg' args) ∨
    (∃ opno neg' useOr scalar array, e = .scalarArrayOp opno useOr scalar array ∧
        negator opno = some neg' ∧
        pushNots negator e = .scalarArrayOp neg' (!useOr) scalar array) ∨
    (NoRule negator e ∧ pushNots negator e = .not e) := by
  cases e with
  | opExpr opno args =>
    rw [pushNots]
    cases hneg : negator opno with
    | none => exact .inr (.inr ⟨hneg, rfl⟩)
    | some neg' => exact .inl ⟨opno, neg', args, rfl, hneg, rfl⟩
  | scalarArrayOp opno useOr scalar array =>
    rw [pushNots]
    cases hneg : negator opno with
    | none => exact .inr (.inr ⟨hneg, rfl⟩)
    | some neg' => exact .inr (.inl ⟨opno, neg', useOr, scalar, array, rfl, hneg, rfl⟩)
  | boolExpr op args => cases h
  | not arg => cases h
  | _ => exact .inr (.inr ⟨rfl, rfl⟩)

variable (negator) in
theorem canonical_findNots_pushNots {e : Expr V} (h : Armed e) :
    Canonical negator (findNots negator e) ∧ Canonical negator (pushNots negator e) := by
  induction h with
  | boolExpr hne hargs ih =>
    rw [findNots_boolExpr, pushNots_boolExpr]
    refine ⟨canonical_pullArgs (by simpa using hne) ?_, canonical_pullArgs (by simpa using hne) ?_⟩
    · rw [forall_mem_map]
      exact fun e he => (ih e he).1
    · rw [forall_mem_map]
      exact fun e he => (ih e he).2
  | not harg ih => exact ⟨ih.2, ih.1⟩
  | leaf h =>
    rw [findNots_leaf h]
    refine ⟨.leaf h, ?_⟩
    rcases pushNots_leaf negator h with
      ⟨_, _, _, _, _, heq⟩ | ⟨_, _, _, _, _, _, _, heq⟩ | ⟨hno, heq⟩
    · rw [heq]
      exact .leaf rfl
    · rw [heq]
      exact .leaf rfl
    · rw [heq]
      exact .not hno

variable {I : Interp V}

/-- `NOT (x op ANY a)` is `x nop ALL a`, and the other way round. -/
theorem saopTruth_negator (hneg : NegatorsRight I negator) {opno neg' : Oid}
    (h : negator opno = some neg') (useOr : Bool) (scalar array : Option V) :
    saopTruth I neg' (!useOr) scalar array = neg (saopTruth I opno useOr scalar array) := by
  cases array with
  | none => rfl
  | some a =>
    simp only [saopTruth, Option.bind_some, hneg opno neg' h]
    cases useOr with
    | true => exact neg_disj.symm
    | false => exact neg_conj.symm

theorem truth_findNots_pushNots (hneg : NegatorsRight I negator) (row : Nat → Option V)
    {e : Expr V} (h : Armed e) :
    truth I row (findNots negator e) = truth I row e ∧
      truth I row (pushNots negator e) = neg (truth I row e) := by
  induction h with
  | @boolExpr op args hne hargs ih =>
    rw [findNots_boolExpr, pushNots_boolExpr, truth_pullArgs, truth_pullArgs, truth_boolExpr,
      BoolExprType.neg_combine, map_map, map_map]
    constructor
    · exact congrArg op.combine (map_congr_left fun e he => (ih e he).1)
    · exact congrArg op.dual.combine (map_congr_left fun e he => (ih e he).2)
  | not harg ih =>
    rw [truth_not, neg_neg]
    exact ⟨ih.2, ih.1⟩
  | leaf h =>
    rw [findNots_leaf h]
    refine ⟨rfl, ?_⟩
    rcases pushNots_leaf negator h with
      ⟨opno, neg', args, rfl, hop, heq⟩ | ⟨opno, neg', useOr, scalar, array, rfl, hop, heq⟩ |
      ⟨-, heq⟩
    · rw [heq, truth_opExpr, truth_opExpr, hneg opno neg' hop]
    · rw [heq, truth_scalarArrayOp, truth_scalarArrayOp, saopTruth_negator hneg hop]
    · rw [heq, truth_not]

end Nots

/-! ### Arms -/

variable {c : Expr V} {l' : List (Expr V)}

section Arms

variable {negator : Oid → Option Oid}

/-- The conditions of an arm. -/
def armArgs : Expr V → List (Expr V)
  | .and args => args
  | clause => [clause]

theorem armArgs_of_ne (h : c.boolop? ≠ some .and) : armArgs c = [c] := by
  cases c with
  | boolExpr op args =>
    cases op with
    | and => cases h rfl
    | or => rfl
  | _ => rfl

theorem truth_armArgs (I : Interp V) (row : Nat → Option V) (c : Expr V) :
    truth I row c = conj ((armArgs c).map (truth I row)) := by
  by_cases h : c.boolop? = some .and
  · obtain ⟨args, rfl⟩ := exists_of_boolop? h
    exact truth_boolExpr I row .and args
  · rw [armArgs_of_ne h]
    exact (conj_singleton _).symm

/-- A condition of a canonical arm is canonical and no AND. -/
theorem armArgs_canonical (h : Canonical negator c) :
    ∀ x ∈ armArgs c, Canonical negator x ∧ x.boolop? ≠ some .and := by
  intro x hx
  by_cases hc : c.boolop? = some .and
  · obtain ⟨args, rfl⟩ := exists_of_boolop? hc
    cases h with
    | boolExpr hne hargs hop => exact ⟨hargs x hx, hop x hx⟩
    | leaf h => cases h
  rw [armArgs_of_ne hc] at hx
  cases mem_singleton.mp hx
  exact ⟨h, hc⟩

/-- An AND, or the condition itself if it is the only one. -/
def bundle : List (Expr V) → Expr V
  | [e] => e
  | l => .and l

theorem truth_bundle (I : Interp V) (row : Nat → Option V) (l : List (Expr V)) :
    truth I row (bundle l) = conj (l.map (truth I row)) := by
  rcases l with - | ⟨e, - | ⟨e', l⟩⟩
  · exact truth_boolExpr I row .and []
  · exact (conj_singleton _).symm
  · exact truth_boolExpr I row .and (e :: e' :: l)

theorem canonical_bundle (hne : l ≠ []) (h : ∀ e ∈ l, Canonical negator e ∧ e.boolop? ≠ some .and) :
    Canonical negator (bundle l) := by
  rcases l with - | ⟨e, - | ⟨e', l⟩⟩
  · cases hne rfl
  · exact (h e mem_cons_self).1
  · exact .boolExpr hne (fun x hx => (h x hx).1) fun x hx => (h x hx).2

theorem truth_joinWinners (I : Interp V) (row : Nat → Option V) (winners : List (Expr V)) :
    truth I row (joinWinners winners) = conj (winners.map (truth I row)) := by
  rcases winners with - | ⟨e, - | ⟨e', l⟩⟩
  · exact truth_boolExpr I row .and []
  · exact (conj_singleton _).symm
  · exact truth_pullArgs I row (e :: e' :: l)

theorem canonical_joinWinners {winners : List (Expr V)} (hne : winners ≠ [])
    (h : ∀ e ∈ winners, Canonical negator e) : Canonical negator (joinWinners winners) := by
  rcases winners with - | ⟨e, - | ⟨e', l⟩⟩
  · cases hne rfl
  · exact h e mem_cons_self
  · exact canonical_pullArgs hne h

/-- What is appended to the winners has the truth value of the reduced OR. -/
theorem appendReduced_eq (winners : List (Expr V)) {neworlist : List (Expr V)}
    (hne : neworlist ≠ []) (h : ∀ e ∈ neworlist, Canonical negator e) :
    ∃ e, appendReduced winners neworlist = winners ++ [e] ∧ Canonical negator e ∧
      ∀ I row, truth I row e = disj (neworlist.map (truth I row)) := by
  rcases neworlist with - | ⟨e, - | ⟨e', l⟩⟩
  · cases hne rfl
  · exact ⟨e, rfl, h e mem_cons_self, fun I row => (disj_singleton _).symm⟩
  · exact ⟨_, rfl, canonical_pullArgs hne h, fun I row => truth_pullArgs I row (e :: e' :: l)⟩

/-- What `find_duplicate_ors` makes of an expression. -/
structure Factored (negator : Oid → Option Oid) (e e' : Expr V) : Prop where
  canonical : Canonical negator e'
  truth_eq : ∀ (I : Interp V) row, truth I row e' = truth I row e
  /-- It introduces no OR where there was none. -/
  noOr : e.boolop? ≠ some .or → e'.boolop? ≠ some .or

theorem Factored.map_truth (h : Forall₂ (Factored negator) l l') (I : Interp V)
    (row : Nat → Option V) : l'.map (truth I row) = l.map (truth I row) := by
  induction h with
  | nil => rfl
  | cons hfact _ ih => rw [map_cons, map_cons, hfact.truth_eq, ih]

theorem Factored.exists_of_mem (h : Forall₂ (Factored negator) l l') {x : Expr V}
    (hx : x ∈ l') : ∃ e ∈ l, Factored negator e x := by
  induction h with
  | nil => cases hx
  | @cons e e' l l' hfact _ ih =>
    rcases mem_cons.mp hx with rfl | hx
    · exact ⟨e, mem_cons_self, hfact⟩
    · obtain ⟨d, hd, hdfact⟩ := ih hx
      exact ⟨d, mem_cons_of_mem e hd, hdfact⟩

end Arms

/-! ### Duplicate ORs -/

variable {arms : List (Expr V)}

section Duplicates

variable [DecidableEq V] {negator : Oid → Option Oid}

theorem listMember_iff {e : Expr V} : listMember l e = true ↔ e ∈ l := by
  rw [listMember, any_eq_true]
  constructor
  · rintro ⟨x, hx, heq⟩
    rwa [← equal_iff.mp heq]
  · intro h
    exact ⟨e, h, equal_self e⟩

theorem inArm_iff {refclause : Expr V} : inArm refclause c = true ↔ refclause ∈ armArgs c := by
  by_cases hc : c.boolop? = some .and
  · obtain ⟨args, rfl⟩ := exists_of_boolop? hc
    exact listMember_iff
  rw [armArgs_of_ne hc, mem_singleton]
  cases c with
  | boolExpr op args =>
    cases op with
    | and => cases hc rfl
    | or => exact equal_iff
  | _ => exact equal_iff

theorem mem_listDifference {e : Expr V} : e ∈ listDifference l l' ↔ e ∈ l ∧ e ∉ l' := by
  rw [listDifference, mem_filter, not_eq_true', ← not_eq_true, listMember_iff]

/-- What is left of an arm without the winners. -/
def residual (winners : List (Expr V)) (c : Expr V) : List (Expr V) :=
  listDifference (armArgs c) winners

/-- One arm: nothing is left of it, and the loop stops with nothing, or the rest is kept. -/
theorem reduceArms_cons (winners : List (Expr V)) (c : Expr V) (rest neworlist : List (Expr V)) :
    reduceArms winners (c :: rest) neworlist = if residual winners c = [] then []
        else reduceArms winners rest (neworlist ++ [bundle (residual winners c)]) := by
  by_cases hc : c.boolop? = some .and
  · obtain ⟨args, rfl⟩ := exists_of_boolop? hc
    have hres : residual winners (Expr.and args) = listDifference args winners := rfl
    rw [reduceArms, hres]
    rcases listDifference args winners with - | ⟨e, - | ⟨e', l⟩⟩
    · rfl
    · rfl
    · rfl
  have hres : residual winners c = if !listMember winners c then [c] else [] := by
    rw [residual, armArgs_of_ne hc, listDifference, filter_singleton, cond_eq_ite]
  have hstep : reduceArms winners (c :: rest) neworlist
      = if !listMember winners c then reduceArms winners rest (neworlist ++ [c]) else [] := by
    cases c with
    | boolExpr op args =>
      cases op with
      | and => cases hc rfl
      | or => rfl
    | _ => rfl
  rw [hstep, hres]
  by_cases hm : (!listMember winners c) = true
  · rw [if_pos hm, if_pos hm]
    rfl
  · rw [if_neg hm, if_neg hm, if_pos rfl]

/-- The whole loop. -/
theorem reduceArms_spec (winners arms neworlist : List (Expr V)) :
    ((∃ c ∈ arms, residual winners c = []) ∧ reduceArms winners arms neworlist = []) ∨
    ((∀ c ∈ arms, residual winners c ≠ []) ∧ reduceArms winners arms neworlist
      = neworlist ++ arms.map fun c => bundle (residual winners c)) := by
  induction arms generalizing neworlist with
  | nil =>
    refine .inr ⟨fun c hc => absurd hc not_mem_nil, ?_⟩
    rw [reduceArms, map_nil, append_nil]
  | cons c rest ih =>
    rw [reduceArms_cons]
    split_ifs with hres
    · exact .inl ⟨⟨c, mem_cons_self, hres⟩, rfl⟩
    rcases ih (neworlist ++ [bundle (residual winners c)]) with
      ⟨⟨d, hd, hdres⟩, heq⟩ | ⟨hall, heq⟩
    · exact .inl ⟨⟨d, mem_cons_of_mem c hd, hdres⟩, heq⟩
    · refine .inr ⟨forall_mem_cons.mpr ⟨hres, hall⟩, ?_⟩
      rw [heq, map_cons, append_assoc, singleton_append]

theorem findWinners_mem {w : Expr V} (hw : w ∈ findWinners arms) (hc : c ∈ arms) :
    w ∈ armArgs c := by
  have hall := (mem_filter.mp hw).2
  exact inArm_iff.mp (all_eq_true.mp hall c hc)

/-- The winners and what is left are all the conditions of an arm. -/
theorem mem_armArgs_split (hc : c ∈ arms) (x : Expr V) :
    x ∈ armArgs c ↔ x ∈ findWinners arms ∨ x ∈ residual (findWinners arms) c := by
  rw [residual, mem_listDifference]
  constructor
  · intro hx
    by_cases hw : x ∈ findWinners arms
    · exact .inl hw
    · exact .inr ⟨hx, hw⟩
  rintro (hw | ⟨hx, -⟩)
  · exact findWinners_mem hw hc
  · exact hx

/-- The law as applied: the AND of the winners and of the OR of what is left. -/
theorem joinWinners_spec (hwin : findWinners arms ≠ []) (hne : arms ≠ [])
    (h : ∀ c ∈ arms, Canonical negator c) :
    let e := joinWinners (appendReduced (findWinners arms) (reduceArms (findWinners arms) arms []))
    Canonical negator e ∧ ∀ I row, truth I row e = disj (arms.map (truth I row)) := by
  obtain ⟨c₀, hc₀⟩ := exists_mem_of_ne_nil arms hne
  have hwc : ∀ w ∈ findWinners arms, Canonical negator w := fun w hw =>
    (armArgs_canonical (h c₀ hc₀) w (findWinners_mem hw hc₀)).1
  have hlaw : ∀ (I : Interp V) row, disj (arms.map (truth I row))
      = conj [conj ((findWinners arms).map (truth I row)),
        disj (arms.map fun c => conj ((residual (findWinners arms) c).map (truth I row)))] := by
    intro I row
    rw [← disj_factor fun c hc => mem_armArgs_split hc]
    exact congrArg disj (map_congr_left fun c _ => truth_armArgs I row c)
  rcases reduceArms_spec (findWinners arms) arms [] with ⟨⟨c, hc, hnil⟩, heq⟩ | ⟨hall, heq⟩
  · -- an arm of which nothing is left makes the reduced OR true
    rw [heq]
    refine ⟨canonical_joinWinners hwin hwc, fun I row => ?_⟩
    have htrue : disj (arms.map fun c => conj ((residual (findWinners arms) c).map (truth I row)))
        = some true := by
      rw [disj_map_eq_true]
      refine ⟨c, hc, ?_⟩
      rw [hnil]
      rfl
    rw [hlaw, htrue, conj_true_right]
    exact truth_joinWinners I row _
  rw [heq, nil_append]
  have hres : ∀ e ∈ arms.map fun c => bundle (residual (findWinners arms) c),
      Canonical negator e := by
    rw [forall_mem_map]
    intro c hc
    exact canonical_bundle (hall c hc) fun x hx =>
      armArgs_canonical (h c hc) x (mem_listDifference.mp hx).1
  obtain ⟨e, hadd, hcanon, htruth⟩ := appendReduced_eq (findWinners arms) (by simpa using hne) hres
  rw [hadd]
  constructor
  · refine canonical_joinWinners (by simp) fun x hx => ?_
    rcases mem_append.mp hx with hx | hx
    · exact hwc x hx
    · rw [mem_singleton.mp hx]
      exact hcanon
  intro I row
  rw [truth_joinWinners, map_append, conj_append, map_singleton, conj_singleton,
    htruth, hlaw, map_map]
  simp only [Function.comp_def, truth_bundle]

/-- `process_duplicate_ors` on arms that are no ORs. -/
theorem processDuplicateOrs_spec (hne : arms ≠ []) (h : ∀ c ∈ arms, Canonical negator c)
    (hop : ∀ c ∈ arms, c.boolop? ≠ some .or) :
    ∃ e, processDuplicateOrs arms = some e ∧ Canonical negator e ∧
      ∀ I row, truth I row e = disj (arms.map (truth I row)) := by
  rcases arms with - | ⟨e, - | ⟨e', l⟩⟩
  · cases hne rfl
  · exact ⟨e, rfl, h e mem_cons_self, fun I row => (disj_singleton _).symm⟩
  by_cases hwin : findWinners (e :: e' :: l) = []
  · refine ⟨.or (e :: e' :: l), ?_, .boolExpr hne h hop, fun I row => truth_boolExpr I row _ _⟩
    simp only [processDuplicateOrs, hwin, isEmpty_nil, if_true]
  obtain ⟨hcanon, htruth⟩ := joinWinners_spec hwin hne h
  refine ⟨_, ?_, hcanon, htruth⟩
  simp only [processDuplicateOrs, isEmpty_eq_false_iff.mpr hwin, false_eq_true, if_false]

theorem findDuplicateOrsList_spec (h : ∀ e ∈ l, ∃ e', findDuplicateOrs e = some e' ∧ Factored negator e e') :
    ∃ l', findDuplicateOrsList l = some l' ∧ Forall₂ (Factored negator) l l' := by
  induction l with
  | nil => exact ⟨[], rfl, .nil⟩
  | cons e l ih =>
    obtain ⟨e', he, hfact⟩ := h e mem_cons_self
    obtain ⟨l', hl, hfacts⟩ := ih fun x hx => h x (mem_cons_of_mem e hx)
    refine ⟨e' :: l', ?_, .cons hfact hfacts⟩
    rw [findDuplicateOrsList, he, hl]

theorem findDuplicateOrs_spec {e : Expr V} (h : Canonical negator e) :
    ∃ e', findDuplicateOrs e = some e' ∧ Factored negator e e' := by
  induction h with
  | @boolExpr op args hne hargs hop ih =>
    obtain ⟨l', hl, hfacts⟩ := findDuplicateOrsList_spec ih
    have hne' : l' ≠ [] := by
      rintro rfl
      cases hfacts
      exact hne rfl
    have hcanon : ∀ x ∈ l', Canonical negator x := by
      intro x hx
      obtain ⟨e, -, hfact⟩ := Factored.exists_of_mem hfacts hx
      exact hfact.canonical
    cases op with
    | and =>
      refine ⟨.and (pullAnds l'), by rw [findDuplicateOrs, hl]; rfl, ?_, ?_, ?_⟩
      · exact canonical_pullArgs hne' hcanon
      · intro I row
        rw [pullAnds, truth_pullArgs, truth_boolExpr, Factored.map_truth hfacts]
      · intro _ h
        cases h
    | or =>
      have hop' : ∀ x ∈ l', x.boolop? ≠ some .or := by
        intro x hx
        obtain ⟨e, he, hfact⟩ := Factored.exists_of_mem hfacts hx
        exact hfact.noOr (hop e he)
      obtain ⟨e, heq, hcanon', htruth⟩ := processDuplicateOrs_spec hne' hcanon hop'
      refine ⟨e, by rw [findDuplicateOrs, hl]; exact heq, hcanon', ?_, ?_⟩
      · intro I row
        rw [htruth, truth_boolExpr, Factored.map_truth hfacts]
        rfl
      · exact fun h => absurd rfl h
  | not h => exact ⟨_, rfl, .not h, fun _ _ => rfl, id⟩
  | @leaf e h =>
    refine ⟨e, ?_, .leaf h, fun _ _ => rfl, id⟩
    cases e <;> first | rfl | cases h

end Duplicates

/-! ### The whole -/

/-- `canonicalize_qual` returns a qualification with the same truth value in every row, in
which no AND is directly below an AND, no OR directly below an OR, and every NOT is above a
clause that has no rule.  It does so whether or not its argument was flat. -/
theorem canonicalizeQual_preserves [DecidableEq V] (negator : Oid → Option Oid) (qual : Qual V) :
    ∃ newqual : Qual V, canonicalizeQual negator (some qual.expr) = some newqual.expr ∧
      (∀ I : Interp V, NegatorsRight I negator → ∀ row,
        truth I row newqual.expr = truth I row qual.expr) ∧
      Flat newqual.expr ∧ NotsPushed negator newqual.expr := by
  have hnots := (canonical_findNots_pushNots negator qual.armed).1
  obtain ⟨e, heq, hfact⟩ := findDuplicateOrs_spec hnots
  refine ⟨⟨e, hfact.canonical.armed⟩, heq, ?_, hfact.canonical.flat, hfact.canonical.notsPushed⟩
  intro I hneg row
  rw [hfact.truth_eq]
  exact (truth_findNots_pushNots hneg row qual.armed).1

/-- Operator 0 is `<` and operator 1 its negator `>=`; operator 2 is `=` and has none. -/
def compareNat (opno : Oid) (a b : Nat) : Bool :=
  if opno = 0 then a < b else if opno = 1 then b ≤ a else a = b

def negatorNat (opno : Oid) : Option Oid :=
  if opno = 0 then some 1 else if opno = 1 then some 0 else none

theorem negatorNat_right : NegatorsRight (Interp.ofNat compareNat) negatorNat := by
  refine Interp.negatorsRight_ofNat ?_
  intro opno neg' h a b
  unfold negatorNat at h
  split at h
  next h0 =>
    cases h
    simp [compareNat, h0, ← decide_not]
  · split at h
    next h1 =>
      cases h
      simp [compareNat, h1, ← decide_not]
    · cases h

/-- `(x < y AND p) OR NOT (x >= y OR y = z)`. -/
def lessQual : Qual Nat where
  expr := .or [.and [.opExpr 0 [.var 0, .var 1], .var 3],
    .not (.or [.opExpr 1 [.var 0, .var 1], .opExpr 2 [.var 1, .var 2]])]
  armed := by
    refine .boolExpr (by simp) ?_
    simp only [List.forall_mem_cons]
    refine ⟨.boolExpr (by simp) ?_, .not (.boolExpr (by simp) ?_), by simp⟩
    · simp only [List.forall_mem_cons]
      exact ⟨.leaf rfl, .leaf rfl, by simp⟩
    · simp only [List.forall_mem_cons]
      exact ⟨.leaf rfl, .leaf rfl, by simp⟩

/-- The NOT goes down to the `=`, and `x < y` comes out of both arms:
`x < y AND (p OR NOT (y = z))`. -/
theorem canonicalizeQual_preserves_less : ∃ newqual : Qual Nat,
    newqual.expr = .and [.opExpr 0 [.var 0, .var 1],
      .or [.var 3, .not (.opExpr 2 [.var 1, .var 2])]] ∧
    canonicalizeQual negatorNat (some lessQual.expr) = some newqual.expr ∧
    (∀ row, truth (Interp.ofNat compareNat) row newqual.expr
      = truth (Interp.ofNat compareNat) row lessQual.expr) ∧
    Flat newqual.expr ∧ NotsPushed negatorNat newqual.expr := by
  obtain ⟨newqual, heq, htruth, hflat, hnots⟩ := canonicalizeQual_preserves negatorNat lessQual
  refine ⟨newqual, ?_, heq, htruth _ negatorNat_right, hflat, hnots⟩
  have hrun : canonicalizeQual negatorNat (some lessQual.expr)
      = some (.and [.opExpr 0 [.var 0, .var 1],
        .or [.var 3, .not (.opExpr 2 [.var 1, .var 2])]]) := rfl
  exact Option.some.inj (heq.symm.trans hrun)

end PrlPg.PrepQual
