/-
Predicate proofs are sound.

`Proves I b clause predicate` says that wherever the clause is true the predicate has the
truth value `b`: implication is `b = true`, refutation `b = false`.  The nine combinations of
AND, OR and atom in each of the two recursions use only four rules of it, one for each way of
going into the components of one side.  They hold for array clauses as they do for ANDs and
ORs, because `predicate_classify` gives components with the same truth value
(`truth_classify`), and for empty ones as well.

For the atoms, what the operators of a btree family do is said by a total order on the values
that are not null.  The two tables are then a statement about three values in such an order,
of which there are finitely many arrangements (`testStrategy_sound`).
-/
import PrlPg.Optimizer.PredTest

namespace PrlPg.PredTest

open PrlPg.Expr List ThreeValued Bool

variable {V : Type*}

/-! ### What is assumed of the catalog -/

/-- A total order, in which different values may be equal. -/
structure TotalOrder (le : V → V → Bool) : Prop where
  total : ∀ a b, le a b = true ∨ le b a = true
  trans : ∀ a b c, le a b = true → le b c = true → le a c = true

/-- The outcome of a comparison, from whether `a ≤ b` and whether `b ≤ a`. -/
def outcome (strategy : Nat) (ab ba : Bool) : Bool :=
  if strategy = btLT then !ba
  else if strategy = btLE then ab
  else if strategy = btEQ then ab && ba
  else if strategy = btGE then ba
  else if strategy = btGT then !ab
  else if strategy = btNE then !(ab && ba)
  else false

/-- The comparison with a strategy number. -/
def compareBy (le : V → V → Bool) (strategy : Nat) (a b : V) : Bool :=
  outcome strategy (le a b) (le b a)

/-- The operator is the comparison with a strategy number, and null for a null argument. -/
def Compares (I : Interp V) (le : V → V → Bool) (strategy : Nat) (opno : Oid) : Prop :=
  ∀ a b, (I.op opno [a, b]).map I.isTrue = a.bind fun a => b.map (compareBy le strategy a)

/-- The operators of a family are the comparisons of one order. -/
structure FamilyOrder (cat : Catalog) (I : Interp V) (opfamily : Oid) (le : V → V → Bool) :
    Prop where
  order : TotalOrder le
  strategy : ∀ form ∈ cat.amop, form.amopfamily = opfamily →
    1 ≤ form.amopstrategy ∧ form.amopstrategy ≤ 5
  compares : ∀ form ∈ cat.amop, form.amopfamily = opfamily →
    Compares I le form.amopstrategy form.amopopr

/-- What the catalog says about operators and functions is right. -/
structure CatalogRight (cat : Catalog) (I : Interp V) : Prop where
  negator : NegatorsRight I cat.getNegator
  commutator : ∀ opno comm, cat.getCommutator opno = some comm → ∀ a b,
    (I.op comm [a, b]).map I.isTrue = (I.op opno [b, a]).map I.isTrue
  opStrict : ∀ opno, cat.opStrict opno = true → ∀ args, none ∈ args → I.op opno args = none
  funcStrict : ∀ funcid, cat.funcStrict funcid = true → ∀ args, none ∈ args →
    I.func funcid args = none
  btree : ∀ form ∈ cat.amop, form.isBtree = true → ∃ le, FamilyOrder cat I form.amopfamily le

/-! ### The tables -/

variable {refuteIt : Bool}

/-- The answers to `x ≤ c`, `c ≤ x`, `x ≤ p`, `p ≤ x`, `p ≤ c` and `c ≤ p` agree with an
order. -/
def ordered (xc cx xp px pc cp : Bool) : Bool :=
  (xc || cx) && (xp || px) && (pc || cp) &&
    (!(xc && cp) || xp) && (!(xp && pc) || xc) && (!(cx && xp) || cp) &&
    (!(px && xc) || pc) && (!(cp && px) || cx) && (!(pc && cx) || px)

/-- The tables are right for every way in which an attribute `x`, the constant `p` of the
predicate and the constant `c` of the clause can be ordered. -/
theorem outcome_testStrategy : ∀ refuteIt xc cx xp px pc cp : Bool,
    ordered xc cx xp px pc cp = true → ∀ given < 6, ∀ target < 6,
    outcome (given + 1) xc cx = true →
    outcome (testStrategy refuteIt (given + 1) (target + 1)) pc cp = true →
    outcome (target + 1) xp px = !refuteIt := by
  decide +kernel

theorem testStrategy_sound {le : V → V → Bool} (horder : TotalOrder le) {given target : Nat}
    (hgiven : 1 ≤ given ∧ given ≤ 6) (htarget : 1 ≤ target ∧ target ≤ 6) {x p c : V}
    (hclause : compareBy le given x c = true)
    (htest : compareBy le (testStrategy refuteIt given target) p c = true) :
    compareBy le target x p = !refuteIt := by
  obtain ⟨g, rfl⟩ := Nat.exists_eq_add_of_le' hgiven.1
  obtain ⟨t, rfl⟩ := Nat.exists_eq_add_of_le' htarget.1
  have htotal : ∀ a b, (le a b || le b a) = true := by
    intro a b
    rw [Bool.or_eq_true]
    exact horder.total a b
  have htrans : ∀ a b d, (!(le a b && le b d) || le a d) = true := by
    intro a b d
    have h := horder.trans a b d
    revert h
    cases le a b <;> cases le b d <;> cases le a d <;> simp
  refine outcome_testStrategy refuteIt _ _ _ _ _ _ ?_ g (by omega) t (by omega) hclause htest
  simp only [ordered, htotal, htrans, Bool.and_self]

/-! ### Finding the operators -/

variable {opno opfamily clauseOp : Oid}

section Lookup

variable {cat : Catalog} {I : Interp V} {le : V → V → Bool} {predOp testOp : Oid} {strategy : Nat}

theorem neg_compareBy (a b : Option V) : neg (a.bind fun a => b.map (compareBy le btEQ a))
      = a.bind fun a => b.map (compareBy le btNE a) := by
  cases a with
  | none => rfl
  | some a =>
    cases b with
    | none => rfl
    | some b => rfl

section

variable {neg' : Oid} (hright : NegatorsRight I cat.getNegator)
  (hneg : cat.getNegator opno = some neg')
include hright hneg

theorem Compares.negator (h : Compares I le btEQ opno) : Compares I le btNE neg' := by
  intro a b
  rw [hright opno neg' hneg, h a b, neg_compareBy]

theorem Compares.of_negator (h : Compares I le btEQ neg') : Compares I le btNE opno := by
  intro a b
  have hop := hright opno neg' hneg [a, b]
  rw [h a b] at hop
  rw [← neg_compareBy, hop, neg_neg]

end

theorem amopInFamily_mem {form : Amop} (h : cat.amopInFamily opno opfamily = some form) :
    form ∈ cat.amop ∧ form.amopopr = opno ∧ form.amopfamily = opfamily := by
  have hprop := find?_some h
  simp only [and_eq_true, decide_eq_true_eq] at hprop
  exact ⟨mem_of_find?_eq_some h, hprop⟩

theorem FamilyOrder.inFamily {form : Amop} (hfam : FamilyOrder cat I opfamily le)
    (h : cat.amopInFamily opno opfamily = some form) :
    (1 ≤ form.amopstrategy ∧ form.amopstrategy ≤ 5) ∧ Compares I le form.amopstrategy opno := by
  obtain ⟨hmem, hop, hfamily⟩ := amopInFamily_mem h
  refine ⟨hfam.strategy form hmem hfamily, ?_⟩
  rw [← hop]
  exact hfam.compares form hmem hfamily

theorem FamilyOrder.member {lefttype righttype : Oid}
    (hfam : FamilyOrder cat I opfamily le)
    (h : cat.getOpfamilyMember opfamily lefttype righttype strategy = some opno) :
    Compares I le strategy opno := by
  obtain ⟨form, hfind, rfl⟩ := Option.map_eq_some_iff.mp h
  have hprop := find?_some hfind
  simp only [and_eq_true, decide_eq_true_eq] at hprop
  rw [← hprop.2]
  exact hfam.compares form (mem_of_find?_eq_some hfind) hprop.1.1.1

theorem clauseStrategy_spec {righttype : Oid}
    (hright : NegatorsRight I cat.getNegator) (hfam : FamilyOrder cat I opfamily le)
    (h : clauseStrategy cat clauseOp opfamily = some (strategy, righttype)) :
    (1 ≤ strategy ∧ strategy ≤ 6) ∧ Compares I le strategy clauseOp := by
  unfold clauseStrategy at h
  cases hop : cat.amopInFamily clauseOp opfamily with
  | some form =>
    rw [hop] at h
    cases h
    obtain ⟨hrange, hcmp⟩ := hfam.inFamily hop
    exact ⟨⟨hrange.1, by omega⟩, hcmp⟩
  | none =>
    rw [hop] at h
    cases hneg : cat.getNegator clauseOp with
    | none =>
      rw [hneg] at h
      cases h
    | some neg' =>
      simp only [hneg] at h
      cases hnegop : cat.amopInFamily neg' opfamily with
      | none =>
        rw [hnegop] at h
        cases h
      | some form =>
        simp only [hnegop] at h
        split at h
        next heq =>
          cases h
          have hcmp := (hfam.inFamily hnegop).2
          rw [heq] at hcmp
          exact ⟨by decide, hcmp.of_negator hright hneg⟩
        · cases h

/-- The test operator compares by the table's strategy, in an order in which the operators of
the predicate and of the clause compare by theirs. -/
structure TestOp (I : Interp V) (refuteIt : Bool) (predOp clauseOp testOp : Oid)
    (le : V → V → Bool) (predStrategy clauseStrategy : Nat) : Prop where
  order : TotalOrder le
  predRange : 1 ≤ predStrategy ∧ predStrategy ≤ 6
  clauseRange : 1 ≤ clauseStrategy ∧ clauseStrategy ≤ 6
  pred : Compares I le predStrategy predOp
  clause : Compares I le clauseStrategy clauseOp
  test : Compares I le (testStrategy refuteIt clauseStrategy predStrategy) testOp

theorem familyTestOp_spec (hright : CatalogRight cat I) (negated : Bool)
    {predForm : Amop} (hmem : predForm ∈ cat.amop)
    (hpred : if negated then cat.getNegator predOp = some predForm.amopopr
      else predForm.amopopr = predOp)
    (h : familyTestOp cat negated clauseOp refuteIt predForm = some testOp) :
    ∃ le ps cs, TestOp I refuteIt predOp clauseOp testOp le ps cs := by
  unfold familyTestOp at h
  by_cases hbt : predForm.isBtree = true
  swap
  · rw [if_pos (by simpa using hbt)] at h
    cases h
  obtain ⟨le, hfam⟩ := hright.btree predForm hmem hbt
  have hform := hfam.compares predForm hmem rfl
  have hrange := hfam.strategy predForm hmem rfl
  simp only [hbt, Bool.not_true, Bool.false_eq_true, if_false] at h
  split at h
  · cases h
  next hneq =>
    -- the strategy of the predicate's own operator
    obtain ⟨ps, hps, hpsrange, hpscmp⟩ : ∃ ps,
        (if negated then btNE else predForm.amopstrategy) = ps ∧ (1 ≤ ps ∧ ps ≤ 6) ∧
          Compares I le ps predOp := by
      cases negated with
      | false =>
        rw [← (show predForm.amopopr = predOp from hpred)]
        exact ⟨predForm.amopstrategy, rfl, ⟨hrange.1, by omega⟩, hform⟩
      | true =>
        have heq : predForm.amopstrategy = btEQ := by simpa using hneq
        rw [heq] at hform
        exact ⟨btNE, rfl, by decide, hform.of_negator hright.negator hpred⟩
    rw [hps] at h
    cases hcs : clauseStrategy cat clauseOp predForm.amopfamily with
    | none =>
      rw [hcs] at h
      cases h
    | some found =>
      obtain ⟨cs, righttype⟩ := found
      obtain ⟨hcsrange, hcscmp⟩ := clauseStrategy_spec hright.negator hfam hcs
      simp only [hcs] at h
      refine ⟨le, ps, cs, hfam.order, hpsrange, hcsrange, hpscmp, hcscmp, ?_⟩
      split at h
      · cases h
      rw [Option.filter_eq_some_iff] at h
      split_ifs at h with hne
      · rw [Option.bind_eq_some_iff] at h
        obtain ⟨⟨eqOp, hmember, hneg⟩, -⟩ := h
        rw [hne]
        exact (hfam.member hmember).negator hright.negator hneg
      · exact hfam.member h.1

theorem getBtreeTestOp_spec (hright : CatalogRight cat I)
    (h : getBtreeTestOp cat predOp clauseOp refuteIt = some testOp) :
    ∃ le ps cs, TestOp I refuteIt predOp clauseOp testOp le ps cs := by
  have hrow : ∀ {opno : Oid} {form : Amop}, form ∈ cat.amopList opno →
      form ∈ cat.amop ∧ form.amopopr = opno := by
    intro opno form hform
    have hprop := mem_filter.mp hform
    exact ⟨hprop.1, of_decide_eq_true hprop.2⟩
  unfold getBtreeTestOp at h
  split at h
  next neg' hempty hneg =>
    obtain ⟨form, hform, hop⟩ := exists_of_findSome?_eq_some h
    obtain ⟨hmem, hopr⟩ := hrow hform
    exact familyTestOp_spec hright true hmem (hopr ▸ hneg) hop
  next =>
    obtain ⟨form, hform, hop⟩ := exists_of_findSome?_eq_some h
    obtain ⟨hmem, hopr⟩ := hrow hform
    exact familyTestOp_spec hright false hmem hopr hop

end Lookup

/-! ### Atoms -/

variable {e arg : Expr V}

/-- Wherever the clause is true, the predicate has the truth value `b`. -/
def Proves (I : Interp V) (b : Bool) (clause predicate : Expr V) : Prop :=
  ∀ row, truth I row clause = some true → truth I row predicate = some b

section Atoms

variable {cat : Catalog} {I : Interp V} {row : Nat → Option V}

/-- What is said of an opclause when its constant has been moved to the right. -/
theorem truth_splitOpclause (hright : CatalogRight cat I) {var : Expr V} {opno' : Oid} {c : V}
    {varOnLeft : Bool} (h : splitOpclause e = some (opno, var, c, varOnLeft))
    (hop : commuteIfNeeded cat opno varOnLeft = some opno') (row : Nat → Option V) :
    truth I row e = (I.op opno' [eval I row var, some c]).map I.isTrue := by
  unfold splitOpclause at h
  split at h
  next o leftop v =>
    obtain ⟨w, rfl, heq⟩ := Option.map_eq_some_iff.mp h
    cases heq
    cases hop
    exact truth_opExpr I row _ _
  next o v rightop _ =>
    obtain ⟨w, rfl, heq⟩ := Option.map_eq_some_iff.mp h
    cases heq
    rw [hright.commutator opno opno' hop]
    exact truth_opExpr I row _ _
  next => cases h

theorem eval_stripRelabel (row : Nat → Option V) (e : Expr V) :
    eval I row (stripRelabel e) = eval I row e := by
  cases e <;> rfl

theorem truth_isNotNull (row : Nat → Option V) (arg : Expr V) :
    truth I row (.nullTest arg .isNotNull false) = some (eval I row arg).isSome :=
  truth_nullTest I row arg .isNotNull false

theorem truth_isNull (row : Nat → Option V) (arg : Expr V) :
    truth I row (.nullTest arg .isNull false) = some (eval I row arg).isNone :=
  truth_nullTest I row arg .isNull false

/-- Whatever asserts the non-truth of something true is false. -/
theorem truth_of_extractNotArg (h : extractNotArg e = some arg)
    (harg : truth I row arg = some true) : truth I row e = some false := by
  unfold extractNotArg at h
  split at h <;> cases h
  · rw [truth_not, harg]
    rfl
  all_goals
    rw [truth_booleanTest, harg]
    rfl

variable [DecidableEq V] {predicate clause : Expr V}

theorem btreePredicateProof_sound (hright : CatalogRight cat I)
    (h : btreePredicateProof cat I predicate clause refuteIt = true) :
    Proves I (!refuteIt) clause predicate := by
  unfold btreePredicateProof at h
  split at h
  next predOp predVar predConst predLeft clauseOp clauseVar clauseConst clauseLeft hp hc =>
    split at h
    · cases h
    rename_i hvar
    obtain rfl : predVar = clauseVar := equal_iff.mp (by simpa using hvar)
    split at h
    next predOp' clauseOp' hpop hcop =>
      cases htest : getBtreeTestOp cat predOp' clauseOp' refuteIt with
      | none =>
        rw [htest] at h
        cases h
      | some testOp =>
        rw [htest] at h
        obtain ⟨le, ps, cs, hspec⟩ := getBtreeTestOp_spec hright htest
        intro row hrow
        rw [truth_splitOpclause hright hc hcop, hspec.clause] at hrow
        rw [truth_splitOpclause hright hp hpop, hspec.pred]
        cases hval : eval I row predVar with
        | none =>
          rw [hval] at hrow
          cases hrow
        | some x =>
          rw [hval] at hrow
          have hclause : compareBy le cs x clauseConst = true := Option.some.inj hrow
          have hres := hspec.test (some predConst) (some clauseConst)
          cases hop : I.op testOp [some predConst, some clauseConst] with
          | none =>
            simp only [hop] at h
            cases h
          | some result =>
            simp only [hop] at h
            rw [hop, Option.map_some, h] at hres
            have htrue : compareBy le (testStrategy refuteIt cs ps) predConst clauseConst = true :=
              (Option.some.inj hres).symm
            exact congrArg some
              (testStrategy_sound hspec.order hspec.clauseRange hspec.predRange hclause htrue)
    next => cases h
  next => cases h

theorem eval_of_listMemberStrip {list : List (Expr V)} {datum : Expr V}
    (h : listMemberStrip list datum = true) (row : Nat → Option V) :
    eval I row datum ∈ list.map (eval I row) := by
  obtain ⟨elem, helem, heq⟩ := any_eq_true.mp h
  refine mem_map.mpr ⟨elem, helem, ?_⟩
  rw [← eval_stripRelabel row elem, equal_iff.mp heq, eval_stripRelabel]

/-- A strict clause that is true has inputs that are not null. -/
theorem strictInput_sound (hright : CatalogRight cat I) {clause : Expr V}
    (h : strictInput cat arg clause = true)
    (hrow : truth I row clause = some true) : (eval I row arg).isSome = true := by
  by_contra hnull
  rw [not_eq_true, Option.isSome_eq_false_iff, Option.isNone_iff_eq_none] at hnull
  unfold strictInput at h
  split at h
  next opno args =>
    rw [and_eq_true] at h
    have hmem := eval_of_listMemberStrip (I := I) h.1 row
    rw [hnull] at hmem
    rw [truth_opExpr, hright.opStrict opno h.2 _ hmem] at hrow
    cases hrow
  next funcid args =>
    rw [and_eq_true] at h
    have hmem := eval_of_listMemberStrip (I := I) h.1 row
    rw [hnull] at hmem
    rw [truth, eval, evalList_eq_map, hright.funcStrict funcid h.2 _ hmem] at hrow
    cases hrow
  next => cases h

theorem isNullTestOf_eq {t : NullTestType} (h : isNullTestOf t arg e = true) :
    e = .nullTest arg t false := by
  cases e with
  | nullTest arg' t' argisrow =>
    simp only [isNullTestOf, and_eq_true, decide_eq_true_eq, not_eq_true'] at h
    rw [h.1.1, h.1.2, equal_iff.mp h.2]
  | _ => cases h

theorem predicateImpliedBySimpleClause_sound (hright : CatalogRight cat I)
    (h : predicateImpliedBySimpleClause cat I predicate clause = true) :
    Proves I true clause predicate := by
  unfold predicateImpliedBySimpleClause at h
  by_cases heq : predicate.equal clause = true
  · intro row hrow
    rwa [equal_iff.mp heq]
  rw [if_neg heq] at h
  split at h
  next nonnullarg argisrow =>
    cases argisrow with
    | true => cases h
    | false =>
      intro row hrow
      rw [truth_isNotNull, strictInput_sound hright h hrow]
  next => exact btreePredicateProof_sound hright h

variable {samePointer : Expr V → Expr V → Bool}

theorem predicateRefutedBySimpleClause_sound (hright : CatalogRight cat I)
    (h : predicateRefutedBySimpleClause cat I samePointer predicate clause = true) :
    Proves I false clause predicate := by
  unfold predicateRefutedBySimpleClause at h
  by_cases hsame : samePointer predicate clause = true
  · rw [if_pos hsame] at h
    cases h
  rw [if_neg hsame] at h
  split at h
  next isnullarg argisrow =>
    cases argisrow with
    | true => cases h
    | false =>
      simp only [false_eq_true, if_false, or_eq_true] at h
      intro row hrow
      have hsome : (eval I row isnullarg).isSome = true := by
        rcases h with h | h
        · exact strictInput_sound hright h hrow
        · rw [isNullTestOf_eq h, truth_isNotNull] at hrow
          exact Option.some.inj hrow
      rw [truth_isNull, Option.isNone_eq_false_iff.mpr hsome]
  next =>
    split at h
    next isnullarg argisrow =>
      cases argisrow with
      | true => cases h
      | false =>
        intro row hrow
        rw [truth_isNull] at hrow
        rw [isNullTestOf_eq h, truth_isNotNull,
          Option.isSome_eq_false_iff.mpr (Option.some.inj hrow)]
    next => exact btreePredicateProof_sound hright h

end Atoms

/-! ### Components -/

variable {op : BoolExprType}

section Components

variable {I : Interp V} {b : Bool} {clause predicate : Expr V}

theorem elements_eval {array : Expr V} {elements : List (Expr V)}
    (h : arrayElements I array = some elements) (row : Nat → Option V) :
    ∃ a, eval I row array = some a ∧ I.elems a = elements.map (eval I row) := by
  unfold arrayElements at h
  split at h
  next v =>
    split at h
    · cases h
      refine ⟨v, rfl, ?_⟩
      rw [map_map]
      exact (map_id _).symm
    · cases h
  next es multidims =>
    split at h
    next hcond =>
      cases h
      rw [and_eq_true, not_eq_true'] at hcond
      refine ⟨I.array (elements.map (eval I row)), ?_, I.elems_array _⟩
      rw [eval, hcond.1, evalList_eq_map]
      rfl
    · cases h
  next => cases h

/-- The components and the connective have the truth value of the whole. -/
theorem truth_classify {l : List (Expr V)} (h : predicateClassify I e = some (op, l))
    (row : Nat → Option V) :
    truth I row e = op.combine (l.map (truth I row)) := by
  cases e with
  | boolExpr op' args =>
    cases h
    exact truth_boolExpr I row op l
  | scalarArrayOp opno useOr scalar array =>
    obtain ⟨elements, helems, heq⟩ := Option.map_eq_some_iff.mp h
    cases heq
    obtain ⟨a, harray, hlist⟩ := elements_eval helems row
    rw [truth_scalarArrayOp, saopTruth, harray, Option.bind_some, hlist, map_map, map_map]
    cases useOr with
    | true => rfl
    | false => rfl
  | _ => cases h

theorem truth_skipRestrictInfo (row : Nat → Option V) (e : Expr V) :
    truth I row (skipRestrictInfo e) = truth I row e := by
  cases e <;> rfl

theorem Proves.of_skip (h : Proves I b (skipRestrictInfo clause) predicate) :
    Proves I b clause predicate := by
  intro row hrow
  exact h row (by rwa [truth_skipRestrictInfo])

variable {l : List (Expr V)} {f : { e // e ∈ l } → Bool}

theorem Proves.of_and_clause (hc : predicateClassify I clause = some (.and, l))
    (ih : ∀ c, f c = true → Proves I b (skipRestrictInfo c.1) predicate)
    (h : l.attach.any f = true) : Proves I b clause predicate := by
  obtain ⟨c, -, hf⟩ := any_eq_true.mp h
  intro row hrow
  rw [truth_classify hc] at hrow
  exact of_skip (ih c hf) row (conj_map_eq_true.mp hrow c.1 c.2)

theorem Proves.of_or_clause (hc : predicateClassify I clause = some (.or, l))
    (ih : ∀ c, f c = true → Proves I b c.1 predicate) (h : l.attach.all f = true) :
    Proves I b clause predicate := by
  intro row hrow
  rw [truth_classify hc] at hrow
  obtain ⟨c, hmem, hcrow⟩ := disj_map_eq_true.mp hrow
  exact ih ⟨c, hmem⟩ (all_eq_true.mp h _ (mem_attach l _)) row hcrow

section

variable (hp : predicateClassify I predicate = some (op, l))
include hp

/-- An AND is true if all of its components are, an OR false if all of them are. -/
theorem Proves.of_all_predicates (hop : b = decide (op = .and))
    (ih : ∀ p, f p = true → Proves I b (skipRestrictInfo clause) p.1) (h : l.attach.all f = true) :
    Proves I b clause predicate := by
  intro row hrow
  have hall : ∀ p ∈ l, truth I row p = some b := fun p hmem =>
    of_skip (ih ⟨p, hmem⟩ (all_eq_true.mp h _ (mem_attach l _))) row hrow
  rw [truth_classify hp]
  cases op with
  | and =>
    cases hop
    exact conj_map_eq_true.mpr hall
  | or =>
    cases hop
    exact disj_map_eq_false.mpr hall

/-- An OR is true if one of its components is, an AND false if one of them is. -/
theorem Proves.of_some_predicate (hop : b = decide (op = .or))
    (ih : ∀ p, f p = true → Proves I b (skipRestrictInfo clause) p.1) (h : l.attach.any f = true) :
    Proves I b clause predicate := by
  obtain ⟨p, -, hf⟩ := any_eq_true.mp h
  intro row hrow
  have hsome := of_skip (ih p hf) row hrow
  rw [truth_classify hp]
  cases op with
  | and =>
    cases hop
    exact conj_map_eq_false.mpr ⟨p, p.2, hsome⟩
  | or =>
    cases hop
    exact disj_map_eq_true.mpr ⟨p, p.2, hsome⟩

end

end Components

/-! ### The recursion -/

section Recursion

variable [DecidableEq V] {cat : Catalog} {I : Interp V}

-- one rule for each combination of classes; an OR clause against an OR predicate takes two
section

variable (hright : CatalogRight cat I)
include hright

theorem predicateImpliedByRecurse_sound (clause predicate : Expr V)
    (h : predicateImpliedByRecurse cat I clause predicate = true) :
    Proves I true clause predicate := by
  refine Proves.of_skip ?_
  fun_induction predicateImpliedByRecurse cat I clause predicate with
  | case1 clause predicate cs hc ps hp ih | case7 clause predicate hc ps hp ih =>
    exact .of_all_predicates hp rfl ih h
  | case2 clause predicate cs hc ps hp ihp ihc =>
    rcases or_eq_true_iff.mp h with h | h
    · exact .of_some_predicate hp rfl ihp h
    · exact .of_and_clause hc ihc h
  | case3 clause predicate cs hc hp ih => exact .of_and_clause hc ih h
  | case4 clause predicate cs hc ps hp ih =>
    exact .of_or_clause hc (fun c => .of_some_predicate hp rfl (ih c)) h
  | case5 clause predicate cs hc ps hp ih | case6 clause predicate cs hc hp ih =>
    exact .of_or_clause hc (fun c hf => .of_skip (ih c hf)) h
  | case8 clause predicate hc ps hp ih => exact .of_some_predicate hp rfl ih h
  | case9 clause predicate hc hp => exact predicateImpliedBySimpleClause_sound hright h

/-- What implies the argument of a NOT-like clause refutes the clause. -/
theorem refutes_of_notArg {clause predicate : Expr V}
    (h : (extractNotArg predicate).any (predicateImpliedByRecurse cat I clause) = true) :
    Proves I false clause predicate := by
  intro row hrow
  cases harg : extractNotArg predicate with
  | none =>
    rw [harg] at h
    cases h
  | some arg =>
    rw [harg] at h
    exact truth_of_extractNotArg harg (predicateImpliedByRecurse_sound hright clause arg h row hrow)

theorem predicateRefutedByRecurse_sound (clause predicate : Expr V)
    (h : predicateRefutedByRecurse cat I samePointer clause predicate = true) :
    Proves I false clause predicate := by
  refine Proves.of_skip ?_
  fun_induction predicateRefutedByRecurse cat I samePointer clause predicate with
  | case1 clause predicate cs hc ps hp ihp ihc =>
    rcases or_eq_true_iff.mp h with h | h
    · exact .of_some_predicate hp rfl ihp h
    · exact .of_and_clause hc ihc h
  | case2 clause predicate cs hc ps hp ih | case4 clause predicate cs hc ps hp ih
  | case8 clause predicate hc ps hp ih => exact .of_all_predicates hp rfl ih h
  | case3 clause predicate cs hc hp ih =>
    rcases or_eq_true_iff.mp h with h | h
    · exact refutes_of_notArg hright h
    · exact .of_and_clause hc ih h
  | case5 clause predicate cs hc ps hp ih =>
    exact .of_or_clause hc (fun c => .of_some_predicate hp rfl (ih c)) h
  | case6 clause predicate cs hc hp ih =>
    rcases or_eq_true_iff.mp h with h | h
    · exact refutes_of_notArg hright h
    · exact .of_or_clause hc (fun c hf => .of_skip (ih c hf)) h
  | case7 clause predicate hc ps hp ih => exact .of_some_predicate hp rfl ih h
  | case9 clause predicate hc hp =>
    rcases or_eq_true_iff.mp h with h | h
    · exact refutes_of_notArg hright h
    · exact predicateRefutedBySimpleClause_sound hright h

end

end Recursion

/-! ### The whole -/

theorem truth_loneMember (I : Interp V) (row : Nat → Option V) (l : List (Expr V)) :
    truth I row (loneMember l) = truth I row (.and l) := by
  rcases l with - | ⟨e, - | ⟨e', l⟩⟩
  · rfl
  · rw [truth_boolExpr]
    exact (conj_singleton _).symm
  · rfl

/-- Operators 1 to 5 are the comparisons of numbers, in one family, and 6 is `<>`. -/
def natCatalog : Catalog where
  getNegator opno := [none, some 4, some 5, some 6, some 1, some 2, some 3].getD opno none
  getCommutator opno := [none, some 5, some 4, some 3, some 2, some 1, some 6].getD opno none
  opStrict _ := true
  funcStrict _ := true
  opImmutable _ := true
  amop := [1, 2, 3, 4, 5].map fun s => ⟨s, true, 0, s, 0, 0⟩

def natCompare : Oid → Nat → Nat → Bool := compareBy fun a b => decide (a ≤ b)

theorem natOrder : TotalOrder fun a b : Nat => decide (a ≤ b) where
  total a b := by
    rw [decide_eq_true_eq, decide_eq_true_eq]
    exact Nat.le_total a b
  trans a b c hab hbc := by
    rw [decide_eq_true_eq] at hab hbc ⊢
    exact le_trans hab hbc

theorem getD_some_lt {l : List (Option Oid)} {n m : Nat} (h : l.getD n none = some m) :
    n < l.length := by
  by_contra hge
  rw [getD_eq_getElem?_getD, getElem?_eq_none (Nat.le_of_not_lt hge)] at h
  cases h

theorem natCatalog_right : CatalogRight natCatalog (Interp.ofNat natCompare) where
  negator := by
    refine Interp.negatorsRight_ofNat ?_
    intro opno neg' h a b
    have hfin : ∀ o < 7, ∀ n ∈ natCatalog.getNegator o, ∀ ab ba : Bool,
        outcome n ab ba = !outcome o ab ba := by decide
    exact hfin opno (getD_some_lt h) neg' h _ _
  commutator := by
    intro opno comm h a b
    have hfin : ∀ o < 7, ∀ n ∈ natCatalog.getCommutator o, ∀ ab ba : Bool,
        outcome n ab ba = outcome o ba ab := by decide
    rw [Interp.isTrue_op_ofNat, Interp.isTrue_op_ofNat]
    cases a with
    | none => cases b <;> rfl
    | some a =>
      cases b with
      | none => rfl
      | some b => exact congrArg some (hfin opno (getD_some_lt h) comm h _ _)
  opStrict := by
    intro opno _ args hargs
    rcases args with - | ⟨a, - | ⟨b, - | ⟨c, args⟩⟩⟩
    · rfl
    · cases a <;> rfl
    · cases a with
      | none => rfl
      | some a =>
        cases b with
        | none => rfl
        | some b => simp at hargs
    · cases a <;> cases b <;> rfl
  funcStrict _ _ _ _ := rfl
  btree := by
    intro form hform _
    have hrow : ∀ f ∈ natCatalog.amop, 1 ≤ f.amopstrategy ∧ f.amopstrategy ≤ 5 ∧
        f.amopopr = f.amopstrategy := by decide
    refine ⟨fun a b => decide (a ≤ b), natOrder, fun f hf _ => ⟨(hrow f hf).1, (hrow f hf).2.1⟩, ?_⟩
    intro f hf _ a b
    rw [Interp.isTrue_op_ofNat, (hrow f hf).2.2]
    rfl

/-- If `predicate_implied_by` says so, then in every row in which all the restriction clauses
are true the predicate is true. -/
theorem predicateImpliedBy_sound [DecidableEq V] {cat : Catalog} {I : Interp V}
    (hright : CatalogRight cat I) (predicateList restrictinfoList : List (Expr V))
    (h : predicateImpliedBy cat I predicateList restrictinfoList = true) (row : Nat → Option V)
    (hrow : ∀ clause ∈ restrictinfoList, truth I row clause = some true) :
    truth I row (.and predicateList) = some true := by
  unfold predicateImpliedBy at h
  by_cases hps : predicateList.isEmpty = true
  · rw [List.isEmpty_iff.mp hps]
    exact truth_boolExpr I row .and []
  rw [if_neg hps] at h
  split at h
  · cases h
  rw [← truth_loneMember]
  refine predicateImpliedByRecurse_sound hright _ _ h row ?_
  rw [truth_loneMember, truth_boolExpr]
  exact conj_map_eq_true.mpr hrow

/-- `x = ANY (ARRAY[3, 5])`. -/
def anyClause : Expr Nat :=
  .restrictInfo (.scalarArrayOp 3 true (.var 0)
    (.arrayExpr [.const (some 3), .const (some 5)] false))

/-- `x < 10` and `x IS NOT NULL`. -/
def lessPredicate : List (Expr Nat) :=
  [.opExpr 1 [.var 0, .const (some 10)], .nullTest (.var 0) .isNotNull false]

theorem predicateImpliedBy_sound_array :
    predicateImpliedBy natCatalog (Interp.ofNat natCompare) lessPredicate [anyClause] = true ∧
    truth (Interp.ofNat natCompare) (fun _ => some 3) (.and lessPredicate) = some true :=
  ⟨by decide +kernel,
    predicateImpliedBy_sound natCatalog_right lessPredicate [anyClause] (by decide +kernel)
      (fun _ => some 3) (by decide +kernel)⟩

/-- If `predicate_refuted_by` says so, then in every row in which all the restriction clauses
are true the predicate is false, and not merely unknown. -/
theorem predicateRefutedBy_sound [DecidableEq V] {cat : Catalog} {I : Interp V}
    (hright : CatalogRight cat I) (samePointer : Expr V → Expr V → Bool)
    (predicateList restrictinfoList : List (Expr V))
    (h : predicateRefutedBy cat I samePointer predicateList restrictinfoList = true)
    (row : Nat → Option V)
    (hrow : ∀ clause ∈ restrictinfoList, truth I row clause = some true) :
    truth I row (.and predicateList) = some false := by
  unfold predicateRefutedBy at h
  split at h
  · cases h
  split at h
  · cases h
  rw [← truth_loneMember]
  refine predicateRefutedByRecurse_sound hright _ _ h row ?_
  rw [truth_loneMember, truth_boolExpr]
  exact conj_map_eq_true.mpr hrow

/-- `x < 10 OR NOT x >= 15`, with a constant on the left. -/
def smallPredicate : Expr Nat :=
  .or [.opExpr 5 [.const (some 10), .var 0], .not (.opExpr 4 [.var 0, .const (some 15)])]

theorem predicateRefutedBy_sound_greater :
    predicateRefutedBy natCatalog (Interp.ofNat natCompare) (fun _ _ => false) [smallPredicate]
      [.opExpr 5 [.var 0, .const (some 20)]] = true ∧
    truth (Interp.ofNat natCompare) (fun _ => some 30) (.and [smallPredicate]) = some false :=
  ⟨by decide +kernel, predicateRefutedBy_sound natCatalog_right (fun _ _ => false) [smallPredicate]
      [.opExpr 5 [.var 0, .const (some 20)]] (by decide +kernel) (fun _ => some 30)
      (by decide +kernel)⟩

end PrlPg.PredTest
