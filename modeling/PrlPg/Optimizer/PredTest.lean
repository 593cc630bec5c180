/-
Proving that restriction clauses imply or refute a predicate (optimizer/util/predtest.c).

`Catalog` is what the code looks up about operators and functions.  An `Interp` is there
because the code runs an operator on two constants, and takes array constants apart.  The
lookaside cache of `get_btree_test_op` holds what the lookup returns and is left out.
`samePointer` is the comparison of two node pointers in `predicate_refuted_by_simple_clause`.

`predicate_classify` and the iteration it sets up are one function here, which gives the
connective and the components, or `none` for an atom.
-/
import PrlPg.Nodes.Expr

namespace PrlPg

/-- A row of pg_amop. -/
structure Amop where
  amopopr : Oid
  isBtree : Bool
  amopfamily : Oid
  amopstrategy : Nat
  amoplefttype : Oid
  amoprighttype : Oid

/-- What is looked up about operators and functions. -/
structure Catalog where
  getNegator : Oid → Option Oid
  getCommutator : Oid → Option Oid
  opStrict : Oid → Bool
  funcStrict : Oid → Bool
  opImmutable : Oid → Bool
  amop : List Amop

namespace Catalog

/-- The rows of an operator. -/
def amopList (cat : Catalog) (opno : Oid) : List Amop :=
  cat.amop.filter fun form => form.amopopr = opno

/-- The row of an operator in a family. -/
def amopInFamily (cat : Catalog) (opno opfamily : Oid) : Option Amop :=
  cat.amop.find? fun form => form.amopopr = opno && form.amopfamily = opfamily

def getOpfamilyMember (cat : Catalog) (opfamily lefttype righttype : Oid) (strategy : Nat) :
    Option Oid :=
  (cat.amop.find? fun form => form.amopfamily = opfamily && form.amoplefttype = lefttype &&
    form.amoprighttype = righttype && form.amopstrategy = strategy).map (·.amopopr)

end Catalog

namespace PredTest

variable {V : Type*} {l : List (Expr V)}

/-! ### Btree operators -/

abbrev btLT : Nat := 1
abbrev btLE : Nat := 2
abbrev btEQ : Nat := 3
abbrev btGE : Nat := 4
abbrev btGT : Nat := 5
abbrev btNE : Nat := 6

/-- From `ATTR given CONST1`, `ATTR target CONST2` is true if `CONST2 test CONST1`; a row for
each given operator, 0 where there is no test. -/
def btImplicTable : List (List Nat) := [
  -- LT   LE    EQ    GE    GT    NE
  [btGE, btGE, 0,    0,    0,    btGE],   -- LT
  [btGT, btGE, 0,    0,    0,    btGT],   -- LE
  [btGT, btGE, btEQ, btLE, btLT, btNE],   -- EQ
  [0,    0,    0,    btLE, btLT, btLT],   -- GE
  [0,    0,    0,    btLE, btLE, btLE],   -- GT
  [0,    0,    0,    0,    0,    btEQ]]   -- NE

/-- The same for `ATTR target CONST2` being false. -/
def btRefuteTable : List (List Nat) := [
  -- LT   LE    EQ    GE    GT    NE
  [0,    0,    btGE, btGE, btGE, 0],      -- LT
  [0,    0,    btGT, btGT, btGE, 0],      -- LE
  [btLE, btLT, btNE, btGT, btGE, btEQ],   -- EQ
  [btLE, btLT, btLT, 0,    0,    0],      -- GE
  [btLE, btLE, btLE, 0,    0,    0],      -- GT
  [0,    0,    btEQ, 0,    0,    0]]      -- NE

def testStrategy (refuteIt : Bool) (clauseStrategy predStrategy : Nat) : Nat :=
  ((if refuteIt then btRefuteTable else btImplicTable).getD (clauseStrategy - 1) []).getD
    (predStrategy - 1) 0

/-- The strategy of the clause's operator in a family, and its right-hand type; the negator
of an equality is `<>`. -/
def clauseStrategy (cat : Catalog) (clauseOp opfamily : Oid) : Option (Nat × Oid) :=
  match cat.amopInFamily clauseOp opfamily with
  | some form => some (form.amopstrategy, form.amoprighttype)
  | none =>
    match cat.getNegator clauseOp with
    | none => none
    | some clauseOpNegator =>
      match cat.amopInFamily clauseOpNegator opfamily with
      | none => none
      | some form => if form.amopstrategy = btEQ then some (btNE, form.amoprighttype) else none

/-- What one family of the predicate's operator gives. -/
def familyTestOp (cat : Catalog) (predOpNegated : Bool) (clauseOp : Oid) (refuteIt : Bool)
    (predForm : Amop) : Option Oid :=
  if !predForm.isBtree then none
  else if predOpNegated && predForm.amopstrategy ≠ btEQ then none
  else
    let predStrategy := if predOpNegated then btNE else predForm.amopstrategy
    match clauseStrategy cat clauseOp predForm.amopfamily with
    | none => none
    | some (clauseStrategy, clauseRighttype) =>
      let testStrategy := testStrategy refuteIt clauseStrategy predStrategy
      if testStrategy = 0 then none
      else
        let testOp :=
          if testStrategy = btNE then
            (cat.getOpfamilyMember predForm.amopfamily predForm.amoprighttype clauseRighttype
              btEQ).bind cat.getNegator
          else
            cat.getOpfamilyMember predForm.amopfamily predForm.amoprighttype clauseRighttype
              testStrategy
        testOp.filter cat.opImmutable

/-- The operator with which to compare the two constants. -/
def getBtreeTestOp (cat : Catalog) (predOp clauseOp : Oid) (refuteIt : Bool) : Option Oid :=
  match cat.amopList predOp, cat.getNegator predOp with
  | [], some predOpNegator =>
    (cat.amopList predOpNegator).findSome? (familyTestOp cat true clauseOp refuteIt)
  | catlist, _ => catlist.findSome? (familyTestOp cat false clauseOp refuteIt)

/-- A binary opclause with a constant that is not null on one side: the operator, the other
side, the constant, and whether the constant is on the right. -/
def splitOpclause : Expr V → Option (Oid × Expr V × V × Bool)
  | .opExpr opno [leftop, .const c] => c.map fun v => (opno, leftop, v, true)
  | .opExpr opno [.const c, rightop] => c.map fun v => (opno, rightop, v, false)
  | _ => none

/-- The operator with the variable on the left. -/
def commuteIfNeeded (cat : Catalog) (opno : Oid) (varOnLeft : Bool) : Option Oid :=
  if varOnLeft then some opno else cat.getCommutator opno

section Proof

variable [DecidableEq V] (cat : Catalog) (I : Interp V)

def btreePredicateProof (predicate clause : Expr V) (refuteIt : Bool) : Bool :=
  match splitOpclause predicate, splitOpclause clause with
  | some (predOp, predVar, predConst, predVarOnLeft),
    some (clauseOp, clauseVar, clauseConst, clauseVarOnLeft) =>
    if !predVar.equal clauseVar then false
    else
      match commuteIfNeeded cat predOp predVarOnLeft,
        commuteIfNeeded cat clauseOp clauseVarOnLeft with
      | some predOp, some clauseOp =>
        match getBtreeTestOp cat predOp clauseOp refuteIt with
        | none => false
        | some testOp =>
          match I.op testOp [some predConst, some clauseConst] with
          | none => false
          | some testResult => I.isTrue testResult
      | _, _ => false
  | _, _ => false

/-! ### Simple clauses -/

/-- The node below a RelabelType. -/
def stripRelabel : Expr V → Expr V
  | .relabelType arg => arg
  | e => e

def listMemberStrip (list : List (Expr V)) (datum : Expr V) : Bool :=
  list.any fun elem => (stripRelabel elem).equal (stripRelabel datum)

/-- Whether the clause is a strict operator or function with `arg` among its inputs. -/
def strictInput (arg : Expr V) : Expr V → Bool
  | .opExpr opno args => listMemberStrip args arg && cat.opStrict opno
  | .funcExpr funcid args => listMemberStrip args arg && cat.funcStrict funcid
  | _ => false

/-- Whether the clause is the given test of `arg`, which is no row. -/
def isNullTestOf (t : NullTestType) (arg : Expr V) : Expr V → Bool
  | .nullTest arg' t' argisrow => t' = t && !argisrow && arg'.equal arg
  | _ => false

def predicateImpliedBySimpleClause (predicate clause : Expr V) : Bool :=
  if predicate.equal clause then true
  else
    match predicate with
    | .nullTest nonnullarg .isNotNull argisrow =>
      if !argisrow then strictInput cat nonnullarg clause else false
    | _ => btreePredicateProof cat I predicate clause false

def predicateRefutedBySimpleClause (samePointer : Expr V → Expr V → Bool)
    (predicate clause : Expr V) : Bool :=
  if samePointer predicate clause then false
  else
    match predicate with
    | .nullTest isnullarg .isNull argisrow =>
      if argisrow then false
      else strictInput cat isnullarg clause || isNullTestOf .isNotNull isnullarg clause
    | predicate =>
      match clause with
      | .nullTest isnullarg .isNull argisrow =>
        if argisrow then false else isNullTestOf .isNotNull isnullarg predicate
      | clause => btreePredicateProof cat I predicate clause true

/-- If the clause asserts the non-truth of a subclause, that subclause. -/
def extractNotArg : Expr V → Option (Expr V)
  | .not arg => some arg
  | .booleanTest arg .isNotTrue => some arg
  | .booleanTest arg .isFalse => some arg
  | .booleanTest arg .isUnknown => some arg
  | _ => none

end Proof

/-! ### Classification -/

def maxSaopArraySize : Nat := 100

/-- Expressions for the elements of an array operand, if there are any to be had and they are
not too many. -/
def arrayElements (I : Interp V) : Expr V → Option (List (Expr V))
  | .const (some v) =>
    if (I.elems v).length ≤ maxSaopArraySize then some ((I.elems v).map .const) else none
  | .arrayExpr elements multidims =>
    if !multidims && elements.length ≤ maxSaopArraySize then some elements else none
  | _ => none

/-- The connective and the components, or `none` for an atom. -/
def predicateClassify (I : Interp V) : Expr V → Option (BoolExprType × List (Expr V))
  | .boolExpr op args => some (op, args)
  | .scalarArrayOp opno useOr scalar array =>
    (arrayElements I array).map fun elements =>
      (if useOr then .or else .and, elements.map fun e => .opExpr opno [scalar, e])
  | _ => none

/-- Skip through a RestrictInfo. -/
def skipRestrictInfo : Expr V → Expr V
  | .restrictInfo clause => clause
  | clause => clause

mutual

/-- How deep the recursion can go into an expression. -/
def weight : Expr V → Nat
  | .boolExpr _ args => weightList args + 1
  | .restrictInfo clause => weight clause + 1
  | .scalarArrayOp _ _ _ _ => 1
  | _ => 0

def weightList : List (Expr V) → Nat
  | [] => 0
  | e :: es => weight e + weightList es

end

theorem weight_le_weightList {e : Expr V} (h : e ∈ l) :
    weight e ≤ weightList l := by
  induction l with
  | nil => cases h
  | cons x l ih =>
    rw [weightList]
    rcases List.mem_cons.mp h with rfl | h
    · omega
    · have := ih h
      omega

theorem weight_component {I : Interp V} {e x : Expr V} {op : BoolExprType}
    (h : predicateClassify I e = some (op, l)) (hx : x ∈ l) : weight x < weight e := by
  cases e with
  | boolExpr op' args =>
    cases h
    have := weight_le_weightList hx
    rw [weight]
    omega
  | scalarArrayOp opno useOr scalar array =>
    rw [predicateClassify, Option.map_eq_some_iff] at h
    obtain ⟨elements, -, heq⟩ := h
    cases heq
    obtain ⟨e, -, rfl⟩ := List.mem_map.mp hx
    simp [weight]
  | _ => cases h

theorem weight_skipRestrictInfo (e : Expr V) : weight (skipRestrictInfo e) ≤ weight e := by
  cases e <;> simp [skipRestrictInfo, weight]

/-! ### The recursion -/

section Recursion

variable [DecidableEq V] (cat : Catalog) (I : Interp V)

def predicateImpliedByRecurse (clause predicate : Expr V) : Bool :=
  match _hc : predicateClassify I (skipRestrictInfo clause) with
  | some (.and, cs) =>
    match _hp : predicateClassify I predicate with
    | some (.and, ps) =>
      ps.attach.all fun pitem => predicateImpliedByRecurse (skipRestrictInfo clause) pitem.1
    | some (.or, ps) =>
      (ps.attach.any fun pitem => predicateImpliedByRecurse (skipRestrictInfo clause) pitem.1) ||
        cs.attach.any fun citem => predicateImpliedByRecurse citem.1 predicate
    | none => cs.attach.any fun citem => predicateImpliedByRecurse citem.1 predicate
  | some (.or, cs) =>
    match _hp : predicateClassify I predicate with
    | some (.or, ps) =>
      cs.attach.all fun citem =>
        ps.attach.any fun pitem => predicateImpliedByRecurse citem.1 pitem.1
    | some (.and, _) | none =>
      cs.attach.all fun citem => predicateImpliedByRecurse citem.1 predicate
  | none =>
    match _hp : predicateClassify I predicate with
    | some (.and, ps) =>
      ps.attach.all fun pitem => predicateImpliedByRecurse (skipRestrictInfo clause) pitem.1
    | some (.or, ps) =>
      ps.attach.any fun pitem => predicateImpliedByRecurse (skipRestrictInfo clause) pitem.1
    | none => predicateImpliedBySimpleClause cat I predicate (skipRestrictInfo clause)
termination_by weight clause + weight predicate
decreasing_by all_goals
    have hskip := weight_skipRestrictInfo clause
    first
    | have := weight_component _hc citem.2
      have := weight_component _hp pitem.2
      omega
    | have := weight_component _hc citem.2
      omega
    | have := weight_component _hp pitem.2
      omega

variable (samePointer : Expr V → Expr V → Bool)

def predicateRefutedByRecurse (clause predicate : Expr V) : Bool :=
  match _hc : predicateClassify I (skipRestrictInfo clause) with
  | some (.and, cs) =>
    match _hp : predicateClassify I predicate with
    | some (.and, ps) =>
      (ps.attach.any fun pitem => predicateRefutedByRecurse (skipRestrictInfo clause) pitem.1) ||
        cs.attach.any fun citem => predicateRefutedByRecurse citem.1 predicate
    | some (.or, ps) =>
      ps.attach.all fun pitem => predicateRefutedByRecurse (skipRestrictInfo clause) pitem.1
    | none =>
      (extractNotArg predicate).any (predicateImpliedByRecurse cat I (skipRestrictInfo clause)) ||
        cs.attach.any fun citem => predicateRefutedByRecurse citem.1 predicate
  | some (.or, cs) =>
    match _hp : predicateClassify I predicate with
    | some (.or, ps) =>
      ps.attach.all fun pitem => predicateRefutedByRecurse (skipRestrictInfo clause) pitem.1
    | some (.and, ps) =>
      cs.attach.all fun citem =>
        ps.attach.any fun pitem => predicateRefutedByRecurse citem.1 pitem.1
    | none =>
      (extractNotArg predicate).any (predicateImpliedByRecurse cat I (skipRestrictInfo clause)) ||
        cs.attach.all fun citem => predicateRefutedByRecurse citem.1 predicate
  | none =>
    match _hp : predicateClassify I predicate with
    | some (.and, ps) =>
      ps.attach.any fun pitem => predicateRefutedByRecurse (skipRestrictInfo clause) pitem.1
    | some (.or, ps) =>
      ps.attach.all fun pitem => predicateRefutedByRecurse (skipRestrictInfo clause) pitem.1
    | none =>
      (extractNotArg predicate).any (predicateImpliedByRecurse cat I (skipRestrictInfo clause)) ||
        predicateRefutedBySimpleClause cat I samePointer predicate (skipRestrictInfo clause)
termination_by weight clause + weight predicate
decreasing_by all_goals
    have hskip := weight_skipRestrictInfo clause
    first
    | have := weight_component _hc citem.2
      have := weight_component _hp pitem.2
      omega
    | have := weight_component _hc citem.2
      omega
    | have := weight_component _hp pitem.2
      omega

end Recursion

/-- A list with one member is replaced by it. -/
def loneMember : List (Expr V) → Expr V
  | [e] => e
  | l => .and l

def predicateImpliedBy [DecidableEq V] (cat : Catalog) (I : Interp V)
    (predicateList restrictinfoList : List (Expr V)) : Bool :=
  if predicateList.isEmpty then true
  else if restrictinfoList.isEmpty then false
  else predicateImpliedByRecurse cat I (loneMember restrictinfoList) (loneMember predicateList)

def predicateRefutedBy [DecidableEq V] (cat : Catalog) (I : Interp V)
    (samePointer : Expr V → Expr V → Bool) (predicateList restrictinfoList : List (Expr V)) :
    Bool :=
  if predicateList.isEmpty then false
  else if restrictinfoList.isEmpty then false
  else
    predicateRefutedByRecurse cat I samePointer (loneMember restrictinfoList)
      (loneMember predicateList)

end PredTest

end PrlPg
