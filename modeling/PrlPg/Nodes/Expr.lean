/-
Expression trees (nodes/primnodes.h), what `equal()` says about them, and their value.

Only the node types that the boolean parts of the optimizer look at have a constructor;
`var` stands for everything else that has a value in a row.  An implicit-AND list is an
`and`.

The value of an expression follows executor/execQual.c.  Operators and functions are
arbitrary, and depend on nothing but their arguments: that is what immutable means.
-/
import Mathlib.Logic.Equiv.List
import PrlPg.Lib.ThreeValued

namespace PrlPg

open ThreeValued Bool

abbrev Oid := Nat

inductive NullTestType
  | isNull
  | isNotNull
  deriving DecidableEq, Repr

inductive BoolTestType
  | isTrue
  | isNotTrue
  | isFalse
  | isNotFalse
  | isUnknown
  | isNotUnknown
  deriving DecidableEq, Repr

/-- AND or OR.  A NOT, which has one argument, is a constructor of its own. -/
inductive BoolExprType
  | and
  | or
  deriving DecidableEq, Repr

namespace BoolExprType

/-- The connective of the negated arguments. -/
def dual : BoolExprType → BoolExprType
  | and => or
  | or => and

/-- The truth value from those of the arguments. -/
def combine : BoolExprType → List (Option Bool) → Option Bool
  | and => conj
  | or => disj

section

variable (op : BoolExprType)
include op

theorem combine_singleton (a : Option Bool) : op.combine [a] = a := by
  cases op with
  | and => exact conj_singleton a
  | or => exact disj_singleton a

theorem combine_append (l l' : List (Option Bool)) :
    op.combine (l ++ l') = op.combine [op.combine l, op.combine l'] := by
  cases op with
  | and => exact conj_append l l'
  | or => exact disj_append l l'

theorem combine_cons (a : Option Bool) (l : List (Option Bool)) :
    op.combine (a :: l) = op.combine [a, op.combine l] := by
  have h := combine_append op [a] l
  rwa [combine_singleton] at h

theorem neg_combine {ι : Type*} (f : ι → Option Bool) (l : List ι) :
    neg (op.combine (l.map f)) = op.dual.combine (l.map fun x => neg (f x)) := by
  cases op with
  | and => exact neg_conj
  | or => exact neg_disj

end

end BoolExprType

inductive Expr (V : Type*)
  | var (n : Nat)
  | const (v : Option V)
  | opExpr (opno : Oid) (args : List (Expr V))
  | funcExpr (funcid : Oid) (args : List (Expr V))
  | scalarArrayOp (opno : Oid) (useOr : Bool) (scalar array : Expr V)
  | arrayExpr (elements : List (Expr V)) (multidims : Bool)
  | boolExpr (boolop : BoolExprType) (args : List (Expr V))
  | not (arg : Expr V)
  | nullTest (arg : Expr V) (nulltesttype : NullTestType) (argisrow : Bool)
  | booleanTest (arg : Expr V) (booltesttype : BoolTestType)
  | relabelType (arg : Expr V)
  | restrictInfo (clause : Expr V)

namespace Expr

variable {V : Type*}

@[match_pattern]
abbrev and (args : List (Expr V)) : Expr V := boolExpr .and args

@[match_pattern]
abbrev or (args : List (Expr V)) : Expr V := boolExpr .or args

/-- Which connective is at the top. -/
def boolop? : Expr V → Option BoolExprType
  | boolExpr op _ => some op
  | _ => none

/-- Whether an AND, an OR or a NOT is at the top. -/
def isConnective : Expr V → Bool
  | boolExpr _ _ => true
  | not _ => true
  | _ => false

/-! ### `equal()` -/

mutual

/-- Same node, same fields, equal subtrees. -/
def equal [DecidableEq V] : Expr V → Expr V → Bool
  | var n, var n' => n = n'
  | const v, const v' => v = v'
  | opExpr o args, opExpr o' args' => o = o' && equalList args args'
  | funcExpr f args, funcExpr f' args' => f = f' && equalList args args'
  | scalarArrayOp o u s a, scalarArrayOp o' u' s' a' => o = o' && u = u' && equal s s' && equal a a'
  | arrayExpr es m, arrayExpr es' m' => m = m' && equalList es es'
  | boolExpr op args, boolExpr op' args' => op = op' && equalList args args'
  | not e, not e' => equal e e'
  | nullTest e t r, nullTest e' t' r' => t = t' && r = r' && equal e e'
  | booleanTest e t, booleanTest e' t' => t = t' && equal e e'
  | relabelType e, relabelType e' => equal e e'
  | restrictInfo e, restrictInfo e' => equal e e'
  | _, _ => false

def equalList [DecidableEq V] : List (Expr V) → List (Expr V) → Bool
  | [], [] => true
  | e :: es, e' :: es' => equal e e' && equalList es es'
  | _, _ => false

end

mutual

theorem eq_of_equal [DecidableEq V] : ∀ {a b : Expr V}, equal a b = true → a = b
  | var n, b, h | const v, b, h => by cases b <;> simp_all [equal]
  | opExpr o args, b, h | funcExpr o args, b, h | arrayExpr es m, b, h | boolExpr op args, b, h => by
    cases b <;> simp only [equal, and_eq_true, decide_eq_true_eq, false_eq_true] at h
    rw [h.1, eq_of_equalList h.2]
  | scalarArrayOp o u s a, b, h => by
    cases b <;> simp only [equal, and_eq_true, decide_eq_true_eq, false_eq_true] at h
    rw [h.1.1.1, h.1.1.2, eq_of_equal h.1.2, eq_of_equal h.2]
  | not e, b, h | relabelType e, b, h | restrictInfo e, b, h => by
    cases b <;> simp only [equal, false_eq_true] at h
    rw [eq_of_equal h]
  | nullTest e t r, b, h => by
    cases b <;> simp only [equal, and_eq_true, decide_eq_true_eq, false_eq_true] at h
    rw [h.1.1, h.1.2, eq_of_equal h.2]
  | booleanTest e t, b, h => by
    cases b <;> simp only [equal, and_eq_true, decide_eq_true_eq, false_eq_true] at h
    rw [h.1, eq_of_equal h.2]

theorem eq_of_equalList [DecidableEq V] : ∀ {a b : List (Expr V)}, equalList a b = true → a = b
  | [], [], _ => rfl
  | [], _ :: _, h => by simp [equalList] at h
  | _ :: _, [], h => by simp [equalList] at h
  | e :: es, e' :: es', h => by
    simp only [equalList, and_eq_true] at h
    rw [eq_of_equal h.1, eq_of_equalList h.2]

end

mutual

theorem equal_self [DecidableEq V] : ∀ a : Expr V, equal a a = true
  | var n => by simp [equal]
  | const v => by simp [equal]
  | opExpr o args | funcExpr o args | boolExpr op args => by simp [equal, equalList_self args]
  | scalarArrayOp o u s a => by simp [equal, equal_self s, equal_self a]
  | arrayExpr es m => by simp [equal, equalList_self es]
  | not e | nullTest e t r | booleanTest e t | relabelType e | restrictInfo e =>
    by simp [equal, equal_self e]

theorem equalList_self [DecidableEq V] : ∀ a : List (Expr V), equalList a a = true
  | [] => rfl
  | e :: es => by simp [equalList, equal_self e, equalList_self es]

end

theorem equal_iff [DecidableEq V] {a b : Expr V} : equal a b = true ↔ a = b :=
  ⟨eq_of_equal, fun h => h ▸ equal_self a⟩

/-! ### Values -/

end Expr

/-- What the operators and functions do, and how booleans and arrays are kept in a datum. -/
structure Interp (V : Type*) where
  bool : Bool → V
  isTrue : V → Bool
  isTrue_bool : ∀ b, isTrue (bool b) = b
  array : List (Option V) → V
  elems : V → List (Option V)
  elems_array : ∀ l, elems (array l) = l
  op : Oid → List (Option V) → Option V
  func : Oid → List (Option V) → Option V
  /-- An ARRAY[] of arrays. -/
  multiArray : List (Option V) → Option V
  /-- A test of a row value. -/
  rowTest : NullTestType → Option V → Bool

/-- Wherever an operator has a negator, the negator gives the opposite truth value. -/
def NegatorsRight {V : Type*} (I : Interp V) (negator : Oid → Option Oid) : Prop :=
  ∀ opno neg', negator opno = some neg' → ∀ args,
    (I.op neg' args).map I.isTrue = neg ((I.op opno args).map I.isTrue)

/-- Numbers as data, with binary operators that are strict. -/
def Interp.ofNat (compare : Oid → Nat → Nat → Bool) : Interp Nat where
  bool b := b.toNat
  isTrue v := v ≠ 0
  isTrue_bool b := by cases b <;> rfl
  array := Encodable.encode
  elems := Denumerable.ofNat (List (Option Nat))
  elems_array := Denumerable.ofNat_encode
  op opno args :=
    match args with
    | [some a, some b] => some (compare opno a b).toNat
    | _ => none
  func _ _ := none
  multiArray _ := none
  rowTest _ _ := false

theorem Interp.isTrue_op_ofNat (compare : Oid → Nat → Nat → Bool) (opno : Oid)
    (a b : Option Nat) : ((Interp.ofNat compare).op opno [a, b]).map (Interp.ofNat compare).isTrue
      = a.bind fun a => b.map (compare opno a) := by
  cases a with
  | none => rfl
  | some a =>
    cases b with
    | none => rfl
    | some b => exact congrArg some ((Interp.ofNat compare).isTrue_bool (compare opno a b))

theorem Interp.negatorsRight_ofNat {compare : Oid → Nat → Nat → Bool}
    {negator : Oid → Option Oid} (h : ∀ opno neg', negator opno = some neg' → ∀ a b,
      compare neg' a b = !compare opno a b) : NegatorsRight (Interp.ofNat compare) negator := by
  intro opno neg' hneg args
  rcases args with - | ⟨a, - | ⟨b, - | ⟨c, args⟩⟩⟩
  · rfl
  · cases a <;> rfl
  · rw [isTrue_op_ofNat, isTrue_op_ofNat]
    cases a with
    | none => rfl
    | some a =>
      cases b with
      | none => rfl
      | some b => exact congrArg some (h opno neg' hneg a b)
  · cases a <;> cases b <;> rfl

namespace Expr

variable {V : Type*}

/-- `scalar op ANY (array)` or `scalar op ALL (array)`: unknown for a null array, else the
operator with every element in turn. -/
def saopTruth (I : Interp V) (opno : Oid) (useOr : Bool) (scalar array : Option V) : Option Bool :=
  array.bind fun a =>
    let results := (I.elems a).map fun e => (I.op opno [scalar, e]).map I.isTrue
    if useOr then disj results else conj results

/-- A test of a boolean, which is never unknown. -/
def boolTest (t : BoolTestType) (a : Option Bool) : Bool :=
  match t with
  | .isTrue => a = some true
  | .isNotTrue => a ≠ some true
  | .isFalse => a = some false
  | .isNotFalse => a ≠ some false
  | .isUnknown => a = none
  | .isNotUnknown => a ≠ none

/-- A test of whether a datum is null. -/
def nullTestValue (I : Interp V) (t : NullTestType) (argisrow : Bool) (v : Option V) : Bool :=
  if argisrow then I.rowTest t v
  else
    match t with
    | .isNull => v.isNone
    | .isNotNull => v.isSome

mutual

/-- The value in a row; `none` is null. -/
def eval (I : Interp V) (row : Nat → Option V) : Expr V → Option V
  | var n => row n
  | const v => v
  | opExpr opno args => I.op opno (evalList I row args)
  | funcExpr funcid args => I.func funcid (evalList I row args)
  | scalarArrayOp opno useOr scalar array =>
    (saopTruth I opno useOr (eval I row scalar) (eval I row array)).map I.bool
  | arrayExpr es multidims =>
    if multidims then I.multiArray (evalList I row es) else some (I.array (evalList I row es))
  | boolExpr op args => (op.combine ((evalList I row args).map fun v => v.map I.isTrue)).map I.bool
  | not arg => (neg ((eval I row arg).map I.isTrue)).map I.bool
  | nullTest arg t argisrow => some (I.bool (nullTestValue I t argisrow (eval I row arg)))
  | booleanTest arg t => some (I.bool (boolTest t ((eval I row arg).map I.isTrue)))
  | relabelType arg => eval I row arg
  | restrictInfo clause => eval I row clause

def evalList (I : Interp V) (row : Nat → Option V) : List (Expr V) → List (Option V)
  | [] => []
  | e :: es => eval I row e :: evalList I row es

end

/-- The truth value in a row. -/
def truth (I : Interp V) (row : Nat → Option V) (e : Expr V) : Option Bool :=
  (eval I row e).map I.isTrue

section Truth

variable (I : Interp V) (row : Nat → Option V)

theorem evalList_eq_map (es : List (Expr V)) : evalList I row es = es.map (eval I row) := by
  induction es with
  | nil => rfl
  | cons e es ih => rw [evalList, ih, List.map_cons]

theorem map_isTrue_bool (a : Option Bool) : (a.map I.bool).map I.isTrue = a := by
  cases a with
  | none => rfl
  | some b => simp [I.isTrue_bool]

theorem truth_boolExpr (op : BoolExprType) (args : List (Expr V)) :
    truth I row (.boolExpr op args) = op.combine (args.map (truth I row)) := by
  rw [truth, eval, map_isTrue_bool, evalList_eq_map, List.map_map]
  rfl

theorem truth_not (arg : Expr V) : truth I row (.not arg) = neg (truth I row arg) := by
  rw [truth, eval, map_isTrue_bool]
  rfl

theorem truth_opExpr (opno : Oid) (args : List (Expr V)) :
    truth I row (.opExpr opno args) = (I.op opno (args.map (eval I row))).map I.isTrue := by
  rw [truth, eval, evalList_eq_map]

theorem truth_scalarArrayOp (opno : Oid) (useOr : Bool) (scalar array : Expr V) :
    truth I row (.scalarArrayOp opno useOr scalar array)
      = saopTruth I opno useOr (eval I row scalar) (eval I row array) := by
  rw [truth, eval, map_isTrue_bool]

theorem truth_nullTest (arg : Expr V) (t : NullTestType) (argisrow : Bool) :
    truth I row (.nullTest arg t argisrow)
      = some (nullTestValue I t argisrow (eval I row arg)) := by
  rw [truth, eval, Option.map_some, I.isTrue_bool]

theorem truth_booleanTest (arg : Expr V) (t : BoolTestType) :
    truth I row (.booleanTest arg t) = some (boolTest t (truth I row arg)) := by
  rw [truth, eval, Option.map_some, I.isTrue_bool]
  rfl

end Truth

end Expr

end PrlPg
