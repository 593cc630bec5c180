/-
Pushing NOTs down and pulling common conditions out of ORs (optimizer/prep/prepqual.c).

`negator` is `get_negator`: the operator that gives the opposite result, if there is one.
`NULL` is `none`; `process_duplicate_ors` returns it for an empty list of arms, and with a
`NULL` among its arguments an expression is not one any more, so the whole is `none`.
-/
import PrlPg.Nodes.Expr

namespace PrlPg.PrepQual

variable {V : Type*}

/-! ### Lists of expressions -/

section Lists

variable [DecidableEq V]

def listMember (l : List (Expr V)) (datum : Expr V) : Bool := l.any fun e => e.equal datum

/-- `list_union`: append what is not there yet. -/
def listUnion (list1 list2 : List (Expr V)) : List (Expr V) :=
  list2.foldl (fun result e => if listMember result e then result else result ++ [e]) list1

def listDifference (list1 list2 : List (Expr V)) : List (Expr V) :=
  list1.filter fun e => !listMember list2 e

end Lists

/-! ### Flattening -/

mutual

/-- Flatten nested ANDs, or nested ORs, into one list of arguments. -/
def pullArgs (boolop : BoolExprType) : List (Expr V) → List (Expr V)
  | [] => []
  | subexpr :: rest => pullArg boolop subexpr ++ pullArgs boolop rest

/-- What one argument contributes. -/
def pullArg (boolop : BoolExprType) : Expr V → List (Expr V)
  | .boolExpr op args => if op = boolop then pullArgs boolop args else [.boolExpr op args]
  | subexpr => [subexpr]

end

def pullAnds (andlist : List (Expr V)) : List (Expr V) := pullArgs .and andlist

def pullOrs (orlist : List (Expr V)) : List (Expr V) := pullArgs .or orlist

/-! ### NOTs -/

mutual

/-- Look for NOTs in the AND/OR structure. -/
def findNots (negator : Oid → Option Oid) : Expr V → Expr V
  | .and args => .and (pullAnds (findNotsList negator args))
  | .or args => .or (pullOrs (findNotsList negator args))
  | .not arg => pushNots negator arg
  | qual => qual

def findNotsList (negator : Oid → Option Oid) : List (Expr V) → List (Expr V)
  | [] => []
  | e :: es => findNots negator e :: findNotsList negator es

/-- The negation of an expression, with the NOT as far down as possible. -/
def pushNots (negator : Oid → Option Oid) : Expr V → Expr V
  | .opExpr opno args =>
    match negator opno with
    | some neg => .opExpr neg args
    | none => .not (.opExpr opno args)
  | .scalarArrayOp opno useOr scalar array =>
    match negator opno with
    | some neg => .scalarArrayOp neg (!useOr) scalar array
    | none => .not (.scalarArrayOp opno useOr scalar array)
  | .and args => .or (pullOrs (pushNotsList negator args))
  | .or args => .and (pullAnds (pushNotsList negator args))
  | .not arg => findNots negator arg
  | qual => .not qual

def pushNotsList (negator : Oid → Option Oid) : List (Expr V) → List (Expr V)
  | [] => []
  | e :: es => pushNots negator e :: pushNotsList negator es

end

/-! ### Duplicate ORs -/

section Duplicates

variable [DecidableEq V]

/-- The shortest AND among the arms; an arm that is no AND counts as one of length one. -/
def chooseReference : List (Expr V) → List (Expr V) → Nat → List (Expr V)
  | [], reference, _ => reference
  | .and subclauses :: rest, reference, numSubclauses =>
    if reference.isEmpty ∨ subclauses.length < numSubclauses then
      chooseReference rest subclauses subclauses.length
    else chooseReference rest reference numSubclauses
  | clause :: _, _, _ => [clause]

/-- Whether an arm has `refclause` among its conditions. -/
def inArm (refclause : Expr V) : Expr V → Bool
  | .and args => listMember args refclause
  | clause => refclause.equal clause

/-- The arms without the winners; empty as soon as nothing is left of an arm. -/
def reduceArms (winners : List (Expr V)) : List (Expr V) → List (Expr V) → List (Expr V)
  | [], neworlist => neworlist
  | .and subclauses :: rest, neworlist =>
    match listDifference subclauses winners with
    | [] => []
    | [e] => reduceArms winners rest (neworlist ++ [e])
    | subclauses => reduceArms winners rest (neworlist ++ [.and subclauses])
  | clause :: rest, neworlist =>
    if !listMember winners clause then reduceArms winners rest (neworlist ++ [clause]) else []

/-- The clauses of the reference list that are in every arm. -/
def findWinners (orlist : List (Expr V)) : List (Expr V) :=
  let reference := listUnion [] (chooseReference orlist [] 0)
  reference.filter fun refclause => orlist.all (inArm refclause)

/-- Append the reduced OR to the winners, if it is not degenerate. -/
def appendReduced (winners neworlist : List (Expr V)) : List (Expr V) :=
  match neworlist with
  | [] => winners
  | [e] => winners ++ [e]
  | neworlist => winners ++ [.or (pullOrs neworlist)]

/-- The AND of the winners. -/
def joinWinners (winners : List (Expr V)) : Expr V :=
  match winners with
  | [e] => e
  | winners => .and (pullAnds winners)

/-- Apply the inverse distributive law to the arms of an OR. -/
def processDuplicateOrs (orlist : List (Expr V)) : Option (Expr V) :=
  match orlist with
  | [] => none
  | [e] => some e
  | orlist =>
    let winners := findWinners orlist
    if winners.isEmpty then some (.or orlist)
    else some (joinWinners (appendReduced winners (reduceArms winners orlist [])))

mutual

/-- Look for ORs to which the law may apply. -/
def findDuplicateOrs : Expr V → Option (Expr V)
  | .or args => (findDuplicateOrsList args).bind processDuplicateOrs
  | .and args => (findDuplicateOrsList args).map fun andlist => .and (pullAnds andlist)
  | qual => some qual

def findDuplicateOrsList : List (Expr V) → Option (List (Expr V))
  | [] => some []
  | e :: es =>
    match findDuplicateOrs e, findDuplicateOrsList es with
    | some e', some es' => some (e' :: es')
    | _, _ => none

end

/-- The most useful form of a qualification. -/
def canonicalizeQual (negator : Oid → Option Oid) (qual : Option (Expr V)) : Option (Expr V) :=
  match qual with
  | none => none
  | some qual => findDuplicateOrs (findNots negator qual)

end Duplicates

end PrlPg.PrepQual
