/-
Comparison of tuples by their sort keys (`utils/sort/tuplesort.c`).

DESC is realised by negating the `int32` that a support function returns, NULLS FIRST by a flag of
its own.  The negative of the smallest `int32` is not an `int32`, and the machine leaves the value
as it is.
-/
import Mathlib.Data.Int.Init

namespace PrlPg.SortKeys

variable {D T : Type*}

/-- The signs of a comparison make a total preorder. -/
structure Preorders (compare : T → T → Int) : Prop where
  swap : ∀ x y, compare x y < 0 ↔ 0 < compare y x
  trans : ∀ x y z, compare x y ≤ 0 → compare y z ≤ 0 → compare x z ≤ 0

/-- A comparison support function, whose results are any `int32`. -/
structure SortFunction (D : Type*) where
  compare : D → D → Int
  int32 : ∀ x y, -2147483648 ≤ compare x y ∧ compare x y < 2147483648
  preorders : Preorders compare

structure ScanKey (D : Type*) where
  func : SortFunction D
  attno : Nat
  /-- `SK_BT_DESC` of `sk_flags` -/
  desc : Bool
  /-- `SK_BT_NULLS_FIRST` of `sk_flags` -/
  nullsFirst : Bool

/-- A tuple with its leading key, `none` for a null. -/
structure SortTuple (D : Type*) where
  datum1 : Option D
  tuple : Nat → Option D

/-- `-x` in `int32`. -/
def negate (x : Int) : Int := (-x).bmod (2 * 2147483648)

/-- `inlineApplySortFunction`, over the negation that DESC applies. -/
def applySortFunction (negate : Int → Int) (key : ScanKey D) : Option D → Option D → Int
  | none, none => 0
  | none, some _ => if key.nullsFirst then -1 else 1
  | some _, none => if key.nullsFirst then 1 else -1
  | some x, some y => if key.desc then negate (key.func.compare x y) else key.func.compare x y

/-- A key with the way its datum is taken from a tuple. -/
abbrev Column (D : Type*) := ScanKey D × (SortTuple D → Option D)

def compareKeys (negate : Int → Int) (a b : SortTuple D) : List (Column D) → Int
  | [] => 0
  | (key, get) :: columns =>
    let compare := applySortFunction negate key (get a) (get b)
    if compare ≠ 0 then compare else compareKeys negate a b columns

/-- The datum of the leading key is kept in the `SortTuple`. -/
def columns : List (ScanKey D) → List (Column D)
  | [] => []
  | key :: keys => (key, SortTuple.datum1) :: keys.map fun key => (key, fun t => t.tuple key.attno)

def comparetupHeap (scanKeys : List (ScanKey D)) (a b : SortTuple D) : Int :=
  compareKeys negate a b (columns scanKeys)

/-- `sk_flags ^= (SK_BT_DESC | SK_BT_NULLS_FIRST)`. -/
def ScanKey.reverse (key : ScanKey D) : ScanKey D :=
  { key with desc := !key.desc, nullsFirst := !key.nullsFirst }

def reversedirectionHeap (scanKeys : List (ScanKey D)) : List (ScanKey D) :=
  scanKeys.map ScanKey.reverse

/-- What the support function of a key returns, if it is called. -/
def ScanKey.result (key : ScanKey D) : Option D → Option D → Option Int
  | some x, some y => some (key.func.compare x y)
  | _, _ => none

/-- The result of a support function that decides a comparison, if one does. -/
def decidingResult (a b : SortTuple D) : List (Column D) → Option Int
  | [] => none
  | (key, get) :: columns =>
    if applySortFunction (- ·) key (get a) (get b) ≠ 0 then key.result (get a) (get b)
    else decidingResult a b columns

end PrlPg.SortKeys
