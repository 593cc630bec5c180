/-
Reversing the direction of a sort.

With an exact negation the comparison of tuples is a total preorder, key by key, and the reversed
keys give the opposite result.  The negation of the machine differs from it for the smallest
`int32` only, so a comparison goes wrong just if such a result decides it.
-/
import PrlPg.Lib.MachineInt
import PrlPg.Utils.SortKeys

namespace PrlPg.SortKeys

variable {D T : Type*}

/-! ### With an exact negation -/

theorem Preorders.both {compare : T → T → Int} (h : Preorders compare) (x y : T) :
    (compare x y < 0 ↔ 0 < compare y x) ∧ (0 < compare x y ↔ compare y x < 0) :=
  ⟨h.swap x y, (h.swap y x).symm⟩

theorem preorders_applySortFunction (key : ScanKey D) : Preorders (applySortFunction (- ·) key) := by
  have hf := key.func.preorders
  constructor
  · rintro (_ | x) (_ | y)
    case some.some =>
      have hxy := hf.both x y
      simp only [applySortFunction]
      split_ifs <;> omega
    all_goals cases hn : key.nullsFirst <;> simp [applySortFunction, hn]
  rintro (_ | x) (_ | y) (_ | z)
  case some.some.some =>
    have hxy := hf.both x y
    have hyz := hf.both y z
    have hzx := hf.both z x
    have htrans := hf.trans x y z
    have htrans' := hf.trans z y x
    simp only [applySortFunction]
    split_ifs <;> omega
  all_goals cases hn : key.nullsFirst <;> simp [applySortFunction, hn]

/-- One comparison, and another one for what it leaves equal. -/
theorem Preorders.lex {r r' : T → T → Int} (h : Preorders r) (h' : Preorders r') :
    Preorders fun x y => if r x y ≠ 0 then r x y else r' x y := by
  constructor
  · intro x y
    have hxy := h.both x y
    have hxy' := h'.swap x y
    split_ifs <;> omega
  intro x y z
  have hxy := h.both x y
  have hyz := h.both y z
  have hzx := h.both z x
  have htrans := h.trans x y z
  have hzxy := h.trans z x y
  have hyzx := h.trans y z x
  have htrans' := h'.trans x y z
  split_ifs <;> omega

theorem preorders_compareKeys : ∀ columns : List (Column D),
    Preorders fun a b => compareKeys (- ·) a b columns
  | [] => ⟨fun _ _ => by simp [compareKeys], fun _ _ _ _ _ => le_rfl⟩
  | (key, get) :: columns => by
    have hkey := preorders_applySortFunction key
    have hget : Preorders fun a b => applySortFunction (- ·) key (get a) (get b) :=
      ⟨fun a b => hkey.swap _ _, fun a b c => hkey.trans _ _ _⟩
    exact hget.lex (preorders_compareKeys columns)

def Column.reverse (column : Column D) : Column D := (column.1.reverse, column.2)

theorem applySortFunction_reverse (key : ScanKey D) (x y : Option D) :
    applySortFunction (- ·) key.reverse x y = -applySortFunction (- ·) key x y := by
  cases x <;> cases y <;> cases hd : key.desc <;> cases hn : key.nullsFirst <;>
    simp [applySortFunction, ScanKey.reverse, hd, hn]

variable (a b : SortTuple D)

theorem compareKeys_reverse : ∀ columns : List (Column D),
    compareKeys (- ·) a b (columns.map Column.reverse) = -compareKeys (- ·) a b columns
  | [] => rfl
  | (key, get) :: columns => by
    simp only [List.map_cons, Column.reverse, compareKeys, applySortFunction_reverse, ne_eq,
      Int.neg_eq_zero, compareKeys_reverse columns]
    split_ifs <;> rfl

theorem decidingResult_reverse : ∀ columns : List (Column D),
    decidingResult a b (columns.map Column.reverse) = decidingResult a b columns
  | [] => rfl
  | (key, get) :: columns => by
    have hresult : key.reverse.result = key.result := rfl
    simp only [List.map_cons, Column.reverse, decidingResult, applySortFunction_reverse, ne_eq,
      Int.neg_eq_zero, hresult, decidingResult_reverse columns]

/-! ### With that of the machine -/

/-- The negation makes no difference, except for the smallest value, which it leaves as it is. -/
theorem applySortFunction_negate (key : ScanKey D) (x y : Option D) :
    if key.result x y = some (-2147483648) then
      applySortFunction negate key x y = -2147483648 ∧ applySortFunction (- ·) key x y ≠ 0
    else applySortFunction negate key x y = applySortFunction (- ·) key x y := by
  rcases x with _ | x <;> rcases y with _ | y
  case some.some =>
    have hrange := key.func.int32 x y
    simp only [ScanKey.result, applySortFunction, Option.some.injEq]
    split_ifs with hmin hdesc hdesc
    · rw [hmin]
      exact ⟨rfl, by decide⟩
    · omega
    · exact IntArith.bmod_of_range (n := 2147483648) (by omega) (by omega)
    · rfl
  all_goals simp [ScanKey.result, applySortFunction]

/-- The same for all keys: it is the key that decides that matters. -/
theorem compareKeys_negate : ∀ columns : List (Column D),
    if decidingResult a b columns = some (-2147483648) then
      compareKeys negate a b columns = -2147483648
    else compareKeys negate a b columns = compareKeys (- ·) a b columns
  | [] => by simp [decidingResult, compareKeys]
  | (key, get) :: columns => by
    have hkey := applySortFunction_negate key (get a) (get b)
    have ih := compareKeys_negate columns
    simp only [decidingResult, compareKeys]
    split_ifs at hkey ih ⊢ <;> simp_all

/-- Reversing the direction gives the opposite sign for all tuples and the comparison is a total
preorder: if and only if no comparison is decided by the smallest `int32`. -/
theorem reversal_right_iff (scanKeys : List (ScanKey D)) :
    (∀ a b, (comparetupHeap (reversedirectionHeap scanKeys) a b).sign =
        -(comparetupHeap scanKeys a b).sign) ∧ Preorders (comparetupHeap scanKeys) ↔
      ∀ a b, decidingResult a b (columns scanKeys) ≠ some (-2147483648) := by
  have hcolumns : columns (reversedirectionHeap scanKeys) =
      (columns scanKeys).map Column.reverse := by
    cases scanKeys with
    | nil => rfl
    | cons key keys => simp [reversedirectionHeap, columns, Column.reverse, ScanKey.reverse]
  have hreverse := fun a b => compareKeys_negate a b ((columns scanKeys).map Column.reverse)
  simp only [decidingResult_reverse] at hreverse
  simp only [comparetupHeap, hcolumns]
  constructor
  · rintro ⟨hsign, -⟩ a b hmin
    have hcmp := compareKeys_negate a b (columns scanKeys)
    have hrev := hreverse a b
    rw [if_pos hmin] at hcmp hrev
    have h := hsign a b
    rw [hcmp, hrev] at h
    cases h
  intro hmin
  have hcmp : comparetupHeap scanKeys = fun a b => compareKeys (- ·) a b (columns scanKeys) := by
    funext a b
    have hab := compareKeys_negate a b (columns scanKeys)
    rwa [if_neg (hmin a b)] at hab
  refine ⟨fun a b => ?_, hcmp ▸ preorders_compareKeys _⟩
  have hrev := hreverse a b
  rw [if_neg (hmin a b), compareKeys_reverse] at hrev
  rw [hrev, Int.sign_neg]
  exact congrArg _ (congrArg _ (congrFun (congrFun hcmp a) b).symm)

/-- A support function that returns the smallest value. -/
def falseFirst : SortFunction Bool where
  compare
    | false, true => -2147483648
    | true, false => 1
    | _, _ => 0
  int32 := by decide
  preorders := ⟨by decide, by decide⟩

/-- With it, `false` sorts before `true` in both directions. -/
theorem smallest_not_reversed :
    comparetupHeap [⟨falseFirst, 1, false, false⟩] ⟨some false, fun _ => none⟩
        ⟨some true, fun _ => none⟩ = -2147483648 ∧
      comparetupHeap (reversedirectionHeap [⟨falseFirst, 1, false, false⟩])
        ⟨some false, fun _ => none⟩ ⟨some true, fun _ => none⟩ = -2147483648 := by
  decide

end PrlPg.SortKeys
