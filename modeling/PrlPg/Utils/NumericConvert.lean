/-
Stored `numeric` values, and their conversion from and to integers (utils/adt/numeric.c).

A stored value has the fields of a variable, with an `int16` weight and fourteen bits for the
display scale.  Leading and trailing zero digits are not stored.
-/
import PrlPg.Utils.NumericDiv

namespace PrlPg.Numeric

open Radix

/-- A stored value. -/
structure NumericData where
  digits : List Int
  weight : Int
  sign : Sign
  dscale : Int
  deriving DecidableEq, Repr

def setVarFromNum (num : NumericData) : NumericVar where
  digits := num.digits
  weight := num.weight
  sign := num.sign
  dscale := num.dscale

/-- A value as `int16`. -/
def toInt16 (x : Int) : Int := x.bmod 65536

/-- `NUMERIC_DSCALE_MASK`. -/
def dscaleMask : Nat := 0x3FFF

def makeResult (var : NumericVar) : Except Failure NumericData :=
  if var.sign = .nan then .ok { digits := [], weight := 0, sign := .nan, dscale := 0 }
  else
    let leading := (var.digits.takeWhile (· == 0)).length
    let digits := stripDigits var.digits
    let weight := if digits = [] then 0 else var.weight - leading
    let result : NumericData :=
      { digits := digits
        weight := toInt16 weight
        sign := if digits = [] then .pos else var.sign
        -- the lowest fourteen bits
        dscale := var.dscale % (dscaleMask + 1) }
    if result.weight ≠ weight ∨ result.dscale ≠ var.dscale then .error .valueOverflows
    else .ok result

def numericMul (arith : Arith) (num1 num2 : NumericData) : Except Failure NumericData :=
  if num1.sign = .nan ∨ num2.sign = .nan then
    makeResult { digits := [], weight := 0, sign := .nan, dscale := 0 }
  else do
    let arg1 := setVarFromNum num1
    let arg2 := setVarFromNum num2
    let result ← mulVar arith arg1 arg2 (arg1.dscale + arg2.dscale)
    makeResult result

/-! ### Integers -/

/-- A value as `int64`. -/
def toInt64 (x : Int) : Int := x.bmod 18446744073709551616

/-- The digits after the first one: `n` of them are to come, and zeroes if the list has fewer.
`none` is an overflow. -/
def int8Loop (neg : Bool) : Nat → List Int → Int → Option Int
  | 0, _, val => some val
  | n + 1, digits, oldval =>
    let val := toInt64 (oldval * nbase)
    let val := toInt64 (val + digits.headD 0)
    if val.tdiv nbase ≠ oldval ∧
        (neg = false ∨ toInt64 (-val) ≠ val ∨ val = 0 ∨ oldval < 0) then none
    else int8Loop neg n digits.tail val

/-- `none` is the result false. -/
def numericvarToInt8 (var : NumericVar) : Option Int :=
  let var := stripVar (roundVar var 0)
  match var.digits with
  | [] => some 0
  | d :: ds =>
    let neg : Bool := var.sign = .neg
    (int8Loop neg var.weight.toNat ds d).map fun val => if neg then toInt64 (-val) else val

/-- The digits of an unsigned number, from the last one; five are enough for 64 bits. -/
def int8Digits : Nat → Nat → List Int → List Int
  | 0, _, digits => digits
  | fuel + 1, uval, digits =>
    let newuval := uval / 10000
    let digits := ((uval - newuval * 10000 : Nat) : Int) :: digits
    if newuval = 0 then digits else int8Digits fuel newuval digits

def int8ToNumericvar (val : Int) : NumericVar :=
  let sign : Sign := if val < 0 then .neg else .pos
  let uval := if val < 0 then (-val).toNat else val.toNat
  if val = 0 then { digits := [], weight := 0, sign := sign, dscale := 0 }
  else
    let digits := int8Digits 5 uval []
    { digits := digits, weight := digits.length - 1, sign := sign, dscale := 0 }

/-- A value as `int32`. -/
def toInt32 (x : Int) : Int := x.bmod 4294967296

def numericvarToInt4 (var : NumericVar) : Except Failure Int :=
  match numericvarToInt8 var with
  | none => .error .integerOutOfRange
  | some val => if toInt32 val ≠ val then .error .integerOutOfRange else .ok (toInt32 val)

/-! ### Comparison -/

/-- `cmp_numerics`, with a NaN above every other value. -/
def cmpNumerics (num1 num2 : NumericData) : Int :=
  if num1.sign = .nan then if num2.sign = .nan then 0 else 1
  else if num2.sign = .nan then -1
  else cmpVar (setVarFromNum num1) (setVarFromNum num2)

/-- `hash_numeric`, for any `hash_any`.  Each zero digit that is skipped at the front lowers the
weight. -/
def hashNumeric (hashAny : List Int → BitVec 64) (key : NumericData) : BitVec 64 :=
  if key.sign = .nan then 0
  else
    let digits := key.digits.dropWhile (· == 0)
    let weight := key.weight - (key.digits.takeWhile (· == 0)).length
    if digits = [] then 0xFFFFFFFF
    else hashAny (digits.rdropWhile (· == 0)) ^^^ BitVec.ofInt 64 weight

/-! ### Histogram buckets -/

def computeBucket (arith : Arith) (operand bound1 bound2 : NumericData) (countVar : NumericVar) :
    Except Failure NumericVar := do
  let bound1Var := setVarFromNum bound1
  let bound2Var := setVarFromNum bound2
  let operandVar := setVarFromNum operand
  let resultVar ←
    if cmpVar bound1Var bound2Var < 0 then
      let operandVar := sub operandVar bound1Var
      let bound2Var := sub bound2Var bound1Var
      divVar arith operandVar bound2Var (selectDivScale operandVar bound2Var) true
    else
      let operandVar := sub bound1Var operandVar
      let bound1Var := sub bound1Var bound2Var
      divVar arith operandVar bound1Var (selectDivScale operandVar bound1Var) true
  let resultVar ← mulVar arith resultVar countVar (resultVar.dscale + countVar.dscale)
  .ok (floorVar (add resultVar constOne))

def widthBucketNumeric (arith : Arith) (operand bound1 bound2 : NumericData) (count : Int) :
    Except Failure Int := do
  if count ≤ 0 then .error .countNotPositive
  else if operand.sign = .nan ∨ bound1.sign = .nan ∨ bound2.sign = .nan then .error .boundsNan
  else
    let countVar := int8ToNumericvar count
    let cmp := cmpNumerics bound1 bound2
    let resultVar ←
      if cmp = 0 then .error .boundsEqual
      else if cmp < 0 then
        if cmpNumerics operand bound1 < 0 then .ok constZero
        else if cmpNumerics operand bound2 ≥ 0 then .ok (add countVar constOne)
        else computeBucket arith operand bound1 bound2 countVar
      else
        if cmpNumerics operand bound1 > 0 then .ok constZero
        else if cmpNumerics operand bound2 ≤ 0 then .ok (add countVar constOne)
        else computeBucket arith operand bound1 bound2 countVar
    numericvarToInt4 resultVar

end PrlPg.Numeric
