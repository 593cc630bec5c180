/-
The arithmetic of `numeric` on variables (utils/adt/numeric.c).

A digit array is a list of base-10000 digits, the most significant one first, and a loop that
goes over the array from its end is a pass of `Lib/Radix`.  The spare digit in front of the
array, which takes the carry when rounding goes over the first digit, is always zero before:
it is not a part of the list, and a carry puts one more digit there.  Digits are integers and
not natural numbers since `mul_var` can store others.

`mul_var` and `div_var` send what they compute through an `IntArith`.  Weights, scales and
array indexes are plain integers, except for the sizes that `div_var` figures from the scale
it is given; `round_var` and `trunc_var` come in both ways, since the other routines call them
at positions for which nothing overflows.
-/
import PrlPg.Lib.Radix
import PrlPg.Lib.MachineInt
import Mathlib.Data.List.DropRight

namespace PrlPg.Numeric

open Radix

def nbase : Int := 10000

def halfNbase : Int := 5000

/-- Decimal digits in a digit. -/
def decDigits : Int := 4

def mulGuardDigits : Int := 2

def intMax : Int := 2147483647

def maxPrecision : Int := 1000

def maxDisplayScale : Int := maxPrecision

def minDisplayScale : Int := 0

def maxResultScale : Int := maxPrecision * 2

def minSigDigits : Int := 16

inductive Sign
  | pos
  | neg
  | nan
  deriving DecidableEq, Repr

structure NumericVar where
  digits : List Int
  weight : Int
  sign : Sign
  dscale : Int
  deriving DecidableEq, Repr

/-- What stops a computation: a signed integer overflow, a failed assertion, or an error that
is reported. -/
inductive Failure
  | intOverflow
  | assertion
  | divisionByZero
  | valueOverflows
  | integerOutOfRange
  | countNotPositive
  | boundsNan
  | boundsEqual
  | invalidSyntax
  | fieldOverflow (precision scale : Int)
  | invalidLength
  | invalidSign
  | invalidDigit
  | insufficientData
  deriving DecidableEq, Repr

abbrev Arith := IntArith Failure

/-- Machine arithmetic in which an overflow is a failure. -/
def checked : Arith := .checked .intOverflow

def assert (p : Prop) [Decidable p] : Except Failure Unit := if p then .ok () else .error .assertion

def constZero : NumericVar := { digits := [], weight := 0, sign := .pos, dscale := 0 }

def constOne : NumericVar := { digits := [1], weight := 0, sign := .pos, dscale := 0 }

/-- Set to zero; the display scale is not touched. -/
def zeroVar (var : NumericVar) : NumericVar := { var with digits := [], weight := 0, sign := .pos }

/-! ### Stripping and rounding -/

/-- The digits without the zeroes at both ends. -/
def stripDigits (digits : List Int) : List Int := (digits.dropWhile (· == 0)).rdropWhile (· == 0)

def stripVar (var : NumericVar) : NumericVar :=
  let leading := (var.digits.takeWhile (· == 0)).length
  let digits := stripDigits var.digits
  if digits = [] then { var with digits := [], weight := 0, sign := .pos }
  else { var with digits := digits, weight := var.weight - leading }

def roundPowers (di : Int) : Int :=
  if di = 1 then 1000 else if di = 2 then 100 else if di = 3 then 10 else 0

/-- Propagate a carry; without one the digit is not touched. -/
def carryInto (digit carry : Int) : Int × Int :=
  if carry = 0 then (digit, 0)
  else if carry + digit ≥ nbase then (carry + digit - nbase, 1)
  else (carry + digit, 0)

/-- Round within a digit, of which the last decimals go: the digit and the carry. -/
def roundWithin (digit pow10 : Int) : Int × Int :=
  let extra := digit.tmod pow10
  let digit := digit - extra
  if extra ≥ pow10 / 2 then
    if pow10 + digit ≥ nbase then (pow10 + digit - nbase, 1) else (pow10 + digit, 0)
  else (digit, 0)

/-- Round at the digit `ndigits`, of which `di` decimals are kept, or none and the whole
digit before it if `di` is zero: the digits and the carry out of the first one. -/
def roundDigits (digits : List Int) (ndigits : Nat) (di : Int) : List Int × Int :=
  if di = 0 then
    run carryInto (digits.take ndigits) (if digitAt digits ndigits ≥ halfNbase then 1 else 0)
  else
    let last := roundWithin (digitAt digits (ndigits - 1)) (roundPowers di)
    let r := run carryInto (digits.take (ndigits - 1)) last.2
    (r.1 ++ [last.1], r.2)

/-- `round_var` when `di` decimal digits are wanted; `up` is what `ndigits` is the quotient of. -/
def roundAt (var : NumericVar) (rscale di up : Int) : NumericVar :=
  if di < 0 then { digits := [], weight := 0, sign := .pos, dscale := rscale }
  else
    let ndigits := (up / decDigits).toNat
    let di := di % decDigits
    if ndigits < var.digits.length ∨ ndigits = var.digits.length ∧ di > 0 then
      let r := roundDigits var.digits ndigits di
      if r.2 ≠ 0 then
        { var with digits := r.2 :: r.1, weight := var.weight + 1, dscale := rscale }
      else { var with digits := r.1, dscale := rscale }
    else { var with dscale := rscale }

def truncAt (var : NumericVar) (rscale di up : Int) : NumericVar :=
  if di ≤ 0 then { digits := [], weight := 0, sign := .pos, dscale := rscale }
  else
    let ndigits := (up / decDigits).toNat
    if ndigits ≤ var.digits.length then
      let di := di % decDigits
      if di > 0 then
        let last := digitAt var.digits (ndigits - 1)
        let extra := last.tmod (roundPowers di)
        { var with digits := var.digits.take (ndigits - 1) ++ [last - extra], dscale := rscale }
      else { var with digits := var.digits.take ndigits, dscale := rscale }
    else { var with dscale := rscale }

def roundVar (var : NumericVar) (rscale : Int) : NumericVar :=
  let di := (var.weight + 1) * decDigits + rscale
  roundAt var rscale di (di + decDigits - 1)

def truncVar (var : NumericVar) (rscale : Int) : NumericVar :=
  let di := (var.weight + 1) * decDigits + rscale
  truncAt var rscale di (di + decDigits - 1)

variable (arith : Arith)

/-- The decimal digits wanted, as an `int`. -/
def digitsWanted (weight rscale : Int) : Except Failure Int := do
  let weight ← arith.int32 (weight + 1)
  let before ← arith.int32 (weight * decDigits)
  arith.int32 (before + rscale)

/-- `round_var` with the `int`s it computes. -/
def roundVarInt (var : NumericVar) (rscale : Int) : Except Failure NumericVar := do
  let di ← digitsWanted arith var.weight rscale
  let up ← if di < 0 then .ok 0 else arith.int32 (di + decDigits - 1)
  .ok (roundAt var rscale di up)

/-- `trunc_var` with the `int`s it computes. -/
def truncVarInt (var : NumericVar) (rscale : Int) : Except Failure NumericVar := do
  let di ← digitsWanted arith var.weight rscale
  let up ← if di ≤ 0 then .ok 0 else arith.int32 (di + decDigits - 1)
  .ok (truncAt var rscale di up)

/-! ### Comparison -/

/-- Pass over the digits before the first common weight; `none` if one of them is not zero. -/
def skipHigh : List Int → Int → Int → Option (List Int × Int)
  | [], weight, _ => some ([], weight)
  | d :: ds, weight, other =>
    if weight > other then if d ≠ 0 then none else skipHigh ds (weight - 1) other
    else some (d :: ds, weight)

/-- The digits that are left on one side or the other. -/
def cmpRest (digits1 digits2 : List Int) : Int :=
  if digits1.any (· ≠ 0) then 1 else if digits2.any (· ≠ 0) then -1 else 0

def cmpDigits : List Int → List Int → Int
  | d :: ds, e :: es => if d - e ≠ 0 then if d - e > 0 then 1 else -1 else cmpDigits ds es
  | ds, es => cmpRest ds es

def cmpAbsCommon (digits1 : List Int) (weight1 : Int) (digits2 : List Int) (weight2 : Int) : Int :=
  match skipHigh digits1 weight1 weight2 with
  | none => 1
  | some (digits1, weight1) =>
    match skipHigh digits2 weight2 weight1 with
    | none => -1
    | some (digits2, weight2) =>
      if weight1 = weight2 then cmpDigits digits1 digits2 else cmpRest digits1 digits2

def cmpAbs (var1 var2 : NumericVar) : Int :=
  cmpAbsCommon var1.digits var1.weight var2.digits var2.weight

def cmpVar (var1 var2 : NumericVar) : Int :=
  if var1.digits = [] then
    if var2.digits = [] then 0 else if var2.sign = .neg then 1 else -1
  else if var2.digits = [] then if var1.sign = .pos then 1 else -1
  else if var1.sign = .pos then if var2.sign = .neg then 1 else cmpAbs var1 var2
  else if var2.sign = .pos then -1
  else cmpAbs var2 var1

/-! ### Addition and subtraction -/

/-- The number of digits after the point that a result needs. -/
def resRscale (var1 var2 : NumericVar) : Int :=
  max (var1.digits.length - var1.weight - 1) (var2.digits.length - var2.weight - 1)

def resNdigits (var1 var2 : NumericVar) (resWeight : Int) : Nat :=
  if resRscale var1 var2 + resWeight + 1 ≤ 0 then 1
  else (resRscale var1 var2 + resWeight + 1).toNat

/-- The digits of two variables, one below the other. -/
def alignedDigits (var1 var2 : NumericVar) (resWeight : Int) : List (Int × Int) :=
  let n := resNdigits var1 var2 resWeight
  (window var1.digits (resRscale var1 var2 + var1.weight + 1 - n) n).zip
    (window var2.digits (resRscale var1 var2 + var2.weight + 1 - n) n)

def addDigit (d : Int × Int) (carry : Int) : Int × Int :=
  let carry := carry + d.1 + d.2
  if carry ≥ nbase then (carry - nbase, 1) else (carry, 0)

def subDigit (d : Int × Int) (borrow : Int) : Int × Int :=
  let borrow := borrow + d.1 - d.2
  if borrow < 0 then (borrow + nbase, -1) else (borrow, 0)

/-- `add_abs` and `sub_abs`: the digits come from a pass over those of the operands; the sign
is what was in the result before. -/
def combineAbs (step : Int × Int → Int → Int × Int) (resWeight : Int)
    (var1 var2 result : NumericVar) : NumericVar :=
  stripVar
    { digits := (run step (alignedDigits var1 var2 resWeight) 0).1
      weight := resWeight
      sign := result.sign
      dscale := max var1.dscale var2.dscale }

def addAbs (var1 var2 result : NumericVar) : NumericVar :=
  combineAbs addDigit (max var1.weight var2.weight + 1) var1 var2 result

def subAbs (var1 var2 result : NumericVar) : NumericVar :=
  combineAbs subDigit var1.weight var1 var2 result

/-- Variables by their address: operands and result may be the same variable. -/
abbrev Vars := Nat → NumericVar

def Vars.setSign (vars : Vars) (result : Nat) (sign : Sign) : Vars :=
  Function.update vars result { vars result with sign := sign }

/-- Add the absolute values and set the sign. -/
def addWithSign (vars : Vars) (var1 var2 result : Nat) (sign : Sign) : Vars :=
  Vars.setSign (Function.update vars result (addAbs (vars var1) (vars var2) (vars result)))
    result sign

/-- Subtract the absolute values and set the sign. -/
def subWithSign (vars : Vars) (var1 var2 result : Nat) (sign : Sign) : Vars :=
  Vars.setSign (Function.update vars result (subAbs (vars var1) (vars var2) (vars result)))
    result sign

/-- Subtract the smaller absolute value from the larger one; the sign is the first one given if
that of `var1` is larger. -/
def subSmaller (vars : Vars) (var1 var2 result : Nat) (sign1 sign2 : Sign) : Vars :=
  let cmp := cmpAbs (vars var1) (vars var2)
  if cmp = 0 then
    let vars := Function.update vars result (zeroVar (vars result))
    Function.update vars result
      { vars result with dscale := max (vars var1).dscale (vars var2).dscale }
  else if cmp = 1 then subWithSign vars var1 var2 result sign1
  else subWithSign vars var2 var1 result sign2

def addVar (vars : Vars) (var1 var2 result : Nat) : Vars :=
  if (vars var1).sign = .pos then
    if (vars var2).sign = .pos then addWithSign vars var1 var2 result .pos
    else subSmaller vars var1 var2 result .pos .neg
  else
    if (vars var2).sign = .pos then subSmaller vars var1 var2 result .neg .pos
    else addWithSign vars var1 var2 result .neg

def subVar (vars : Vars) (var1 var2 result : Nat) : Vars :=
  if (vars var1).sign = .pos then
    if (vars var2).sign = .neg then addWithSign vars var1 var2 result .pos
    else subSmaller vars var1 var2 result .pos .neg
  else
    if (vars var2).sign = .neg then subSmaller vars var1 var2 result .neg .pos
    else addWithSign vars var1 var2 result .neg

/-- Three variables, of which the third is for the result. -/
def Vars.ofTwo (var1 var2 : NumericVar) : Vars
  | 0 => var1
  | 1 => var2
  | _ => constZero

/-- The sum, in a variable of its own. -/
def add (var1 var2 : NumericVar) : NumericVar := addVar (.ofTwo var1 var2) 0 1 2 2

/-- The difference, in a variable of its own. -/
def sub (var1 var2 : NumericVar) : NumericVar := subVar (.ofTwo var1 var2) 0 1 2 2

/-! ### Multiplication -/

/-- The digits of the operands that are used, so that the result has no more than `maxdigits`;
`none` if there would be no useful ones. -/
def clipDigits (ndigits1 ndigits2 : Nat) (maxdigits : Int) : Option (Nat × Nat) :=
  let resNdigits : Int := ndigits1 + ndigits2 + 1
  if resNdigits > maxdigits then
    if maxdigits < 3 then none
    else
      let maxdigits := if maxdigits % 2 = 0 then maxdigits + 1 else maxdigits
      if ndigits1 > ndigits2 then
        let n : Int := ndigits1 - (resNdigits - maxdigits)
        if n < ndigits2 then some (((n + ndigits2) / 2).toNat, ((n + ndigits2) / 2).toNat)
        else some (n.toNat, ndigits2)
      else
        let n : Int := ndigits2 - (resNdigits - maxdigits)
        if n < ndigits1 then some (((ndigits1 + n) / 2).toNat, ((ndigits1 + n) / 2).toNat)
        else some (ndigits1, n.toNat)
  else some (ndigits1, ndigits2)

/-- A step of carry propagation over the accumulators. -/
def carryStep (dig carry : Int) : Except Failure (Int × Int) := do
  let newdig ← arith.int32 (dig + carry)
  if newdig ≥ nbase then
    let carry := newdig / nbase
    .ok (newdig - carry * nbase, carry)
  else .ok (newdig, 0)

/-- The last propagation stores the digits into the output. -/
def storeStep (dig carry : Int) : Except Failure (Int × Int) := do
  let r ← carryStep arith dig carry
  let digit ← arith.int16 r.1
  .ok (digit, r.2)

/-- Add a multiple of the second operand to accumulators. -/
def addMultiple (arith : Arith) (var1digit : Int) : List Int → List Int → Except Failure (List Int)
  | dig :: digs, d :: ds => do
    let product ← arith.int32 (var1digit * d)
    let sum ← arith.int32 (dig + product)
    let rest ← addMultiple arith var1digit digs ds
    .ok (sum :: rest)
  | digs, _ => .ok digs

/-- Take the digits of the first operand from the last one on.  `maxdig` is a bound for the
accumulators, divided by `nbase - 1`; when they might overflow, carries are propagated. -/
def mulLoop (arith : Arith) (var2digits : List Int) :
    List Int → List Int → Int → Except Failure (List Int)
  | [], dig, _ => .ok dig
  | var1digit :: rest, dig, maxdig =>
    if var1digit = 0 then mulLoop arith var2digits rest dig maxdig
    else
      let maxdig := maxdig + var1digit
      let row (dig : List Int) : Except Failure (List Int) := do
        let sums ← addMultiple arith var1digit (dig.drop (rest.length + 2)) var2digits
        .ok (dig.take (rest.length + 2) ++ sums)
      if maxdig > intMax / (nbase - 1) then do
        let r ← pass (carryStep arith) dig 0
        let dig ← row r.1
        mulLoop arith var2digits rest dig (1 + var1digit)
      else do
        let dig ← row dig
        mulLoop arith var2digits rest dig maxdig

/-- The digits of a product. -/
def mulDigits (digits1 digits2 : List Int) : Except Failure (List Int) := do
  let dig ← mulLoop arith digits2 digits1.reverse
    (List.replicate (digits1.length + digits2.length + 1) 0) 0
  let r ← pass (storeStep arith) dig 0
  .ok r.1

def productSign (sign1 sign2 : Sign) : Sign := if sign1 = sign2 then .pos else .neg

def mulVar (var1 var2 : NumericVar) (rscale : Int) : Except Failure NumericVar :=
  if var1.digits = [] ∨ var2.digits = [] then .ok { constZero with dscale := rscale }
  else
    let resWeight := var1.weight + var2.weight + 2
    let maxdigits := resWeight + 1 + rscale * decDigits + mulGuardDigits
    match clipDigits var1.digits.length var2.digits.length maxdigits with
    | none => .ok { constZero with dscale := rscale }
    | some (ndigits1, ndigits2) => do
      let digits ← mulDigits arith (var1.digits.take ndigits1) (var2.digits.take ndigits2)
      .ok (stripVar (roundVar
        { digits := digits, weight := resWeight, sign := productSign var1.sign var2.sign,
          dscale := rscale } rscale))

end PrlPg.Numeric
