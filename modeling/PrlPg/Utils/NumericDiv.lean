/-
Division of `numeric` variables, what is built on it, and conversions (utils/adt/numeric.c).

`div_var` works on one array with the dividend, of which the digits before the current one are
not looked at again: the state of its main loop is the rest of the array.  The divisor has a
zero in front, as in the workspace.
-/
import PrlPg.Utils.Numeric

namespace PrlPg.Numeric

open Radix

/-! ### Division -/

variable (arith : Arith)

/-- A step of scaling up: multiply a digit by `d`. -/
def scaleStep (d digit carry : Int) : Except Failure (Int × Int) := do
  let product ← arith.int32 (digit * d)
  let carry ← arith.int32 (carry + product)
  let digit ← arith.int16 (carry.tmod nbase)
  .ok (digit, carry.tdiv nbase)

/-- Scale up digits, where no carry is to come out. -/
def scaleUp (d : Int) (digits : List Int) : Except Failure (List Int) := do
  let r ← pass (scaleStep arith d) digits 0
  assert (r.2 = 0)
  .ok r.1

/-- The fast path for a single divisor digit: `n` quotient digits. -/
def divShort (arith : Arith) (divisor1 : Int) : Nat → List Int → Int → Except Failure (List Int)
  | 0, _, _ => .ok []
  | n + 1, dividend, carry => do
    let shifted ← arith.int32 (carry * nbase)
    let carry ← arith.int32 (shifted + dividend.headD 0)
    let digit ← arith.int16 (carry.tdiv divisor1)
    let rest ← divShort arith divisor1 n dividend.tail (carry.tmod divisor1)
    .ok (digit :: rest)

/-- The test whether the estimate of a quotient digit is too large. -/
def qhatTooLarge (divisor1 divisor2 next2digits third qhat : Int) :
    Except Failure Bool := do
  let product2 ← arith.int32 (divisor2 * qhat)
  let product1 ← arith.int32 (qhat * divisor1)
  let rest ← arith.int32 (next2digits - product1)
  let shifted ← arith.int32 (rest * nbase)
  let sum ← arith.int32 (shifted + third)
  .ok (decide (product2 > sum))

/-- Lower the estimate while it is too large. -/
def adjustQhat (arith : Arith) (divisor1 divisor2 next2digits third : Int) :
    Nat → Except Failure Int
  | 0 => do
    assert ((← qhatTooLarge arith divisor1 divisor2 next2digits third 0) = false)
    .ok 0
  | qhat + 1 => do
    if ← qhatTooLarge arith divisor1 divisor2 next2digits third (qhat + 1) then
      adjustQhat arith divisor1 divisor2 next2digits third qhat
    else .ok (qhat + 1)

/-- A step of subtracting a multiple of the divisor.  The digits are those of the divisor and
of the dividend; the state is the carry of the multiplication and the borrow. -/
def mulSubStep (qhat : Int) (d : Int × Int) (s : Int × Int) :
    Except Failure (Int × (Int × Int)) := do
  let product ← arith.int32 (d.1 * qhat)
  let carry ← arith.int32 (s.1 + product)
  let borrow ← arith.int32 (s.2 - carry.tmod nbase)
  let borrow ← arith.int32 (borrow + d.2)
  if borrow < 0 then do
    let digit ← arith.int16 (borrow + nbase)
    .ok (digit, (carry.tdiv nbase, -1))
  else do
    let digit ← arith.int16 borrow
    .ok (digit, (carry.tdiv nbase, 0))

/-- A step of adding the divisor back. -/
def addBackStep (d : Int × Int) (carry : Int) : Except Failure (Int × Int) := do
  let sum ← arith.int32 (d.2 + d.1)
  let carry ← arith.int32 (carry + sum)
  if carry ≥ nbase then do
    let digit ← arith.int16 (carry - nbase)
    .ok (digit, 1)
  else do
    let digit ← arith.int16 carry
    .ok (digit, 0)

/-- Subtract `qhat` times the divisor from the digits of the dividend above it; if that was
once too often, add the divisor back: the quotient digit and what is left. -/
def subtractMultiple (divisor digits : List Int) (qhat : Int) :
    Except Failure (Int × List Int) := do
  let r ← pass (mulSubStep arith qhat) (divisor.zip digits) (0, 0)
  assert (r.2.1 = 0)
  if r.2.2 ≠ 0 then do
    let back ← pass (addBackStep arith) (divisor.zip r.1) 0
    assert (back.2 = 1)
    .ok (qhat - 1, back.1)
  else .ok (qhat, r.1)

/-- One quotient digit, and the dividend from the next digit on. -/
def divDigit (divisor dividend : List Int) : Except Failure (Int × List Int) := do
  let divisor1 := digitAt divisor 1
  let divisor2 := digitAt divisor 2
  let shifted ← arith.int32 (digitAt dividend 0 * nbase)
  let next2digits ← arith.int32 (shifted + digitAt dividend 1)
  if next2digits = 0 then .ok (0, dividend.tail)
  else do
    let estimate := if digitAt dividend 0 = divisor1 then nbase - 1 else next2digits.tdiv divisor1
    let qhat ← adjustQhat arith divisor1 divisor2 next2digits (digitAt dividend 2) estimate.toNat
    if qhat > 0 then do
      let r ← subtractMultiple arith divisor (dividend.take divisor.length) qhat
      .ok (r.1, (r.2 ++ dividend.drop divisor.length).tail)
    else .ok (qhat, dividend.tail)

/-- The main loop: `n` quotient digits. -/
def divLoop (arith : Arith) (divisor : List Int) : Nat → List Int → Except Failure (List Int)
  | 0, _ => .ok []
  | n + 1, dividend => do
    let r ← divDigit arith divisor dividend
    let digit ← arith.int16 r.1
    let rest ← divLoop arith divisor n r.2
    .ok (digit :: rest)

/-- The full algorithm, with both operands scaled up so that the first divisor digit is at
least half of the base. -/
def divLong (divisor dividend : List Int) (n : Nat) : Except Failure (List Int) :=
  if digitAt divisor 1 < halfNbase then do
    let d := nbase.tdiv (digitAt divisor 1 + 1)
    let scaled ← scaleUp arith d divisor.tail
    let dividend ← scaleUp arith d dividend
    let divisor := 0 :: scaled
    assert (digitAt divisor 1 ≥ halfNbase)
    divLoop arith divisor n dividend
  else divLoop arith divisor n dividend

/-- The quotient digits: the fast path, or the full algorithm with a zero in front of both
operands. -/
def quotientDigits (divisor dividend : List Int) (n : Nat) :
    Except Failure (List Int) :=
  if divisor.length = 1 then divShort arith (digitAt divisor 0) n dividend 0
  else divLong arith (0 :: divisor) (0 :: dividend) n

/-- The number of quotient digits to compute. -/
def divNdigits (resWeight rscale : Int) (round : Bool) : Except Failure Int := do
  let padded ← arith.int32 (rscale + decDigits)
  let padded ← arith.int32 (padded - 1)
  let ndigits ← arith.int32 (resWeight + 1)
  let ndigits ← arith.int32 (ndigits + padded.tdiv decDigits)
  let ndigits := max ndigits 1
  if round then arith.int32 (ndigits + 1) else .ok ndigits

def divVar (var1 var2 : NumericVar) (rscale : Int) (round : Bool) :
    Except Failure NumericVar :=
  if var2.digits = [] ∨ digitAt var2.digits 0 = 0 then .error .divisionByZero
  else if var1.digits = [] then .ok { constZero with dscale := rscale }
  else do
    let resWeight ← arith.int32 (var1.weight - var2.weight)
    let resNdigits ← divNdigits arith resWeight rscale round
    let size ← arith.int32 (resNdigits + var2.digits.length)
    let divNdigits := max size var1.digits.length
    let space ← arith.int32 (divNdigits + var2.digits.length)
    let _ ← arith.int32 (space + 2)
    let dividend := var1.digits ++ List.replicate (divNdigits - var1.digits.length).toNat 0
    let digits ← quotientDigits arith var2.digits dividend resNdigits.toNat
    let result : NumericVar :=
      { digits := digits, weight := resWeight, sign := productSign var1.sign var2.sign,
        dscale := rscale }
    let wanted ← arith.int32 ((resWeight + 1) * decDigits)
    let di ← arith.int32 (wanted + rscale)
    let _ ← arith.int32 (di + decDigits)
    .ok (stripVar (if round then roundVar result rscale else truncVar result rscale))

/-! ### Modulus and floor -/

def floorVar (var : NumericVar) : NumericVar :=
  let tmp := truncVar var 0
  if var.sign = .neg ∧ cmpVar var tmp ≠ 0 then sub tmp constOne else tmp

/-! ### Division with a default scale -/

/-- The first digit that is not zero, with its weight. -/
def firstDigit : List Int → Int → Int × Int
  | [], _ => (0, 0)
  | d :: ds, weight => if d ≠ 0 then (d, weight) else firstDigit ds (weight - 1)

def selectDivScale (var1 var2 : NumericVar) : Int :=
  let first1 := firstDigit var1.digits var1.weight
  let first2 := firstDigit var2.digits var2.weight
  let qweight := first1.2 - first2.2
  let qweight := if first1.1 ≤ first2.1 then qweight - 1 else qweight
  let rscale := minSigDigits - qweight * decDigits
  let rscale := max rscale var1.dscale
  let rscale := max rscale var2.dscale
  let rscale := max rscale minDisplayScale
  min rscale maxDisplayScale

end PrlPg.Numeric
