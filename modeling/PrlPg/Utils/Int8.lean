/-
The arithmetic operators on 64-bit integers (utils/adt/int8.c).

Sums, differences and products wrap around.  A division or a remainder of the machine traps if
the divisor is zero or the quotient does not fit, so each of them is a step that may fail.
-/
import Mathlib.Data.BitVec

namespace PrlPg.Int8

abbrev Int64 := BitVec 64

abbrev Int32 := BitVec 32

/-- How an operator ends without a value: by one of the errors that it reports, or in the
division of the machine. -/
inductive Failure
  /-- `ERRCODE_NUMERIC_VALUE_OUT_OF_RANGE`, "bigint out of range" -/
  | outOfRange
  /-- `ERRCODE_DIVISION_BY_ZERO`, "division by zero" -/
  | divisionByZero
  | trap
  deriving DecidableEq, Repr

/-- The macro `SAMESIGN`. -/
def sameSign (a b : Int64) : Bool := a.slt 0 == b.slt 0

/-- The conversion of an `int32` to an `int64`. -/
def widen (arg : Int32) : Int64 := arg.signExtend 64

def machineTraps (a b : Int64) : Prop := b = 0 ∨ a = BitVec.intMin 64 ∧ b = -1

instance (a b : Int64) : Decidable (machineTraps a b) := inferInstanceAs (Decidable (_ ∨ _))

/-- The operator `/` of the machine. -/
def machineDiv (a b : Int64) : Except Failure Int64 :=
  if machineTraps a b then .error .trap else .ok (a.sdiv b)

/-- The operator `%` of the machine. -/
def machineMod (a b : Int64) : Except Failure Int64 :=
  if machineTraps a b then .error .trap else .ok (a.srem b)

def int8um (arg : Int64) : Except Failure Int64 :=
  let result := -arg
  if arg ≠ 0 ∧ sameSign result arg then .error .outOfRange else .ok result

/-! ### Sums and differences -/

def plus (arg1 arg2 : Int64) : Except Failure Int64 :=
  let result := arg1 + arg2
  if sameSign arg1 arg2 ∧ ¬ sameSign result arg1 then .error .outOfRange else .ok result

def minus (arg1 arg2 : Int64) : Except Failure Int64 :=
  let result := arg1 - arg2
  if ¬ sameSign arg1 arg2 ∧ ¬ sameSign result arg1 then .error .outOfRange else .ok result

def int8pl (arg1 arg2 : Int64) : Except Failure Int64 := plus arg1 arg2

def int8mi (arg1 arg2 : Int64) : Except Failure Int64 := minus arg1 arg2

def int84pl (arg1 : Int64) (arg2 : Int32) : Except Failure Int64 := plus arg1 (widen arg2)

def int84mi (arg1 : Int64) (arg2 : Int32) : Except Failure Int64 := minus arg1 (widen arg2)

def int48pl (arg1 : Int32) (arg2 : Int64) : Except Failure Int64 := plus (widen arg1) arg2

def int48mi (arg1 : Int32) (arg2 : Int64) : Except Failure Int64 := minus (widen arg1) arg2

/-! ### Products -/

/-- The test `arg == (int64) ((int32) arg)`. -/
def fitsInt32 (arg : Int64) : Prop := arg = widen (arg.setWidth 32)

instance (arg : Int64) : Decidable (fitsInt32 arg) := inferInstanceAs (Decidable (_ = _))

def int8mul (arg1 arg2 : Int64) : Except Failure Int64 :=
  let result := arg1 * arg2
  if ¬ fitsInt32 arg1 ∨ ¬ fitsInt32 arg2 then
    if arg2 ≠ 0 then do
      let quotient ← machineDiv result arg2
      if quotient ≠ arg1 ∨ arg2 = -1 ∧ arg1.slt 0 ∧ result.slt 0 then .error .outOfRange
      else .ok result
    else .ok result
  else .ok result

/-- The product of a 64-bit and a 32-bit operand, checked with a division by the former. -/
def timesInt32 (result divisor other : Int64) : Except Failure Int64 :=
  if ¬ fitsInt32 divisor then do
    let quotient ← machineDiv result divisor
    if quotient ≠ other then .error .outOfRange else .ok result
  else .ok result

def int84mul (arg1 : Int64) (arg2 : Int32) : Except Failure Int64 :=
  timesInt32 (arg1 * widen arg2) arg1 (widen arg2)

def int48mul (arg1 : Int32) (arg2 : Int64) : Except Failure Int64 :=
  timesInt32 (widen arg1 * arg2) arg2 (widen arg1)

/-! ### Quotients and remainders -/

def divide (arg1 arg2 : Int64) : Except Failure Int64 :=
  if arg2 = 0 then .error .divisionByZero
  else do
    let result ← machineDiv arg1 arg2
    if arg2 = -1 ∧ arg1.slt 0 ∧ result.sle 0 then .error .outOfRange else .ok result

def int8div (arg1 arg2 : Int64) : Except Failure Int64 := divide arg1 arg2

def int84div (arg1 : Int64) (arg2 : Int32) : Except Failure Int64 := divide arg1 (widen arg2)

def int48div (arg1 : Int32) (arg2 : Int64) : Except Failure Int64 :=
  if arg2 = 0 then .error .divisionByZero else machineDiv (widen arg1) arg2

def int8mod (arg1 arg2 : Int64) : Except Failure Int64 :=
  if arg2 = 0 then .error .divisionByZero else machineMod arg1 arg2

/-! ### The operators together -/

inductive Call
  | int8um (arg : Int64)
  | int8pl (arg1 arg2 : Int64)
  | int8mi (arg1 arg2 : Int64)
  | int8mul (arg1 arg2 : Int64)
  | int8div (arg1 arg2 : Int64)
  | int8mod (arg1 arg2 : Int64)
  | int84pl (arg1 : Int64) (arg2 : Int32)
  | int84mi (arg1 : Int64) (arg2 : Int32)
  | int84mul (arg1 : Int64) (arg2 : Int32)
  | int84div (arg1 : Int64) (arg2 : Int32)
  | int48pl (arg1 : Int32) (arg2 : Int64)
  | int48mi (arg1 : Int32) (arg2 : Int64)
  | int48mul (arg1 : Int32) (arg2 : Int64)
  | int48div (arg1 : Int32) (arg2 : Int64)
  deriving DecidableEq, Repr

def Call.run : Call → Except Failure Int64
  | int8um a => Int8.int8um a
  | int8pl a b => Int8.int8pl a b
  | int8mi a b => Int8.int8mi a b
  | int8mul a b => Int8.int8mul a b
  | int8div a b => Int8.int8div a b
  | int8mod a b => Int8.int8mod a b
  | int84pl a b => Int8.int84pl a b
  | int84mi a b => Int8.int84mi a b
  | int84mul a b => Int8.int84mul a b
  | int84div a b => Int8.int84div a b
  | int48pl a b => Int8.int48pl a b
  | int48mi a b => Int8.int48mi a b
  | int48mul a b => Int8.int48mul a b
  | int48div a b => Int8.int48div a b

/-! ### What the operators are to return -/

def Fits (z : Int) : Prop := -2 ^ 63 ≤ z ∧ z < 2 ^ 63

instance (z : Int) : Decidable (Fits z) := inferInstanceAs (Decidable (_ ∧ _))

/-- A mathematical result, if it fits. -/
def fit (z : Int) : Except Failure Int64 :=
  if Fits z then .ok (BitVec.ofInt 64 z) else .error .outOfRange

/-- A mathematical result that is not defined for a divisor of zero. -/
def fitUnless (divisor z : Int) : Except Failure Int64 :=
  if divisor = 0 then .error .divisionByZero else fit z

def Call.exact : Call → Except Failure Int64
  | int8um a => fit (-a.toInt)
  | int8pl a b | int84pl a b | int48pl a b => fit (a.toInt + b.toInt)
  | int8mi a b | int84mi a b | int48mi a b => fit (a.toInt - b.toInt)
  | int8mul a b | int84mul a b | int48mul a b => fit (a.toInt * b.toInt)
  | int8div a b | int84div a b | int48div a b => fitUnless b.toInt (a.toInt.tdiv b.toInt)
  | int8mod a b => fitUnless b.toInt (a.toInt.tmod b.toInt)

end PrlPg.Int8
