/-
Text and binary form of `numeric` values (utils/adt/numeric.c).

A text is a list of characters, a message a list of bytes.  What the functions of the message
layer append to a buffer or take from it is passed along.
-/
import PrlPg.Utils.NumericConvert

namespace PrlPg.Numeric

open Radix

/-! ### Type modifiers -/

/-- `VARHDRSZ`. -/
def varhdrsz : Int := 4

/-- The check of the number of digits before the point, from the first digit on. -/
def checkDdigits (precision scale : Int) : List Int → Int → Except Failure Unit
  | [], _ => .ok ()
  | dig :: digits, ddigits =>
    if dig ≠ 0 then
      -- adjust for any high-order decimal zero digits
      let ddigits :=
        if dig < 10 then ddigits - 3
        else if dig < 100 then ddigits - 2
        else if dig < 1000 then ddigits - 1
        else ddigits
      if ddigits > precision - scale then .error (.fieldOverflow precision scale) else .ok ()
    else checkDdigits precision scale digits (ddigits - decDigits)

def applyTypmod (var : NumericVar) (typmod : Int) : Except Failure NumericVar :=
  if typmod < varhdrsz then .ok var
  else do
    let typmod := typmod - varhdrsz
    let precision := typmod / 65536 % 65536
    let scale := typmod % 65536
    let maxdigits := precision - scale
    let var := roundVar var scale
    let ddigits := (var.weight + 1) * decDigits
    let _ ← if ddigits > maxdigits then checkDdigits precision scale var.digits ddigits else .ok ()
    .ok var

/-! ### Text input -/

/-- `isspace`. -/
def isSpace (c : Char) : Bool := c.toNat = 32 ∨ 9 ≤ c.toNat ∧ c.toNat ≤ 13

/-- `isdigit`. -/
def isDigit (c : Char) : Bool := 48 ≤ c.toNat ∧ c.toNat ≤ 57

def digitValue (c : Char) : Int := c.toNat - 48

/-- What has been read of a number. -/
structure Scan where
  decdigits : List Int
  dweight : Int
  dscale : Int
  haveDp : Bool
  deriving DecidableEq, Repr

/-- Read digits and at most one point: what was read, and the rest of the text. -/
def scanDigits : List Char → Scan → Except Failure (Scan × List Char)
  | [], scan => .ok (scan, [])
  | c :: cp, scan =>
    if isDigit c then
      scanDigits cp
        { scan with
          decdigits := scan.decdigits ++ [digitValue c]
          dweight := if scan.haveDp then scan.dweight else scan.dweight + 1
          dscale := if scan.haveDp then scan.dscale + 1 else scan.dscale }
    else if c.toNat = 46 then
      if scan.haveDp then .error .invalidSyntax else scanDigits cp { scan with haveDp := true }
    else .ok (scan, c :: cp)

/-- The sign in front of a number, and the rest of the text. -/
def scanSign : List Char → Sign × List Char
  | [] => (.pos, [])
  | c :: cp =>
    if c.toNat = 43 then (.pos, cp) else if c.toNat = 45 then (.neg, cp) else (.pos, c :: cp)

/-- `strtol` for base ten, `none` if there is no number.  Out of the range of a `long` it would
return a limit, which is out of the range of an exponent as well. -/
def strtol (cp : List Char) : Option (Int × List Char) :=
  let signed := scanSign (cp.dropWhile isSpace)
  let digits := signed.2.takeWhile isDigit
  if digits = [] then none
  else
    let val := (digits.foldl (fun acc c => acc * 10 + digitValue c) 0 : Int)
    some (if signed.1 = .neg then -val else val, signed.2.dropWhile isDigit)

/-- The exponent, if there is one. -/
def scanExponent (scan : Scan) : List Char → Except Failure (Scan × List Char)
  | [] => .ok (scan, [])
  | c :: cp =>
    if c.toNat = 101 ∨ c.toNat = 69 then
      match strtol cp with
      | none => .error .invalidSyntax
      | some r =>
        let exponent := r.1
        if exponent > maxPrecision ∨ exponent < -maxPrecision then .error .invalidSyntax
        else
          .ok ({ scan with
            dweight := scan.dweight + exponent
            dscale := max (scan.dscale - exponent) 0 }, r.2)
    else .ok (scan, c :: cp)

/-- Groups of four decimal digits. -/
def groupDigits : Nat → List Int → List Int
  | 0, _ => []
  | n + 1, decdigits =>
    (((decdigits.getD 0 0 * 10 + decdigits.getD 1 0) * 10 + decdigits.getD 2 0) * 10 +
      decdigits.getD 3 0) :: groupDigits n (decdigits.drop 4)

/-- Convert from decimal digits to digits. -/
def convertScan (sign : Sign) (scan : Scan) : NumericVar :=
  let weight :=
    if scan.dweight ≥ 0 then (scan.dweight + 1 + decDigits - 1) / decDigits - 1
    else -((-scan.dweight - 1) / decDigits + 1)
  let offset := (weight + 1) * decDigits - (scan.dweight + 1)
  let ndigits := ((scan.decdigits.length : Int) + offset + decDigits - 1) / decDigits
  -- with the padding for digit alignment
  let decdigits := List.replicate 4 0 ++ scan.decdigits ++ List.replicate 3 0
  stripVar
    { digits := groupDigits ndigits.toNat (decdigits.drop (decDigits - offset).toNat)
      weight := weight
      sign := sign
      dscale := scan.dscale }

def setVarFromStr (cp : List Char) : Except Failure (NumericVar × List Char) := do
  let signed := scanSign cp
  let haveDp : Bool := signed.2.head?.map Char.toNat = some 46
  let cp := if haveDp then signed.2.tail else signed.2
  if cp.head?.map isDigit ≠ some true then .error .invalidSyntax
  else
    let scanned ← scanDigits cp { decdigits := [], dweight := -1, dscale := 0, haveDp := haveDp }
    let scanned ← scanExponent scanned.1 scanned.2
    .ok (convertScan signed.1 scanned.1, scanned.2)

def constNan : NumericVar := { digits := [], weight := 0, sign := .nan, dscale := 0 }

/-- The conversion to a type with a precision and a scale. -/
def numeric (num : NumericData) (typmod : Int) : Except Failure NumericData :=
  if num.sign = .nan then makeResult constNan
  else if typmod < varhdrsz then .ok num
  else
    let precision := (typmod - varhdrsz) / 65536 % 65536
    let scale := (typmod - varhdrsz) % 65536
    let maxdigits := precision - scale
    let ddigits := (num.weight + 1) * decDigits
    -- certainly in bounds and without rounding: a copy with the new scale
    if ddigits ≤ maxdigits ∧ num.dscale ≤ scale then
      .ok { num with dscale := scale % (dscaleMask + 1) }
    else do
      let var ← applyTypmod (setVarFromNum num) typmod
      makeResult var

def isNan (cp : List Char) : Bool := (cp.take 3).map Char.toLower = ['n', 'a', 'n']

def numericIn (str : List Char) (typmod : Int) : Except Failure NumericData := do
  let cp := str.dropWhile isSpace
  if isNan cp then
    if (cp.drop 3).all isSpace then makeResult constNan else .error .invalidSyntax
  else
    let parsed ← setVarFromStr cp
    if parsed.2.all isSpace then
      let value ← applyTypmod parsed.1 typmod
      makeResult value
    else .error .invalidSyntax

/-! ### Text output -/

/-- The four decimal digits of a digit. -/
def decimalDigits (dig : Int) : List Int :=
  let d1 := dig / 1000
  let dig := dig - d1 * 1000
  let d2 := dig / 100
  let dig := dig - d2 * 100
  let d3 := dig / 10
  let dig := dig - d3 * 10
  [d1, d2, d3, dig]

/-- A digit before the point; unless `putit`, without leading zeroes. -/
def putDigit (putit : Bool) (dig : Int) : List Int :=
  let d1 := dig / 1000
  let dig := dig - d1 * 1000
  let putit := putit || decide (d1 > 0)
  let out := if putit then [d1] else []
  let d2 := dig / 100
  let dig := dig - d2 * 100
  let putit := putit || decide (d2 > 0)
  let out := if putit then out ++ [d2] else out
  let d3 := dig / 10
  let dig := dig - d3 * 10
  let putit := putit || decide (d3 > 0)
  let out := if putit then out ++ [d3] else out
  out ++ [dig]

def digitChar (d : Int) : Char := Char.ofNat (d + 48).toNat

/-- The digits before the point. -/
def integerDigits (var : NumericVar) : List Int :=
  if var.weight < 0 then [0]
  else
    (List.range (var.weight + 1).toNat).flatMap fun d : Nat =>
      putDigit (decide (d > 0)) (digitAt var.digits d)

/-- The digits after the point. -/
def fractionDigits (var : NumericVar) (dscale : Int) : List Int :=
  ((window var.digits (var.weight + 1) ((dscale + 3) / decDigits).toNat).flatMap
    decimalDigits).take dscale.toNat

/-- The text of a variable that has been rounded to the scale. -/
def printVar (var : NumericVar) (dscale : Int) : List Char :=
  (if var.sign = .neg then ['-'] else []) ++ (integerDigits var).map digitChar ++
    if dscale > 0 then '.' :: (fractionDigits var dscale).map digitChar else []

def getStrFromVar (var : NumericVar) (dscale : Int) : List Char :=
  let dscale := max dscale 0
  printVar (roundVar var dscale) dscale

def numericOut (num : NumericData) : List Char :=
  if num.sign = .nan then ['N', 'a', 'N'] else getStrFromVar (setVarFromNum num) num.dscale

/-! ### Binary form -/

/-- The codes of the signs in a message. -/
def Sign.code : Sign → Int
  | .pos => 0x0000
  | .neg => 0x4000
  | .nan => 0xC000

/-- `pq_sendint` for two bytes. -/
def sendInt2 (i : Int) : List UInt8 :=
  let n := (i % 65536).toNat
  [UInt8.ofNat (n / 256), UInt8.ofNat (n % 256)]

/-- `pq_getmsgint` for two bytes: the number, and the rest of the message. -/
def getMsgInt2 : List UInt8 → Except Failure (Int × List UInt8)
  | b1 :: b2 :: buf => .ok ((b1.toNat * 256 + b2.toNat : Nat), buf)
  | _ => .error .insufficientData

def numericSend (num : NumericData) : List UInt8 :=
  let x := setVarFromNum num
  sendInt2 x.digits.length ++ sendInt2 x.weight ++ sendInt2 x.sign.code ++ sendInt2 x.dscale ++
    x.digits.flatMap sendInt2

def recvSign (code : Int) : Except Failure Sign :=
  if code = Sign.code .pos then .ok .pos
  else if code = Sign.code .neg then .ok .neg
  else if code = Sign.code .nan then .ok .nan
  else .error .invalidSign

def recvDigits : Nat → List UInt8 → Except Failure (List Int)
  | 0, _ => .ok []
  | n + 1, buf => do
    let msg ← getMsgInt2 buf
    let d := toInt16 msg.1
    if d < 0 ∨ d ≥ nbase then .error .invalidDigit
    else
      let digits ← recvDigits n msg.2
      .ok (d :: digits)

def numericRecv (buf : List UInt8) (typmod : Int) : Except Failure NumericData := do
  let len ← getMsgInt2 buf
  if len.1 > maxPrecision + maxResultScale then .error .invalidLength
  else
    let weight ← getMsgInt2 len.2
    let code ← getMsgInt2 weight.2
    let sign ← recvSign code.1
    let dscale ← getMsgInt2 code.2
    let digits ← recvDigits len.1.toNat dscale.2
    let value ← applyTypmod
      { digits := digits, weight := toInt16 weight.1, sign := sign, dscale := dscale.1 } typmod
    makeResult value

end PrlPg.Numeric
