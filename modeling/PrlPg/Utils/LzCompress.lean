/-
The compressor for large values (utils/adt/pg_lzcompress.c).

Memory is a function from addresses to bytes: the source is read at `source + i`, the
compressed data lies at `bstart + i`, and the decompressor writes at `dest + i`.  What a
buffer has in it beforehand is arbitrary.  How a plain `char` is widened to an `int` is up
to the compiler and only matters for the hash, so it is a parameter.

The two static arrays keep what an earlier call has left in them.  Only `hist_start` is
cleared at the beginning of a call.
-/
import PrlPg.Lib.HashChain
import PrlPg.Lib.Lz

namespace PrlPg.Pglz

open HashChain Lz

def historyMask : BitVec 32 := 8191

def historySize : Nat := 4096

def maxMatch : Nat := 273

/-- The values that control a compression, all of them `int32`. -/
structure Strategy where
  minInputSize : Int
  maxInputSize : Int
  minCompRate : Int
  firstSuccessBy : Int
  matchSizeGood : Int
  matchSizeDrop : Int
  deriving DecidableEq, Repr

def intMax : Int := 2147483647

def strategyDefault : Strategy :=
  { minInputSize := 32, maxInputSize := intMax, minCompRate := 25, firstSuccessBy := 1024,
    matchSizeGood := 128, matchSizeDrop := 10 }

def strategyAlways : Strategy :=
  { minInputSize := 0, maxInputSize := intMax, minCompRate := 0, firstSuccessBy := intMax,
    matchSizeGood := 128, matchSizeDrop := 6 }

/-! ### The history -/

/-- The history table: `hist_start` and `hist_entries`, where the key of an entry is its
`hindex` and the rank its `pos`; and the entry to be used next. -/
structure History where
  chains : Chains
  histNext : Nat
  histRecycle : Bool

variable (widen : UInt8 → BitVec 32)

/-- The list for the next four characters, or for one near the end. -/
def pglzHistIdx (source : Nat → UInt8) (s e : Nat) : Nat :=
  ((if e - s < 4 then widen (source s)
    else (widen (source s) <<< 9) ^^^ (widen (source (s + 1)) <<< 6) ^^^
      (widen (source (s + 2)) <<< 3) ^^^ widen (source (s + 3))) &&& historyMask).toNat

/-- Add the position `s` to the history, in the next entry; that one is taken out of its old
list first if it has been in use. -/
def pglzHistAdd (source : Nat → UInt8) (h : History) (s e : Nat) :
    History :=
  let hindex := pglzHistIdx widen source s e
  let chains := if h.histRecycle then h.chains.delink h.histNext else h.chains
  let chains := chains.link h.histNext hindex s
  if h.histNext + 1 ≥ historySize then { chains := chains, histNext := 0, histRecycle := true }
  else { h with chains := chains, histNext := h.histNext + 1 }

/-- Add the positions of `n` characters. -/
def histAddAll (widen : UInt8 → BitVec 32) (source : Nat → UInt8) (e : Nat) :
    History → Nat → Nat → History
  | h, _, 0 => h
  | h, s, n + 1 => histAddAll widen source e (pglzHistAdd widen source h s e) (s + 1) n

/-! ### Finding a match -/

/-- How many more characters agree, up to the end of the source and at most `n`. -/
def matchLength (source : Nat → UInt8) (e : Nat) : Nat → Nat → Nat → Nat
  | 0, _, _ => 0
  | n + 1, ip, hp =>
    if ip < e ∧ source ip = source hp then matchLength source e n (ip + 1) (hp + 1) + 1 else 0

/-- `memcmp(ip, hp, len) == 0`. -/
def memEqual (source : Nat → UInt8) (ip hp len : Nat) : Bool :=
  (List.range len).all fun k => source (ip + k) = source (hp + k)

/-- The length of the match with the position `hp`, given the best length so far. -/
def thisLength (source : Nat → UInt8) (e input hp len : Nat) : Nat :=
  if len ≥ 16 then
    if memEqual source input hp len then
      len + matchLength source e (maxMatch - len) (input + len) (hp + len)
    else 0
  else matchLength source e maxMatch input hp

/-- The walk along a history list, with at most `fuel` turns; `none` if that is not enough. -/
def findLoop (source : Nat → UInt8) (c : Chains) (input e goodDrop : Nat) :
    Nat → Option Nat → Nat → Nat → Nat → Option (Nat × Nat)
  | _, none, len, off, _ => some (len, off)
  | 0, some _, _, _, _ => none
  | fuel + 1, some hent, len, off, goodMatch =>
    let thisoff := input - c.rank hent
    if thisoff ≥ 0x0fff then some (len, off)
    else
      let thislen := thisLength source e input (c.rank hent) len
      let best := if thislen > len then (thislen, thisoff) else (len, off)
      match c.next hent with
      | none => some best
      | some hent' =>
        if best.1 ≥ goodMatch then some best
        else
          findLoop source c input e goodDrop fuel (some hent') best.1 best.2
            (goodMatch - goodMatch * goodDrop / 100)

/-- The length and the offset of a match worth a tag. -/
def pglzFindMatch (source : Nat → UInt8) (c : Chains)
    (input e goodMatch goodDrop : Nat) : Option (Option (Nat × Nat)) :=
  (findLoop source c input e goodDrop historySize (c.start (pglzHistIdx widen source input e))
    0 0 goodMatch).map fun best => if best.1 > 2 then some best else none

/-! ### The output -/

/-- The output buffer and the control byte that is being filled; `ctrlp` is `none` while it
points to `ctrl_dummy`. -/
structure Out where
  buf : Nat → UInt8
  bp : Nat
  ctrlp : Option Nat
  ctrlb : UInt8
  ctrl : UInt8

/-- `*ctrlp = ctrlb`. -/
def Out.storeCtrl (o : Out) : Nat → UInt8 :=
  match o.ctrlp with
  | none => o.buf
  | some a => Function.update o.buf a o.ctrlb

/-- Begin a new control byte when the last one is full. -/
def pglzOutCtrl (o : Out) : Out :=
  if o.ctrl &&& 0xff = 0 then
    { buf := o.storeCtrl, ctrlp := some o.bp, bp := o.bp + 1, ctrlb := 0, ctrl := 1 }
  else o

def pglzOutLiteral (o : Out) (byte : UInt8) : Out :=
  let o := pglzOutCtrl o
  { o with buf := Function.update o.buf o.bp byte, bp := o.bp + 1, ctrl := o.ctrl <<< 1 }

/-- A back reference in two bytes, or in three when it is long. -/
def pglzOutTag (o : Out) (len off : Nat) : Out :=
  let o := pglzOutCtrl o
  let o := { o with ctrlb := o.ctrlb ||| o.ctrl, ctrl := o.ctrl <<< 1 }
  if len > 17 then
    let buf := Function.update o.buf o.bp (UInt8.ofNat (((off &&& 0xf00) >>> 4) ||| 0x0f))
    let buf := Function.update buf (o.bp + 1) (UInt8.ofNat (off &&& 0xff))
    let buf := Function.update buf (o.bp + 2) (UInt8.ofNat (len - 18))
    { o with buf := buf, bp := o.bp + 3 }
  else
    let buf := Function.update o.buf o.bp (UInt8.ofNat (((off &&& 0xf00) >>> 4) ||| (len - 3)))
    let buf := Function.update buf (o.bp + 1) (UInt8.ofNat (off &&& 0xff))
    { o with buf := buf, bp := o.bp + 2 }

/-! ### Compressing -/

/-- The variables of the main loop. -/
structure CompressState where
  dp : Nat
  hist : History
  out : Out
  foundMatch : Bool

/-- What the main loop does not change. -/
structure Params where
  widen : UInt8 → BitVec 32
  source : Nat → UInt8
  slen : Nat
  resultMax : Nat
  firstSuccessBy : Int
  goodMatch : Nat
  goodDrop : Nat

/-- The main loop.  Each turn takes at least one character, so as many turns as there are
characters left are enough.  The flag is false where the loop is left by `return false`;
`none` stands for a walk through the history that does not end. -/
def compressLoop (p : Params) : Nat → CompressState → Option (CompressState × Bool)
  | 0, s => some (s, true)
  | fuel + 1, s =>
    if s.dp < p.slen then
      if s.out.bp ≥ p.resultMax then some (s, false)
      else if s.foundMatch = false ∧ (s.out.bp : Int) ≥ p.firstSuccessBy then some (s, false)
      else
        match pglzFindMatch p.widen p.source s.hist.chains s.dp p.slen p.goodMatch p.goodDrop with
        | none => none
        | some (some (matchLen, matchOff)) =>
          compressLoop p fuel
            { dp := s.dp + matchLen
              hist := histAddAll p.widen p.source p.slen s.hist s.dp matchLen
              out := pglzOutTag s.out matchLen matchOff
              foundMatch := true }
        | some none =>
          compressLoop p fuel
            { s with
              dp := s.dp + 1
              hist := pglzHistAdd p.widen p.source s.hist s.dp p.slen
              out := pglzOutLiteral s.out (p.source s.dp) }
    else some (s, true)

/-- `good_match`, limited to what is supported. -/
def goodMatchOf (strategy : Strategy) : Nat :=
  if strategy.matchSizeGood > maxMatch then maxMatch
  else if strategy.matchSizeGood < 17 then 17
  else strategy.matchSizeGood.toNat

def goodDropOf (strategy : Strategy) : Nat :=
  if strategy.matchSizeDrop < 0 then 0
  else if strategy.matchSizeDrop > 100 then 100
  else strategy.matchSizeDrop.toNat

def needRateOf (strategy : Strategy) : Nat :=
  if strategy.minCompRate < 0 then 0
  else if strategy.minCompRate > 99 then 99
  else strategy.minCompRate.toNat

/-- The size that the result has to stay below. -/
def resultMaxOf (strategy : Strategy) (slen : Nat) : Nat :=
  if (slen : Int) > intMax / 100 then slen / 100 * (100 - needRateOf strategy)
  else slen * (100 - needRateOf strategy) / 100

/-- The header of a compressed datum.  A `varlena` keeps its total size in thirty bits; the
other size is an `int32`. -/
structure Header where
  varsize : Nat
  rawsize : Int
  deriving DecidableEq, Repr

def headerSize : Nat := 8

/-- `SET_VARSIZE_COMPRESSED`. -/
def setVarsizeCompressed (size : Nat) : Nat := size % 2 ^ 30

/-- `PGLZ_MAX_OUTPUT`. -/
def maxOutput (dlen : Nat) : Nat := dlen + 4 + headerSize

/-- `MaxAllocSize`. -/
def maxAllocSize : Nat := 0x3fffffff

/-- What a call leaves behind: the buffer, and the header if it has returned true. -/
structure CompressResult where
  buf : Nat → UInt8
  header : Option Header

/-- The loop's parameters for a strategy, limited to the supported range. -/
def paramsOf (source : Nat → UInt8) (slen : Nat)
    (strategy : Strategy) : Params :=
  { widen := widen, source := source, slen := slen, resultMax := resultMaxOf strategy slen,
    firstSuccessBy := strategy.firstSuccessBy, goodMatch := goodMatchOf strategy,
    goodDrop := goodDropOf strategy }

/-- The variables before the loop, with the history lists empty. -/
def startState (buf : Nat → UInt8) (entries : Chains) : CompressState :=
  { dp := 0
    hist := { chains := { entries with start := fun _ => none }, histNext := 0,
              histRecycle := false }
    out := { buf := buf, bp := 0, ctrlp := none, ctrlb := 0, ctrl := 0 }
    foundMatch := false }

def pglzCompress (source : Nat → UInt8) (slen : Nat)
    (buf : Nat → UInt8) (entries : Chains) (strategy : Option Strategy) :
    Option CompressResult :=
  let strategy := strategy.getD strategyDefault
  if strategy.matchSizeGood ≤ 0 ∨ (slen : Int) < strategy.minInputSize ∨
      (slen : Int) > strategy.maxInputSize then
    some { buf := buf, header := none }
  else
    match compressLoop (paramsOf widen source slen strategy) slen (startState buf entries) with
    | none => none
    | some (s, false) => some { buf := s.out.buf, header := none }
    | some (s, true) =>
      let buf := s.out.storeCtrl
      let resultSize := s.out.bp
      if resultSize ≥ resultMaxOf strategy slen then some { buf := buf, header := none }
      else
        some { buf := buf
               header := some { varsize := setVarsizeCompressed (resultSize + headerSize)
                                rawsize := slen } }

/-! ### Decompressing -/

/-- The variables of `pglz_decompress`. -/
structure DecompressState where
  sp : Nat
  dp : Nat
  dest : Int → UInt8

/-- The items of one control byte, `n` of them to go. -/
def decompressItems (source : Nat → UInt8) (srcend destend : Nat) :
    Nat → UInt8 → DecompressState → DecompressState
  | 0, _, s => s
  | n + 1, ctrl, s =>
    if s.sp < srcend then
      if ctrl &&& 1 ≠ 0 then
        let len := ((source s.sp).toNat &&& 0x0f) + 3
        let off := (((source s.sp).toNat &&& 0xf0) <<< 4) ||| (source (s.sp + 1)).toNat
        let sp := s.sp + 2
        let len' := if len = 18 then len + (source sp).toNat else len
        let sp' := if len = 18 then sp + 1 else sp
        if s.dp + len' > destend then { s with sp := sp', dp := s.dp + len' }
        else
          decompressItems source srcend destend n (ctrl >>> 1)
            { sp := sp', dp := s.dp + len', dest := copyBack s.dest s.dp off len' }
      else if s.dp ≥ destend then s
      else
        decompressItems source srcend destend n (ctrl >>> 1)
          { sp := s.sp + 1, dp := s.dp + 1, dest := Function.update s.dest s.dp (source s.sp) }
    else s

/-- The main loop.  Each turn takes a control byte, so as many turns as there are bytes left
are enough. -/
def decompressLoop (source : Nat → UInt8) (srcend destend : Nat) :
    Nat → DecompressState → DecompressState
  | 0, s => s
  | fuel + 1, s =>
    if s.sp < srcend ∧ s.dp < destend then
      decompressLoop source srcend destend fuel
        (decompressItems source srcend destend 8 (source s.sp) { s with sp := s.sp + 1 })
    else s

/-- `none` is the error that the compressed data is corrupt. -/
def pglzDecompress (header : Header) (source : Nat → UInt8) (dest : Int → UInt8) :
    Option (Int → UInt8) :=
  let srcend := header.varsize - headerSize
  let s := decompressLoop source srcend header.rawsize.toNat srcend
    { sp := 0, dp := 0, dest := dest }
  if (s.dp : Int) ≠ header.rawsize ∨ (s.sp : Int) ≠ header.varsize - headerSize then none
  else some s.dest

end PrlPg.Pglz
