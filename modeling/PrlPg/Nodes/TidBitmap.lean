/-
Bitmaps of tuple ids (nodes/tidbitmap.c), with 8 kB blocks.

The ten 32-bit words of a page table entry are one bit vector; bit `k` of it is bit
`BITNUM(k)` of word `WORDNUM(k)`, and a loop over the words and the bits of each is a loop over
its bits.  A pointer to an entry is the entry, written back where it came from.

A scan of the hash table visits its entries in some order: every operation that may scan one
takes a `HashOrder`.  Visiting an entry means looking it up, since the scans of
`tbm_lossify` and `tbm_intersect` change the table they are on.  The flag `iterating` is left
out; an iterator has its own copy of the two sorted lists.
-/
import Mathlib.Data.List.Sort
import PrlPg.Lib.KeyedTable

namespace PrlPg.TidBitmap

/-- `(BLCKSZ - SizeOfPageHeaderData) / (MAXALIGN(sizeof(HeapTupleHeaderData)) +
sizeof(ItemIdData))`. -/
def maxTuplesPerPage : Nat := (8192 - 24) / (24 + 4)

/-- `BLCKSZ / 32`. -/
def pagesPerChunk : Nat := 8192 / 32

/-- `WORDS_PER_PAGE * BITS_PER_BITMAPWORD`, the bits of an entry. -/
def bitsPerPage : Nat := ((maxTuplesPerPage - 1) / 32 + 1) * 32

structure PagetableEntry where
  blockno : Nat
  ischunk : Bool
  recheck : Bool
  words : BitVec bitsPerPage
  deriving DecidableEq

/-- A zeroed entry. -/
def PagetableEntry.zero (blockno : Nat) : PagetableEntry where
  blockno := blockno
  ischunk := false
  recheck := false
  words := 0

/-- `words[WORDNUM(k)] |= 1 << BITNUM(k)`. -/
def PagetableEntry.setBit (page : PagetableEntry) (k : Nat) : PagetableEntry :=
  { page with words := page.words ||| BitVec.twoPow bitsPerPage k }

/-- The bits that are set, from the lowest. -/
def PagetableEntry.bits (page : PagetableEntry) : List Nat :=
  (List.range bitsPerPage).filter page.words.getLsbD

abbrev Pagetable := KeyedTable PagetableEntry.blockno

inductive TBMStatus
  | empty
  | onePage
  | hash
  deriving DecidableEq

structure TIDBitmap where
  status : TBMStatus
  pagetable : Pagetable
  nentries : Nat
  maxentries : Nat
  npages : Nat
  nchunks : Nat
  entry1 : PagetableEntry

/-- The order in which a scan visits the entries of a hash table. -/
structure HashOrder where
  scan : List PagetableEntry → List PagetableEntry
  perm : ∀ l, (scan l).Perm l

/-! ### Creation -/

def tbmCreate (maxbytes : Nat) : TIDBitmap where
  status := .empty
  pagetable := .empty
  nentries := 0
  -- MAXALIGN(sizeof(HASHELEMENT)) + MAXALIGN(sizeof(PagetableEntry)) and two pointers;
  -- at most INT_MAX - 1
  maxentries := max (min (maxbytes / (16 + 48 + 8 + 8)) 0x7ffffffe) 16
  npages := 0
  nchunks := 0
  entry1 := .zero 0

variable (tbm : TIDBitmap)

/-- Go over to a hash table, with the single entry in it if there is one. -/
def tbmCreatePagetable : TIDBitmap :=
  { tbm with
    pagetable := if tbm.status = .onePage then KeyedTable.empty.enter tbm.entry1 else .empty
    status := .hash }

/-! ### Lookup -/

/-- The entry of the page, unless it is a chunk header. -/
def tbmFindPageentry (pageno : Nat) : Option PagetableEntry :=
  if tbm.nentries = 0 then none
  else if tbm.status = .onePage then
    if tbm.entry1.blockno ≠ pageno then none else some tbm.entry1
  else
    match tbm.pagetable.find pageno with
    | none => none
    | some page => if page.ischunk then none else some page

/-- Find or create an entry in the hash table. -/
def hashPageentry (pageno : Nat) : TIDBitmap × PagetableEntry :=
  match tbm.pagetable.find pageno with
  | some page => (tbm, page)
  | none =>
    ({ tbm with
        pagetable := tbm.pagetable.enter (.zero pageno)
        nentries := tbm.nentries + 1
        npages := tbm.npages + 1 }, .zero pageno)

/-- Find or create the entry of the page. -/
def tbmGetPageentry (pageno : Nat) : TIDBitmap × PagetableEntry :=
  match tbm.status with
  | .empty =>
    ({ tbm with
        status := .onePage
        entry1 := .zero pageno
        nentries := tbm.nentries + 1
        npages := tbm.npages + 1 }, .zero pageno)
  | .onePage =>
    if tbm.entry1.blockno = pageno then (tbm, tbm.entry1)
    else hashPageentry (tbmCreatePagetable tbm) pageno
  | .hash => hashPageentry tbm pageno

/-- Write an entry back. -/
def storePage (page : PagetableEntry) : TIDBitmap :=
  if tbm.status = .onePage then { tbm with entry1 := page }
  else { tbm with pagetable := tbm.pagetable.enter page }

def tbmPageIsLossy (pageno : Nat) : Bool :=
  if tbm.nchunks = 0 then false
  else
    let bitno := pageno % pagesPerChunk
    match tbm.pagetable.find (pageno - bitno) with
    | none => false
    | some page => page.ischunk && page.words.getLsbD bitno

/-! ### Lossy pages -/

/-- Remove the exact entry of a page that is no chunk header. -/
def removeExact (pageno : Nat) : TIDBitmap :=
  match tbm.pagetable.find pageno with
  | none => tbm
  | some _ =>
    { tbm with
      pagetable := tbm.pagetable.remove pageno
      nentries := tbm.nentries - 1
      npages := tbm.npages - 1 }

/-- Find or create the chunk header; an exact page in its place becomes lossy. -/
def chunkHeader (chunkPageno : Nat) : TIDBitmap × PagetableEntry :=
  match tbm.pagetable.find chunkPageno with
  | none =>
    let page := { PagetableEntry.zero chunkPageno with ischunk := true }
    ({ tbm with nentries := tbm.nentries + 1, nchunks := tbm.nchunks + 1 }, page)
  | some page =>
    if page.ischunk then (tbm, page)
    else
      let page := { PagetableEntry.zero chunkPageno with ischunk := true }
      ({ tbm with nchunks := tbm.nchunks + 1, npages := tbm.npages - 1 }, page.setBit 0)

def tbmMarkPageLossy (pageno : Nat) : TIDBitmap :=
  let tbm := if tbm.status ≠ .hash then tbmCreatePagetable tbm else tbm
  let bitno := pageno % pagesPerChunk
  let tbm := if bitno ≠ 0 then removeExact tbm pageno else tbm
  let got := chunkHeader tbm (pageno - bitno)
  { got.1 with pagetable := got.1.pagetable.enter (got.2.setBit bitno) }

/-- The scan of `tbm_lossify`, over the pages still to visit. -/
def lossifyScan : List Nat → TIDBitmap → TIDBitmap
  | [], tbm => tbm
  | blockno :: rest, tbm =>
    match tbm.pagetable.find blockno with
    | none => lossifyScan rest tbm
    | some page =>
      if page.ischunk then lossifyScan rest tbm
      else if page.blockno % pagesPerChunk = 0 then lossifyScan rest tbm
      else
        let tbm := tbmMarkPageLossy tbm page.blockno
        if tbm.nentries ≤ tbm.maxentries then tbm else lossifyScan rest tbm

def tbmLossify (order : HashOrder) (tbm : TIDBitmap) : TIDBitmap :=
  lossifyScan ((order.scan tbm.pagetable.entries).map (·.blockno)) tbm

/-- Lossify if over the memory limit. -/
def lossifyIfOver (order : HashOrder) (tbm : TIDBitmap) : TIDBitmap :=
  if tbm.nentries > tbm.maxentries then tbmLossify order tbm else tbm

/-! ### Additions -/

/-- Set the bit of a tuple, or in a chunk header the bit for its own page. -/
def PagetableEntry.addOffset (page : PagetableEntry) (off : Nat) (recheck : Bool) :
    PagetableEntry :=
  { page.setBit (if page.ischunk then 0 else off - 1) with recheck := page.recheck || recheck }

/-- Add one tuple; `none` is the error for an offset out of range. -/
def addTuple (order : HashOrder) (recheck : Bool) (tbm : TIDBitmap)
    (tid : Nat × Nat) : Option TIDBitmap :=
  if tid.2 < 1 ∨ tid.2 > maxTuplesPerPage then none
  else if tbmPageIsLossy tbm tid.1 then some tbm
  else
    let got := tbmGetPageentry tbm tid.1
    some (lossifyIfOver order (storePage got.1 (got.2.addOffset tid.2 recheck)))

def tbmAddTuples (order : HashOrder) (tbm : TIDBitmap) (tids : List (Nat × Nat))
    (recheck : Bool) : Option TIDBitmap :=
  tids.foldlM (addTuple order recheck) tbm

def tbmAddPage (order : HashOrder) (tbm : TIDBitmap) (pageno : Nat) : TIDBitmap :=
  lossifyIfOver order (tbmMarkPageLossy tbm pageno)

/-! ### Union -/

/-- Merge an exact page into an entry. -/
def PagetableEntry.merge (apage bpage : PagetableEntry) : PagetableEntry :=
  if apage.ischunk then apage.setBit 0
  else
    { apage with
      words := apage.words ||| bpage.words
      recheck := apage.recheck || bpage.recheck }

def tbmUnionPage (order : HashOrder) (a : TIDBitmap) (bpage : PagetableEntry) : TIDBitmap :=
  if bpage.ischunk then
    lossifyIfOver order (bpage.bits.foldl (fun a k => tbmMarkPageLossy a (bpage.blockno + k)) a)
  else if tbmPageIsLossy a bpage.blockno then a
  else
    let got := tbmGetPageentry a bpage.blockno
    lossifyIfOver order (storePage got.1 (got.2.merge bpage))

def tbmUnion (order : HashOrder) (a b : TIDBitmap) : TIDBitmap :=
  if b.nentries = 0 then a
  else if b.status = .onePage then tbmUnionPage order a b.entry1
  else (order.scan b.pagetable.entries).foldl (tbmUnionPage order) a

/-! ### Intersection -/

/-- The page is not in the bitmap at all. -/
def pageMissing (b : TIDBitmap) (pg : Nat) : Bool :=
  !tbmPageIsLossy b pg && (tbmFindPageentry b pg).isNone

/-- The page after the intersection, and whether it can be deleted. -/
def tbmIntersectPage (apage : PagetableEntry) (b : TIDBitmap) : PagetableEntry × Bool :=
  if apage.ischunk then
    let words := apage.bits.foldl (fun neww k =>
      if pageMissing b (apage.blockno + k) then neww &&& ~~~BitVec.twoPow bitsPerPage k
      else neww) apage.words
    ({ apage with words := words }, words == 0)
  else if tbmPageIsLossy b apage.blockno then ({ apage with recheck := true }, false)
  else
    match tbmFindPageentry b apage.blockno with
    | none => (apage, true)
    | some bpage =>
      let words := apage.words &&& bpage.words
      ({ apage with words := words, recheck := apage.recheck || bpage.recheck }, words == 0)

/-- One page of the scan of `tbm_intersect`. -/
def intersectStep (b a : TIDBitmap) (apage : PagetableEntry) : TIDBitmap :=
  let met := tbmIntersectPage apage b
  if met.2 then
    { a with
      nchunks := if met.1.ischunk then a.nchunks - 1 else a.nchunks
      npages := if met.1.ischunk then a.npages else a.npages - 1
      nentries := a.nentries - 1
      pagetable := a.pagetable.remove met.1.blockno }
  else { a with pagetable := a.pagetable.enter met.1 }

def tbmIntersect (order : HashOrder) (a b : TIDBitmap) : TIDBitmap :=
  if a.nentries = 0 then a
  else if a.status = .onePage then
    let met := tbmIntersectPage a.entry1 b
    if met.2 then
      { a with
        entry1 := met.1
        npages := a.npages - 1
        nentries := a.nentries - 1
        status := .empty }
    else { a with entry1 := met.1 }
  else (order.scan a.pagetable.entries).foldl (intersectStep b) a

/-! ### Iteration -/

structure TBMIterateResult where
  blockno : Nat
  /-- -1 for a page of which all tuples have to be looked at. -/
  ntuples : Int
  recheck : Bool
  offsets : List Nat
  deriving DecidableEq

/-- The entries still to come in the two sorted lists, and the next bit of the first chunk. -/
structure TBMIterator where
  spages : List PagetableEntry
  schunks : List PagetableEntry
  schunkbit : Nat

/-- `qsort` with `tbm_comparator`. -/
def sortPages (l : List PagetableEntry) : List PagetableEntry :=
  l.mergeSort fun x y => x.blockno ≤ y.blockno

/-- Start an iteration; `none` if the counts are not those of the entries, so that the sorted
lists would be of the wrong size. -/
def tbmBeginIterate (order : HashOrder) (tbm : TIDBitmap) : Option TBMIterator :=
  match tbm.status with
  | .empty => if tbm.npages = 0 ∧ tbm.nchunks = 0 then some ⟨[], [], 0⟩ else none
  | .onePage => if tbm.nchunks = 0 then some ⟨List.replicate tbm.npages tbm.entry1, [], 0⟩ else none
  | .hash =>
    let pages := order.scan tbm.pagetable.entries
    let spages := pages.filter fun page => !page.ischunk
    let schunks := pages.filter fun page => page.ischunk
    if spages.length = tbm.npages ∧ schunks.length = tbm.nchunks then
      some ⟨sortPages spages, sortPages schunks, 0⟩
    else none

/-- The next set bit of a chunk. -/
def nextChunkBit (chunk : PagetableEntry) (schunkbit : Nat) : Option Nat :=
  ((List.range pagesPerChunk).drop schunkbit).find? chunk.words.getLsbD

/-- Advance to the next set bit of the chunks. -/
def advanceChunk : List PagetableEntry → Nat → List PagetableEntry × Nat
  | [], schunkbit => ([], schunkbit)
  | chunk :: rest, schunkbit =>
    match nextChunkBit chunk schunkbit with
    | some bit => (chunk :: rest, bit)
    | none => advanceChunk rest 0

/-- All the tuples of a page have to be looked at. -/
def lossyResult (blockno : Nat) : TBMIterateResult where
  blockno := blockno
  ntuples := -1
  recheck := true
  offsets := []

/-- The tuples of an exact page. -/
def exactResult (page : PagetableEntry) : TBMIterateResult where
  blockno := page.blockno
  ntuples := page.bits.length
  recheck := page.recheck
  offsets := page.bits.map (· + 1)

/-- The per-page part of `tbm_iterate`. -/
def iteratePage (it : TBMIterator) : Option (TBMIterateResult × TBMIterator) :=
  match it.spages with
  | [] => none
  | page :: spages => some (exactResult page, { it with spages := spages })

/-- The next page, or `none` at the end. -/
def tbmIterate (it : TBMIterator) : Option (TBMIterateResult × TBMIterator) :=
  let (schunks, schunkbit) := advanceChunk it.schunks it.schunkbit
  let it := { it with schunks := schunks, schunkbit := schunkbit }
  match schunks with
  | [] => iteratePage it
  | chunk :: _ =>
    let chunkBlockno := chunk.blockno + schunkbit
    match it.spages with
    | [] => some (lossyResult chunkBlockno, { it with schunkbit := schunkbit + 1 })
    | page :: _ =>
      if chunkBlockno < page.blockno then
        some (lossyResult chunkBlockno, { it with schunkbit := schunkbit + 1 })
      else iteratePage it

end PrlPg.TidBitmap
