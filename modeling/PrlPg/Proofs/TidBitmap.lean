/-
A bitmap of tuple ids stands for a set of them, page by page.

A page is absent, lossy, or exact with its offsets and the recheck flag (`Page`).  A table of
entries gives each page its state (`pageAt`): lossy if its bit is set in the header of its
chunk, exact if it has an entry that is no chunk header.  Both at once is excluded by
`TableValid`, so the one entry that serves as a page and as a header is never taken for
the wrong one.

What a state says about the tuples of the page is `Page.Sound`: nothing for a lossy page,
and for an exact one that its offsets include them all, and are among them if no recheck is
asked for.  Making a page lossy is always sound.  That is all that is needed of
`tbm_lossify`, in whatever order it visits the entries.
-/
import PrlPg.Nodes.TidBitmap

namespace PrlPg.TidBitmap

open KeyedTable
open Option (filter_some getD getD_some some)

/-! ### Pages -/

/-- The state of a page. -/
inductive Page
  | absent
  | lossy
  | exact (words : BitVec bitsPerPage) (recheck : Bool)

/-- What the state of a page says about the offsets of its tuples. -/
def Page.Sound (s : Set Nat) : Page → Prop
  | absent => s = ∅
  | lossy => True
  | exact words recheck =>
    (∀ off ∈ s, ∃ k, words.getLsbD k = true ∧ off = k + 1) ∧
      (recheck = false → ∀ k, words.getLsbD k = true → k + 1 ∈ s)

/-- Whether the bit of the page is set in its chunk. -/
def lossyAt (t : Pagetable) (b : Nat) : Bool :=
  match t.find (b - b % pagesPerChunk) with
  | none => false
  | some page => page.ischunk && page.words.getLsbD (b % pagesPerChunk)

/-- The entry of the page, unless it is a chunk header. -/
def exactAt (t : Pagetable) (b : Nat) : Option PagetableEntry :=
  (t.find b).filter fun page => !page.ischunk

/-- The state of a page in a table. -/
def pageAt (t : Pagetable) (b : Nat) : Page :=
  if lossyAt t b then .lossy
  else
    match exactAt t b with
    | none => .absent
    | some page => .exact page.words page.recheck

/-- A chunk header is for the first page of a chunk and has bits for its pages only; no page
is lossy and exact. -/
structure TableValid (t : Pagetable) : Prop where
  header : ∀ {c page}, t.find c = some page → page.ischunk = true → c % pagesPerChunk = 0
  bits : ∀ {c page k}, t.find c = some page → page.ischunk = true →
    page.words.getLsbD k = true → k < pagesPerChunk
  apart : ∀ {b page}, exactAt t b = some page → lossyAt t b = false

section Tables

variable {t : Pagetable} {b c p : Nat} {page : PagetableEntry}

theorem exactAt_eq_some :
    exactAt t b = some page ↔ t.find b = some page ∧ page.ischunk = false := by
  rw [exactAt, Option.filter_eq_some_iff, Bool.not_eq_true']

theorem lossyAt_eq_true : lossyAt t b = true ↔ ∃ page, t.find (b - b % pagesPerChunk) = some page ∧
    page.ischunk = true ∧ page.words.getLsbD (b % pagesPerChunk) = true := by
  unfold lossyAt
  cases h : t.find (b - b % pagesPerChunk) with
  | none => simp
  | some page => simp

theorem pageAt_of_lossy (h : lossyAt t b = true) : pageAt t b = .lossy := by rw [pageAt, if_pos h]

theorem TableValid.pageAt_of_exact (hv : TableValid t) (h : exactAt t b = some page) :
    pageAt t b = .exact page.words page.recheck := by
  rw [pageAt, hv.apart h, h]
  rfl

theorem pageAt_congr {t' : Pagetable} (hb : exactAt t' b = exactAt t b)
    (hc : lossyAt t' b = lossyAt t b) : pageAt t' b = pageAt t b := by
  rw [pageAt, pageAt, hb, hc]

theorem tableValid_empty : TableValid empty where
  header h := by cases h
  bits h := by cases h
  apart h := by cases h

end Tables

theorem getLsbD_zero {k : Nat} : (0 : BitVec bitsPerPage).getLsbD k = false := BitVec.getLsbD_zero

theorem getLsbD_setBit {page : PagetableEntry} {i k : Nat} (hi : i < bitsPerPage) :
    (page.setBit i).words.getLsbD k = (page.words.getLsbD k || decide (i = k)) := by
  rw [PagetableEntry.setBit, BitVec.getLsbD_or, BitVec.getLsbD_twoPow, decide_eq_true hi,
    Bool.true_and]

theorem mem_bits {page : PagetableEntry} {k : Nat} :
    k ∈ page.bits ↔ page.words.getLsbD k = true := by
  rw [PagetableEntry.bits, List.mem_filter, List.mem_range]
  constructor
  · exact fun h => h.2
  · intro h
    exact ⟨BitVec.lt_of_getLsbD h, h⟩

/-! ### Making a page lossy -/

theorem pagesPerChunk_eq : pagesPerChunk = 256 := rfl

/-- The first page of the chunk. -/
def chunkOf (p : Nat) : Nat := p - p % pagesPerChunk

theorem chunkOf_mod (p : Nat) : chunkOf p % pagesPerChunk = 0 := by
  rw [chunkOf, pagesPerChunk_eq]
  omega

theorem chunkOf_of_mod {p : Nat} (h : p % pagesPerChunk = 0) : chunkOf p = p := by
  rw [chunkOf, h]
  rfl

theorem mod_lt_bitsPerPage (p : Nat) : p % pagesPerChunk < bitsPerPage :=
  lt_trans (Nat.mod_lt p (by decide)) (by decide)

theorem eq_of_chunkOf_eq {b p : Nat} (hc : chunkOf b = chunkOf p)
    (hm : b % pagesPerChunk = p % pagesPerChunk) : b = p := by
  rw [chunkOf, chunkOf, pagesPerChunk_eq] at hc
  rw [pagesPerChunk_eq] at hm
  omega

/-- The header of the page's chunk after the page has been made lossy. -/
def markHeader (t : Pagetable) (p : Nat) : PagetableEntry :=
  PagetableEntry.setBit (match t.find (chunkOf p) with
    | none => { PagetableEntry.zero (chunkOf p) with ischunk := true }
    | some page =>
      if page.ischunk then page
      else PagetableEntry.setBit { PagetableEntry.zero (chunkOf p) with ischunk := true } 0)
    (p % pagesPerChunk)

/-- The table after the page has been made lossy. -/
def markTable (t : Pagetable) (p : Nat) : Pagetable :=
  (if p % pagesPerChunk ≠ 0 then t.remove p else t).enter (markHeader t p)

section Mark

variable {t : Pagetable} {b p : Nat}

theorem markHeader_head : (markHeader t p).blockno = chunkOf p ∧ (markHeader t p).ischunk = true := by
  unfold markHeader
  cases h : t.find (chunkOf p) with
  | none => exact ⟨rfl, rfl⟩
  | some page =>
    by_cases hch : page.ischunk = true
    · simp only [hch, if_true]
      exact ⟨(key_of_find h : page.blockno = chunkOf p), hch⟩
    · simp only [hch]
      exact ⟨rfl, rfl⟩

/-- The new bit, those of the header there was, and the first if the first page was exact. -/
theorem markHeader_bits {k : Nat} : (markHeader t p).words.getLsbD k = true ↔
    k = p % pagesPerChunk ∨ ∃ page, t.find (chunkOf p) = some page ∧
      ((page.ischunk = true ∧ page.words.getLsbD k = true) ∨ (page.ischunk = false ∧ k = 0)) := by
  unfold markHeader
  rw [getLsbD_setBit (mod_lt_bitsPerPage p), Bool.or_eq_true, decide_eq_true_eq, or_comm, eq_comm]
  refine or_congr_right ?_
  cases h : t.find (chunkOf p) with
  | none => simp [PagetableEntry.zero]
  | some page =>
    cases hch : page.ischunk with
    | true => simp [hch]
    | false =>
      have hpos : 0 < bitsPerPage := by decide
      simp only [some.injEq, exists_eq_left', hch, Bool.false_eq_true, if_false, false_and,
        true_and, false_or, getLsbD_setBit hpos, PagetableEntry.zero]
      rw [getLsbD_zero, Bool.false_or, decide_eq_true_eq, eq_comm]

theorem find_markTable : (markTable t p).find b
    = if b = chunkOf p then some (markHeader t p) else if b = p then none else t.find b := by
  split
  next hc =>
    rw [hc, ← (@markHeader_head t p).1]
    exact find_enter_self
  next hc =>
    rw [markTable, find_enter_of_ne (by rwa [markHeader_head.1])]
    by_cases hp : p % pagesPerChunk = 0
    · rw [if_neg (not_not.mpr hp), if_neg]
      intro heq
      exact hc (by rw [heq, chunkOf_of_mod hp])
    rw [if_pos hp]
    split_ifs with heq
    · rw [heq]
      exact find_remove_self
    · exact find_remove_of_ne heq

theorem exactAt_markTable :
    exactAt (markTable t p) b = if b = chunkOf p ∨ b = p then none else exactAt t b := by
  rw [exactAt, find_markTable]
  split
  next hc =>
    rw [if_pos (.inl hc), filter_some, markHeader_head.2]
    rfl
  next hc =>
    split
    next hp =>
      rw [if_pos (.inr hp)]
      rfl
    next hp =>
      rw [if_neg (not_or.mpr ⟨hc, hp⟩)]
      rfl

theorem lossyAt_markTable : lossyAt (markTable t p) b = true ↔
    lossyAt t b = true ∨ b = p ∨ (b = chunkOf p ∧ ∃ page, exactAt t b = some page) := by
  rw [lossyAt_eq_true, lossyAt_eq_true]
  show (∃ page, (markTable t p).find (chunkOf b) = some page ∧ _) ↔
    (∃ page, t.find (chunkOf b) = some page ∧ _) ∨ _
  rw [find_markTable]
  by_cases hc : chunkOf b = chunkOf p
  · rw [if_pos hc]
    simp only [some.injEq, exists_eq_left', markHeader_head.2, true_and, markHeader_bits, hc]
    have hfirst : b % pagesPerChunk = 0 ↔ b = chunkOf p := by
      constructor
      · intro h
        rw [← hc, chunkOf_of_mod h]
      intro h
      rw [h]
      exact chunkOf_mod p
    constructor
    · rintro (h | ⟨page, hf, ⟨hch, hbit⟩ | ⟨hch, hbit⟩⟩)
      · exact .inr (.inl (eq_of_chunkOf_eq hc h))
      · exact .inl ⟨page, hf, hch, hbit⟩
      · have hb := hfirst.mp hbit
        exact .inr (.inr ⟨hb, page, exactAt_eq_some.mpr ⟨hb ▸ hf, hch⟩⟩)
    rintro (⟨page, hf, hch, hbit⟩ | h | ⟨hb, page, hex⟩)
    · exact .inr ⟨page, hf, .inl ⟨hch, hbit⟩⟩
    · exact .inl (by rw [h])
    · obtain ⟨hf, hch⟩ := exactAt_eq_some.mp hex
      exact .inr ⟨page, hb ▸ hf, .inr ⟨hch, hfirst.mpr hb⟩⟩
  have hb : b ≠ p := fun h => hc (by rw [h])
  have hp : chunkOf b ≠ p := by
    intro h
    refine hc ?_
    rw [← h, chunkOf_of_mod (chunkOf_mod b)]
  have hb' : b ≠ chunkOf p := by
    intro h
    refine hc ?_
    rw [h, chunkOf_of_mod (chunkOf_mod p)]
  rw [if_neg hc, if_neg hp]
  simp only [hb, hb', false_and, or_false]

theorem TableValid.mark (hv : TableValid t) (p : Nat) : TableValid (markTable t p) where
  header := by
    intro c page hf hch
    rw [find_markTable] at hf
    by_cases hc : c = chunkOf p
    · rw [hc]
      exact chunkOf_mod p
    rw [if_neg hc] at hf
    split at hf
    · cases hf
    · exact hv.header hf hch
  bits := by
    intro c page k hf hch hk
    rw [find_markTable] at hf
    split at hf
    · cases hf
      rcases markHeader_bits.mp hk with rfl | ⟨old, hold, ⟨hoch, hbit⟩ | ⟨-, rfl⟩⟩
      · exact Nat.mod_lt p (by decide)
      · exact hv.bits hold hoch hbit
      · decide
    split at hf
    · cases hf
    · exact hv.bits hf hch hk
  apart := by
    intro b page hex
    rw [exactAt_markTable] at hex
    split at hex
    · cases hex
    next hcp =>
      rw [not_or] at hcp
      rw [← Bool.not_eq_true, lossyAt_markTable, hv.apart hex]
      simp only [Bool.false_eq_true, hcp.1, hcp.2, false_and, or_self, not_false_eq_true]

theorem pageAt_mark_self : pageAt (markTable t p) p = .lossy :=
  pageAt_of_lossy (lossyAt_markTable.mpr (.inr (.inl rfl)))

/-- Every other page is as it was, or lossy as well. -/
theorem pageAt_mark_of_ne (h : b ≠ p) :
    pageAt (markTable t p) b = pageAt t b ∨ pageAt (markTable t p) b = .lossy := by
  by_cases hl : lossyAt (markTable t p) b = true
  · exact .inr (pageAt_of_lossy hl)
  left
  have hnot := mt lossyAt_markTable.mpr hl
  rw [not_or, not_or] at hnot
  refine pageAt_congr ?_ ?_
  swap
  · rw [Bool.not_eq_true] at hl
    rw [hl, Bool.eq_false_iff.mpr hnot.1]
  rw [exactAt_markTable]
  by_cases hc : b = chunkOf p
  · rw [if_pos (.inl hc)]
    cases hex : exactAt t b with
    | none => rfl
    | some page => exact absurd ⟨hc, page, hex⟩ hnot.2.2
  · rw [if_neg (not_or.mpr ⟨hc, h⟩)]

end Mark

/-! ### Entering an entry -/

section Enter

variable {t : Pagetable} {page old : PagetableEntry} {b : Nat}

theorem exactAt_enter_of_ne (h : b ≠ page.blockno) : exactAt (t.enter page) b = exactAt t b := by
  rw [exactAt, exactAt, find_enter_of_ne h]

theorem lossyAt_enter_of_ne (h : chunkOf b ≠ page.blockno) :
    lossyAt (t.enter page) b = lossyAt t b := by
  unfold lossyAt
  rw [show b - b % pagesPerChunk = chunkOf b from rfl, find_enter_of_ne h]

/-- An exact entry, new or in the place of an exact one. -/
theorem lossyAt_enter_exact (hp : page.ischunk = false)
    (hold : ∀ old, t.find page.blockno = some old → old.ischunk = false) (b : Nat) :
    lossyAt (t.enter page) b = lossyAt t b := by
  by_cases hb : chunkOf b = page.blockno
  swap
  · exact lossyAt_enter_of_ne hb
  have hnew : ¬ lossyAt (t.enter page) b = true := by
    rw [lossyAt_eq_true]
    rintro ⟨e, hf, hch, -⟩
    rw [show b - b % pagesPerChunk = page.blockno from hb, find_enter_self] at hf
    cases hf
    rw [hp] at hch
    cases hch
  have hwas : ¬ lossyAt t b = true := by
    rw [lossyAt_eq_true]
    rintro ⟨e, hf, hch, -⟩
    rw [show b - b % pagesPerChunk = page.blockno from hb] at hf
    rw [hold e hf] at hch
    cases hch
  rw [Bool.eq_false_iff.mpr hnew, Bool.eq_false_iff.mpr hwas]

theorem TableValid.enter_exact (hv : TableValid t) (hp : page.ischunk = false)
    (hold : ∀ old, t.find page.blockno = some old → old.ischunk = false)
    (hl : lossyAt t page.blockno = false) : TableValid (t.enter page) where
  header := by
    intro c e hf hch
    by_cases hc : c = page.blockno
    · rw [hc, find_enter_self] at hf
      cases hf
      rw [hp] at hch
      cases hch
    · rw [find_enter_of_ne hc] at hf
      exact hv.header hf hch
  bits := by
    intro c e k hf hch hk
    by_cases hc : c = page.blockno
    · rw [hc, find_enter_self] at hf
      cases hf
      rw [hp] at hch
      cases hch
    · rw [find_enter_of_ne hc] at hf
      exact hv.bits hf hch hk
  apart := by
    intro b e hex
    rw [lossyAt_enter_exact hp hold]
    by_cases hb : b = page.blockno
    · rw [hb]
      exact hl
    · rw [exactAt_enter_of_ne hb] at hex
      exact hv.apart hex

/-- The entry is the header `old` with the bit for its own page set. -/
structure OwnBit (t : Pagetable) (old page : PagetableEntry) : Prop where
  found : t.find page.blockno = some old
  wasChunk : old.ischunk = true
  isChunk : page.ischunk = true
  bits : ∀ k, page.words.getLsbD k = true ↔ old.words.getLsbD k = true ∨ k = 0

section

variable (h : OwnBit t old page)
include h

theorem OwnBit.lossyAt_of_ne (hb : b ≠ page.blockno) : lossyAt (t.enter page) b = lossyAt t b := by
  by_cases hc : chunkOf b = page.blockno
  · have hmod : b % pagesPerChunk ≠ 0 := fun hm => hb (by rw [← hc, chunkOf_of_mod hm])
    rw [Bool.eq_iff_iff, lossyAt_eq_true, lossyAt_eq_true,
      show b - b % pagesPerChunk = page.blockno from hc, find_enter_self, h.found]
    simp only [some.injEq, exists_eq_left', h.isChunk, h.wasChunk, h.bits, hmod, or_false]
  · exact lossyAt_enter_of_ne hc

theorem OwnBit.exactAt_self : exactAt (t.enter page) page.blockno = none := by
  rw [exactAt, find_enter_self, filter_some, h.isChunk]
  rfl

theorem OwnBit.valid (hv : TableValid t) : TableValid (t.enter page) where
  header := by
    intro c e hf hch
    by_cases hc : c = page.blockno
    · rw [hc]
      exact hv.header h.found h.wasChunk
    · rw [find_enter_of_ne hc] at hf
      exact hv.header hf hch
  bits := by
    intro c e k hf hch hk
    by_cases hc : c = page.blockno
    · rw [hc, find_enter_self] at hf
      cases hf
      rcases (h.bits k).mp hk with hk | rfl
      · exact hv.bits h.found h.wasChunk hk
      · decide
    · rw [find_enter_of_ne hc] at hf
      exact hv.bits hf hch hk
  apart := by
    intro b e hex
    by_cases hb : b = page.blockno
    · rw [hb, h.exactAt_self] at hex
      cases hex
    rw [exactAt_enter_of_ne hb] at hex
    rw [h.lossyAt_of_ne hb]
    exact hv.apart hex

theorem OwnBit.pageAt_self (hv : TableValid t) : pageAt (t.enter page) page.blockno = .lossy := by
  have hmod := hv.header h.found h.wasChunk
  refine pageAt_of_lossy (lossyAt_eq_true.mpr ⟨page, ?_, h.isChunk, ?_⟩)
  · rw [hmod]
    exact find_enter_self
  · rw [hmod]
    exact (h.bits 0).mpr (.inr rfl)

end

end Enter

/-! ### The counts -/

/-- The entries of a bitmap, wherever they are kept. -/
def TIDBitmap.view (tbm : TIDBitmap) : Pagetable :=
  match tbm.status with
  | .empty => .empty
  | .onePage => KeyedTable.empty.enter tbm.entry1
  | .hash => tbm.pagetable

/-- The numbers of entries, of exact ones and of chunk headers. -/
structure CountsOf (t : Pagetable) (nentries npages nchunks : Nat) : Prop where
  nentries : nentries = npages + nchunks
  npages : npages = t.count fun page => !page.ischunk
  nchunks : nchunks = t.count fun page => page.ischunk

section CountsOf

variable {t : Pagetable} {page old : PagetableEntry} {b n np nc : Nat}

section

variable (h : CountsOf t n np nc)
include h

theorem CountsOf.remove {chunk : Bool} (hf : t.find b = some page) (hch : page.ischunk = chunk) :
    CountsOf (t.remove b) (n - 1) (np - (!chunk).toNat) (nc - chunk.toNat) := by
  have hnp := h.npages
  have hnc := h.nchunks
  have hn := h.nentries
  rw [count_remove_of_some hf, hch] at hnp hnc
  cases chunk <;>
    simp only [Bool.not_true, Bool.not_false, Bool.toNat_true, Bool.toNat_false] at hnp hnc ⊢ <;>
    exact ⟨by omega, by omega, by omega⟩

theorem CountsOf.enter_new {chunk : Bool} (hf : t.find page.blockno = none)
    (hch : page.ischunk = chunk) :
    CountsOf (t.enter page) (n + 1) (np + (!chunk).toNat) (nc + chunk.toNat) := by
  refine ⟨?_, ?_, ?_⟩
  · have := h.nentries
    cases chunk <;> simp <;> omega
  · rw [count_enter_of_none hf, ← h.npages, hch]
  · rw [count_enter_of_none hf, ← h.nchunks, hch]

theorem CountsOf.enter_same (hf : t.find page.blockno = some old)
    (hch : page.ischunk = old.ischunk) : CountsOf (t.enter page) n np nc := by
  have hcount : ∀ p : PagetableEntry → Bool, p page = p old →
      (t.enter page).count p = t.count p := by
    intro p hp
    have := count_enter_of_some (p := p) hf
    rw [hp] at this
    omega
  refine ⟨h.nentries, ?_, ?_⟩
  · rw [hcount _ (by rw [hch])]
    exact h.npages
  · rw [hcount _ hch]
    exact h.nchunks

/-- An exact entry becomes a chunk header. -/
theorem CountsOf.enter_over (hf : t.find page.blockno = some old) (hold : old.ischunk = false)
    (hch : page.ischunk = true) : CountsOf (t.enter page) n (np - 1) (nc + 1) := by
  have hnp := count_enter_of_some (p := fun page => !page.ischunk) hf
  have hnc := count_enter_of_some (p := fun page => page.ischunk) hf
  simp only [hold, hch, Bool.not_false, Bool.not_true, Bool.toNat_true, Bool.toNat_false] at hnp hnc
  have := h.nentries
  have := h.npages
  have := h.nchunks
  exact ⟨by omega, by omega, by omega⟩

end
end CountsOf

/-- The counts of a bitmap are those of its entries. -/
structure Counted (tbm : TIDBitmap) : Prop where
  counts : CountsOf tbm.view tbm.nentries tbm.npages tbm.nchunks
  single : tbm.status = .onePage → tbm.entry1.ischunk = false

section Counts

variable {tbm : TIDBitmap} {b : Nat}

theorem view_hash (h : tbm.status = .hash) : tbm.view = tbm.pagetable := by rw [TIDBitmap.view, h]

theorem view_onePage (h : tbm.status = .onePage) : tbm.view = empty.enter tbm.entry1 := by
  rw [TIDBitmap.view, h]

theorem view_createPagetable (h : tbm.status ≠ .hash) :
    (tbmCreatePagetable tbm).view = tbm.view := by
  rw [view_hash rfl]
  cases hs : tbm.status with
  | empty => rw [TIDBitmap.view, tbmCreatePagetable, hs, if_neg (by decide)]
  | onePage => rw [TIDBitmap.view, tbmCreatePagetable, hs, if_pos rfl]
  | hash => exact absurd hs h

section

variable (hc : Counted tbm)
include hc

theorem Counted.createPagetable (h : tbm.status ≠ .hash) : Counted (tbmCreatePagetable tbm) where
  counts := by
    rw [view_createPagetable h]
    exact hc.counts
  single h := by cases h

theorem Counted.hash_of_nchunks (h : tbm.nchunks ≠ 0) : tbm.status = .hash := by
  cases hs : tbm.status with
  | empty =>
    refine absurd hc.counts.nchunks ?_
    rw [TIDBitmap.view, hs]
    exact h
  | onePage =>
    refine absurd hc.counts.nchunks ?_
    rw [view_onePage hs, count_enter_of_none find_empty, hc.single hs]
    exact h
  | hash => rfl

theorem Counted.pageIsLossy (b : Nat) : tbmPageIsLossy tbm b = lossyAt tbm.view b := by
  unfold tbmPageIsLossy
  split_ifs with h
  · rw [eq_comm, ← Bool.not_eq_true, lossyAt_eq_true]
    rintro ⟨page, hf, hch, -⟩
    have hzero : tbm.view.count (fun page => page.ischunk) = 0 := hc.counts.nchunks.symm.trans h
    rw [count_eq_zero hzero hf] at hch
    cases hch
  · rw [view_hash (hc.hash_of_nchunks h)]
    rfl

theorem Counted.entries_of_zero (h : tbm.nentries = 0) : tbm.view.entries = [] := by
  have hnp := hc.counts.npages
  have hnc := hc.counts.nchunks
  have hn := hc.counts.nentries
  refine List.eq_nil_iff_forall_not_mem.mpr fun page hmem => ?_
  have hf := find_of_mem hmem
  have hexact := count_eq_zero (p := fun page => !page.ischunk) (by omega) hf
  have hchunk := count_eq_zero (p := fun page => page.ischunk) (by omega) hf
  rw [hchunk] at hexact
  cases hexact

theorem Counted.findPageentry (b : Nat) : tbmFindPageentry tbm b = exactAt tbm.view b := by
  unfold tbmFindPageentry
  split
  next h =>
    rw [exactAt, find, hc.entries_of_zero h]
    rfl
  next h =>
    cases hs : tbm.status with
    | empty =>
      refine absurd hc.counts.nentries ?_
      rw [hc.counts.npages, hc.counts.nchunks, TIDBitmap.view, hs]
      exact h
    | onePage =>
      rw [view_onePage hs]
      by_cases hb : tbm.entry1.blockno = b
      · rw [if_neg (not_not.mpr hb), ← hb, exactAt, find_enter_self, filter_some, hc.single hs]
        rfl
      · rw [if_pos hb, exactAt, find_enter_of_ne (Ne.symm hb)]
        rfl
    | hash =>
      rw [view_hash hs, exactAt]
      cases hf : tbm.pagetable.find b with
      | none => rfl
      | some page =>
        rw [filter_some]
        cases hch : page.ischunk with
        | true => simp [hch]
        | false => simp [hch]

end

/-! ### Marking a page, with the counts -/

theorem Counted.of_hash (hs : tbm.status = .hash)
    (h : CountsOf tbm.pagetable tbm.nentries tbm.npages tbm.nchunks) : Counted tbm where
  counts := by
    rw [view_hash hs]
    exact h
  single h := by
    rw [hs] at h
    cases h

theorem Counted.afterRemove (hc : Counted tbm) (hs : tbm.status = .hash)
    (hexact : ∀ page, tbm.pagetable.find b = some page → page.ischunk = false) :
    Counted (removeExact tbm b) ∧ (removeExact tbm b).status = .hash ∧
      (removeExact tbm b).pagetable = tbm.pagetable.remove b := by
  unfold removeExact
  cases hf : tbm.pagetable.find b with
  | none => exact ⟨hc, hs, (remove_of_none hf).symm⟩
  | some page =>
    have hcounts := hc.counts
    rw [view_hash hs] at hcounts
    exact ⟨.of_hash hs (hcounts.remove hf (hexact page hf)), hs, rfl⟩

/-- The last part of `tbm_mark_page_lossy`. -/
def enterHeader (tbm : TIDBitmap) (p : Nat) : TIDBitmap :=
  let r := chunkHeader tbm (chunkOf p)
  { r.1 with pagetable := r.1.pagetable.enter (r.2.setBit (p % pagesPerChunk)) }

theorem Counted.afterHeader (hc : Counted tbm) (hs : tbm.status = .hash) (p : Nat) :
    Counted (enterHeader tbm p) ∧ (enterHeader tbm p).status = .hash ∧
      (enterHeader tbm p).pagetable = tbm.pagetable.enter (markHeader tbm.pagetable p) := by
  have hcounts := hc.counts
  rw [view_hash hs] at hcounts
  obtain ⟨hno, hch⟩ := @markHeader_head tbm.pagetable p
  cases hf : tbm.pagetable.find (chunkOf p) with
  | none =>
    have hrun : enterHeader tbm p = { tbm with
        pagetable := tbm.pagetable.enter (markHeader tbm.pagetable p)
        nentries := tbm.nentries + 1
        nchunks := tbm.nchunks + 1 } := by
      rw [enterHeader, chunkHeader, markHeader, hf]
    rw [hrun]
    exact ⟨.of_hash hs (hcounts.enter_new (by rw [hno, hf]) hch), hs, rfl⟩
  | some page =>
    cases hpch : page.ischunk with
    | true =>
      have hrun : enterHeader tbm p = { tbm with
          pagetable := tbm.pagetable.enter (markHeader tbm.pagetable p) } := by
        simp only [enterHeader, chunkHeader, markHeader, hf, hpch, if_true]
      rw [hrun]
      exact ⟨.of_hash hs (hcounts.enter_same (by rw [hno, hf]) (by rw [hch, hpch])), hs, rfl⟩
    | false =>
      have hrun : enterHeader tbm p = { tbm with
          pagetable := tbm.pagetable.enter (markHeader tbm.pagetable p)
          nchunks := tbm.nchunks + 1
          npages := tbm.npages - 1 } := by
        simp only [enterHeader, chunkHeader, markHeader, hf, hpch, Bool.false_eq_true, if_false]
      rw [hrun]
      exact ⟨.of_hash hs (hcounts.enter_over (by rw [hno, hf]) hpch hch), hs, rfl⟩

theorem markHeader_congr {t t' : Pagetable} {p : Nat}
    (h : t'.find (chunkOf p) = t.find (chunkOf p)) : markHeader t' p = markHeader t p := by
  rw [markHeader, markHeader, h]

/-- `tbm_mark_page_lossy` as a change of the entries. -/
theorem Counted.afterMark (hc : Counted tbm) (hv : TableValid tbm.view) (p : Nat) :
    Counted (tbmMarkPageLossy tbm p) ∧ (tbmMarkPageLossy tbm p).view = markTable tbm.view p := by
  obtain ⟨tbm₁, h₁, hc₁, hs₁, ht₁⟩ : ∃ tbm₁,
      (if tbm.status ≠ .hash then tbmCreatePagetable tbm else tbm) = tbm₁ ∧ Counted tbm₁ ∧
        tbm₁.status = .hash ∧ tbm₁.pagetable = tbm.view := by
    by_cases hs : tbm.status = .hash
    · rw [if_neg (not_not.mpr hs)]
      exact ⟨tbm, rfl, hc, hs, (view_hash hs).symm⟩
    · rw [if_pos hs]
      exact ⟨_, rfl, hc.createPagetable hs, rfl, view_createPagetable hs⟩
  obtain ⟨tbm₂, h₂, hc₂, hs₂, ht₂⟩ : ∃ tbm₂,
      (if p % pagesPerChunk ≠ 0 then removeExact tbm₁ p else tbm₁) = tbm₂ ∧ Counted tbm₂ ∧
        tbm₂.status = .hash ∧
        tbm₂.pagetable = if p % pagesPerChunk ≠ 0 then tbm.view.remove p else tbm.view := by
    by_cases hp : p % pagesPerChunk = 0
    · rw [if_neg (not_not.mpr hp), if_neg (not_not.mpr hp)]
      exact ⟨tbm₁, rfl, hc₁, hs₁, ht₁⟩
    rw [if_pos hp, if_pos hp, ← ht₁]
    refine ⟨_, rfl, hc₁.afterRemove hs₁ fun page hf => ?_⟩
    rw [ht₁] at hf
    by_contra hch
    exact hp (hv.header hf (by simpa using hch))
  have hrun : tbmMarkPageLossy tbm p = enterHeader tbm₂ p := by
    rw [← h₂, ← h₁]
    rfl
  obtain ⟨hc₃, hs₃, ht₃⟩ := hc₂.afterHeader hs₂ p
  rw [hrun]
  refine ⟨hc₃, ?_⟩
  rw [view_hash hs₃, ht₃, ht₂]
  congr 1
  refine markHeader_congr ?_
  by_cases hp : p % pagesPerChunk = 0
  · rw [if_neg (not_not.mpr hp)]
  rw [if_pos hp]
  refine find_remove_of_ne fun heq => hp ?_
  rw [← heq]
  exact chunkOf_mod p

/-! ### Getting an entry and writing it back, with the counts -/

/-- What `tbm_get_pageentry` returns is the entry there is, or a zeroed one; and writing an
entry of the same kind back enters it. -/
structure Gets (t : Pagetable) (b : Nat) (r : TIDBitmap × PagetableEntry) : Prop where
  page : r.2 = (t.find b).getD (.zero b)
  store : ∀ page, page.blockno = b → page.ischunk = r.2.ischunk →
    Counted (storePage r.1 page) ∧ (storePage r.1 page).view = t.enter page

theorem Counted.gets_hash (hc : Counted tbm) (hs : tbm.status = .hash) (b : Nat) :
    Gets tbm.view b (hashPageentry tbm b) := by
  have hcounts := hc.counts
  rw [view_hash hs] at hcounts ⊢
  cases hf : tbm.pagetable.find b with
  | some old =>
    have hrun : hashPageentry tbm b = (tbm, old) := by rw [hashPageentry, hf]
    rw [hrun]
    refine ⟨by rw [hf]; rfl, fun page hb hch => ?_⟩
    simp only [storePage, hs, reduceCtorEq, if_false]
    exact ⟨.of_hash rfl (hcounts.enter_same (by rw [hb, hf]) hch), rfl⟩
  | none =>
    have hrun : hashPageentry tbm b = ({ tbm with
        pagetable := tbm.pagetable.enter (.zero b)
        nentries := tbm.nentries + 1
        npages := tbm.npages + 1 }, .zero b) := by rw [hashPageentry, hf]
    rw [hrun]
    refine ⟨by rw [hf]; rfl, fun page hb hch => ?_⟩
    have htwice : (tbm.pagetable.enter (.zero b)).enter page = tbm.pagetable.enter page :=
      enter_enter (by rw [hb]; rfl)
    simp only [storePage, hs, reduceCtorEq, if_false, htwice]
    exact ⟨.of_hash rfl (hcounts.enter_new (by rw [hb, hf]) hch), rfl⟩

theorem Counted.gets (hc : Counted tbm) (b : Nat) : Gets tbm.view b (tbmGetPageentry tbm b) := by
  unfold tbmGetPageentry
  cases hs : tbm.status with
  | hash => exact hc.gets_hash hs b
  | empty =>
    have hview : tbm.view = empty := by rw [TIDBitmap.view, hs]
    have hcounts := hc.counts
    rw [hview] at hcounts ⊢
    refine ⟨rfl, fun page hb hch => ?_⟩
    exact ⟨⟨hcounts.enter_new find_empty hch, fun _ => hch⟩, rfl⟩
  | onePage =>
    by_cases hb : tbm.entry1.blockno = b
    · simp only [hb, if_true]
      have hfind : tbm.view.find b = some tbm.entry1 := by
        rw [view_onePage hs, ← hb]
        exact find_enter_self
      refine ⟨by rw [hfind]; rfl, fun page hpb hch => ?_⟩
      have hstore : storePage tbm page = { tbm with entry1 := page } := by rw [storePage, if_pos hs]
      have hview : (storePage tbm page).view = tbm.view.enter page := by
        rw [hstore, view_onePage hs]
        simp only [hs]
        exact (enter_enter (hb.trans hpb.symm)).symm
      refine ⟨⟨?_, ?_⟩, hview⟩
      · rw [hview, hstore]
        exact hc.counts.enter_same (by rw [hpb, hfind]) hch
      · rw [hstore]
        exact fun _ => hch.trans (hc.single hs)
    simp only [hb, if_false]
    have hne : tbm.status ≠ .hash := by
      rw [hs]
      decide
    rw [← view_createPagetable hne]
    exact (hc.createPagetable hne).gets_hash rfl b

end Counts

/-! ### The set a bitmap stands for -/

theorem Page.Sound.setBit {words : BitVec bitsPerPage} {recheck recheck' : Bool} {s : Set Nat}
    (h : (Page.exact words recheck).Sound s) {k : Nat} (hk : k < bitsPerPage) :
    (Page.exact (words ||| BitVec.twoPow bitsPerPage k) (recheck || recheck')).Sound
      (insert (k + 1) s) := by
  have hbit : ∀ i, (words ||| BitVec.twoPow bitsPerPage k).getLsbD i = true ↔
      words.getLsbD i = true ∨ k = i := by
    intro i
    rw [BitVec.getLsbD_or, BitVec.getLsbD_twoPow, decide_eq_true hk, Bool.true_and,
      Bool.or_eq_true, decide_eq_true_eq]
  constructor
  · rintro off (rfl | hoff)
    · exact ⟨k, (hbit k).mpr (.inr rfl), rfl⟩
    · obtain ⟨i, hi, rfl⟩ := h.1 off hoff
      exact ⟨i, (hbit i).mpr (.inl hi), rfl⟩
  intro hre i hi
  rw [Bool.or_eq_false_iff] at hre
  rcases (hbit i).mp hi with hi | rfl
  · exact .inr (h.2 hre.1 i hi)
  · exact .inl rfl

section

variable {w w' : BitVec bitsPerPage} {r r' : Bool} {s s' : Set Nat} (h : (Page.exact w r).Sound s)
  (h' : (Page.exact w' r').Sound s')
include h h'

theorem Page.Sound.or : (Page.exact (w ||| w') (r || r')).Sound (s ∪ s') := by
  constructor
  · rintro off (hoff | hoff)
    · obtain ⟨i, hi, rfl⟩ := h.1 off hoff
      exact ⟨i, by rw [BitVec.getLsbD_or, hi, Bool.true_or], rfl⟩
    · obtain ⟨i, hi, rfl⟩ := h'.1 off hoff
      exact ⟨i, by rw [BitVec.getLsbD_or, hi, Bool.or_true], rfl⟩
  intro hre i hi
  rw [Bool.or_eq_false_iff] at hre
  rw [BitVec.getLsbD_or, Bool.or_eq_true] at hi
  rcases hi with hi | hi
  · exact .inl (h.2 hre.1 i hi)
  · exact .inr (h'.2 hre.2 i hi)

theorem Page.Sound.and : (Page.exact (w &&& w') (r || r')).Sound (s ∩ s') := by
  constructor
  · rintro off ⟨hoff, hoff'⟩
    obtain ⟨i, hi, rfl⟩ := h.1 off hoff
    obtain ⟨j, hj, heq⟩ := h'.1 (i + 1) hoff'
    cases Nat.succ.inj heq
    exact ⟨i, by rw [BitVec.getLsbD_and, hi, hj, Bool.and_self], rfl⟩
  intro hre i hi
  rw [Bool.or_eq_false_iff] at hre
  rw [BitVec.getLsbD_and, Bool.and_eq_true] at hi
  exact ⟨h.2 hre.1 i hi.1, h'.2 hre.2 i hi.2⟩

end

/-- The tuples of a page in a set of tuple ids. -/
def onPage (S : Set (Nat × Nat)) (b : Nat) : Set Nat := {off | (b, off) ∈ S}

/-- The bitmap stands for the set. -/
structure Represents (tbm : TIDBitmap) (S : Set (Nat × Nat)) : Prop where
  counted : Counted tbm
  valid : TableValid tbm.view
  sound : ∀ b, (pageAt tbm.view b).Sound (onPage S b)

section Represents

variable {tbm : TIDBitmap} {S S' : Set (Nat × Nat)} {b : Nat}

theorem represents_create (maxbytes : Nat) : Represents (tbmCreate maxbytes) ∅ where
  counted := ⟨⟨rfl, rfl, rfl⟩, fun h => by cases h⟩
  valid := tableValid_empty
  sound _ := rfl

section

variable (h : Represents tbm S)
include h

/-- A lossy page may get any tuples. -/
theorem Represents.of_lossy (hl : lossyAt tbm.view b = true)
    (hS : ∀ b', b' ≠ b → onPage S' b' = onPage S b') : Represents tbm S' := by
  refine ⟨h.counted, h.valid, fun b' => ?_⟩
  by_cases hb : b' = b
  · rw [hb, pageAt_of_lossy hl]
    trivial
  · rw [hS b' hb]
    exact h.sound b'

/-- Pages other than `p` stay as they are or become lossy; `p` becomes lossy. -/
theorem Represents.mark (p : Nat) (S' : Set (Nat × Nat))
    (hS : ∀ b, b ≠ p → onPage S' b = onPage S b) : Represents (tbmMarkPageLossy tbm p) S' := by
  obtain ⟨hcounted, hview⟩ := h.counted.afterMark h.valid p
  refine ⟨hcounted, ?_, fun b => ?_⟩
  · rw [hview]
    exact h.valid.mark p
  rw [hview]
  by_cases hb : b = p
  · rw [hb, pageAt_mark_self]
    trivial
  rw [hS b hb]
  rcases pageAt_mark_of_ne (t := tbm.view) hb with heq | heq
  · rw [heq]
    exact h.sound b
  · rw [heq]
    trivial

theorem Represents.lossifyScan (order : List Nat) : Represents (lossifyScan order tbm) S := by
  induction order generalizing tbm with
  | nil => exact h
  | cons blockno rest ih =>
    rw [TidBitmap.lossifyScan]
    cases hf : tbm.pagetable.find blockno with
    | none => exact ih h
    | some page =>
      have hmark := h.mark page.blockno S fun _ _ => rfl
      simp only
      split
      · exact ih h
      split
      · exact ih h
      split_ifs with hle
      · exact hmark
      · exact ih hmark

theorem Represents.lossifyIfOver (order : HashOrder) : Represents (lossifyIfOver order tbm) S := by
  unfold TidBitmap.lossifyIfOver
  split_ifs with hover
  · exact h.lossifyScan _
  · exact h

/-- What an entry that is got says about the page, if it is not a chunk header. -/
theorem Represents.sound_get (hl : lossyAt tbm.view b = false)
    (hch : (tbmGetPageentry tbm b).2.ischunk = false) :
    (Page.exact (tbmGetPageentry tbm b).2.words (tbmGetPageentry tbm b).2.recheck).Sound
      (onPage S b) := by
  have hsound := h.sound b
  have hpage := (h.counted.gets b).page
  cases hf : tbm.view.find b with
  | none =>
    rw [hf] at hpage
    rw [pageAt, hl, exactAt, hf] at hsound
    rw [show onPage S b = ∅ from hsound, hpage]
    refine ⟨fun off hoff => absurd hoff (Set.notMem_empty off), fun _ k hk => ?_⟩
    rw [show (getD none (PagetableEntry.zero b)).words.getLsbD k = false from
      getLsbD_zero] at hk
    cases hk
  | some page =>
    rw [hf] at hpage
    rw [hpage] at hch ⊢
    rwa [h.valid.pageAt_of_exact (exactAt_eq_some.mpr ⟨hf, hch⟩)] at hsound

/-- Writing an entry back: a chunk header gets the bit for its own page, an exact entry is
to say what is true of the new set. -/
theorem Represents.store (page : PagetableEntry) (hl : lossyAt tbm.view b = false)
    (hS : ∀ b', b' ≠ b → onPage S' b' = onPage S b') (hb : page.blockno = b)
    (hch : page.ischunk = (tbmGetPageentry tbm b).2.ischunk)
    (hchunk : page.ischunk = true → ∀ k, page.words.getLsbD k = true ↔
      (tbmGetPageentry tbm b).2.words.getLsbD k = true ∨ k = 0)
    (hexact : page.ischunk = false → (Page.exact page.words page.recheck).Sound (onPage S' b)) :
    Represents (storePage (tbmGetPageentry tbm b).1 page) S' := by
  have hgets := h.counted.gets b
  obtain ⟨hcounted, hview⟩ := hgets.store page hb hch
  cases hpch : page.ischunk with
  | true =>
    have hfound : tbm.view.find b = some (tbmGetPageentry tbm b).2 := by
      cases hf : tbm.view.find b with
      | none =>
        rw [hpch, hgets.page, hf] at hch
        cases hch
      | some old => rw [hgets.page, hf, getD_some]
    have hown : OwnBit tbm.view (tbmGetPageentry tbm b).2 page :=
      ⟨by rw [hb]; exact hfound, by rw [← hch]; exact hpch, hpch, hchunk hpch⟩
    refine ⟨hcounted, ?_, fun b' => ?_⟩
    · rw [hview]
      exact hown.valid h.valid
    rw [hview]
    by_cases hb' : b' = b
    · rw [hb', ← hb, hown.pageAt_self h.valid]
      trivial
    rw [← hb] at hb'
    rw [hS b' (hb ▸ hb'), pageAt_congr (exactAt_enter_of_ne hb') (hown.lossyAt_of_ne hb')]
    exact h.sound b'
  | false =>
    have hold : ∀ old, tbm.view.find page.blockno = some old → old.ischunk = false := by
      intro old hf
      rw [hb] at hf
      rw [hgets.page, hf, hpch] at hch
      exact hch.symm
    have hvalid := h.valid.enter_exact hpch hold (hb ▸ hl)
    refine ⟨hcounted, by rwa [hview], fun b' => ?_⟩
    rw [hview]
    by_cases hb' : b' = b
    · rw [hb', ← hb, hvalid.pageAt_of_exact (exactAt_eq_some.mpr ⟨find_enter_self, hpch⟩), hb]
      exact hexact hpch
    rw [hS b' hb', pageAt_congr (exactAt_enter_of_ne (hb ▸ hb')) (lossyAt_enter_exact hpch hold b')]
    exact h.sound b'

end
end Represents

end PrlPg.TidBitmap
