/-
What an iteration over a bitmap reports.

Two lists are still to be reported at any time: the lossy pages, which are the set bits of the
chunks from the current one on, and the exact pages.  A call of `tbm_iterate` reports the first
of one or of the other (`tbmIterate_cases`), whichever is the lower block.  Both lists are
sorted and have no block in common, so the blocks reported only go up.

The sorted lists of `tbm_begin_iterate` have the sizes of the counts, because the counts are
those of the entries.
-/
import PrlPg.Proofs.TidBitmapOps

namespace PrlPg.TidBitmap

open List KeyedTable

/-! ### What is still to come -/

variable {chunk : PagetableEntry} {bit k : Nat}

/-- The set bits of a chunk from `bit` on. -/
def chunkPages (chunk : PagetableEntry) (bit : Nat) : List Nat :=
  (((List.range pagesPerChunk).drop bit).filter chunk.words.getLsbD).map (chunk.blockno + ·)

/-- The lossy pages still to come. -/
def lossyPages : List PagetableEntry → Nat → List Nat
  | [], _ => []
  | chunk :: rest, bit => chunkPages chunk bit ++ lossyPages rest 0

/-- The first of the set bits from `s` on, and the others. -/
theorem filter_range'_of_find {p : Nat → Bool} {s n : Nat} (h : (range' s n).find? p = some k) :
    (range' s n).filter p = k :: (range' (k + 1) (s + n - (k + 1))).filter p := by
  induction n generalizing s with
  | zero => cases h
  | succ n ih =>
    rw [range'_succ] at h ⊢
    cases hp : p s with
    | true =>
      rw [find?_cons_of_pos hp] at h
      cases h
      rw [filter_cons_of_pos hp, show k + (n + 1) - (k + 1) = n by omega]
    | false =>
      rw [find?_cons_of_neg (by simp [hp])] at h
      rw [filter_cons_of_neg (by simp [hp]), ih h,
        show s + 1 + n - (k + 1) = s + (n + 1) - (k + 1) by omega]

theorem drop_range (n bit : Nat) : (range n).drop bit = range' bit (n - bit) := by
  rw [range_eq_range', drop_range', Nat.zero_add, Nat.mul_one]

section

variable (h : nextChunkBit chunk bit = some k)
include h

theorem nextChunkBit_lt : bit ≤ k ∧ k < pagesPerChunk := by
  have hmem := mem_of_find?_eq_some h
  rw [drop_range, mem_range'_1] at hmem
  omega

theorem nextChunkBit_self : nextChunkBit chunk k = some k := by
  have hlt := nextChunkBit_lt h
  have hbit := find?_some h
  rw [nextChunkBit, drop_range, show pagesPerChunk - k = (pagesPerChunk - k - 1) + 1 by omega,
    range'_succ, find?_cons_of_pos hbit]

theorem chunkPages_of_some :
    chunkPages chunk bit = (chunk.blockno + k) :: chunkPages chunk (k + 1) := by
  have hlt := nextChunkBit_lt h
  unfold nextChunkBit at h
  rw [drop_range] at h
  rw [chunkPages, drop_range, filter_range'_of_find h, map_cons, chunkPages, drop_range,
    show bit + (pagesPerChunk - bit) - (k + 1) = pagesPerChunk - (k + 1) by omega]

end

theorem chunkPages_of_none (h : nextChunkBit chunk bit = none) : chunkPages chunk bit = [] := by
  rw [chunkPages, filter_eq_nil_iff.mpr (find?_eq_none.mp h), map_nil]

/-- The loop over the chunks stops at the first lossy page to come, or at their end. -/
theorem advanceChunk_cases (l : List PagetableEntry) (bit : Nat) :
    ((advanceChunk l bit).1 = [] ∧ lossyPages l bit = []) ∨
    ∃ chunk rest, (advanceChunk l bit).1 = chunk :: rest ∧
      lossyPages l bit = lossyPages (chunk :: rest) (advanceChunk l bit).2 ∧
      lossyPages l bit = (chunk.blockno + (advanceChunk l bit).2) ::
        lossyPages (chunk :: rest) ((advanceChunk l bit).2 + 1) := by
  induction l generalizing bit with
  | nil => exact .inl ⟨rfl, rfl⟩
  | cons chunk rest ih =>
    cases hn : nextChunkBit chunk bit with
    | some k =>
      refine .inr ⟨chunk, rest, ?_, ?_, ?_⟩
      · rw [advanceChunk, hn]
      · rw [advanceChunk, hn, lossyPages, lossyPages, chunkPages_of_some hn,
          chunkPages_of_some (nextChunkBit_self hn)]
      · rw [advanceChunk, hn, lossyPages, chunkPages_of_some hn]
        rfl
    | none =>
      have hrun : advanceChunk (chunk :: rest) bit = advanceChunk rest 0 := by rw [advanceChunk, hn]
      have hpages : lossyPages (chunk :: rest) bit = lossyPages rest 0 := by
        rw [lossyPages, chunkPages_of_none hn, nil_append]
      rw [hrun, hpages]
      exact ih 0

/-- The lossy pages an iterator has still to report. -/
def TBMIterator.lossy (it : TBMIterator) : List Nat := lossyPages it.schunks it.schunkbit

/-- The end, the first lossy page, or the first exact page. -/
theorem tbmIterate_cases (it : TBMIterator) :
    (it.lossy = [] ∧ it.spages = [] ∧ tbmIterate it = none) ∨
    (∃ p l it', it.lossy = p :: l ∧ (∀ page ∈ it.spages.head?, p < page.blockno) ∧
      tbmIterate it = some (lossyResult p, it') ∧ it'.lossy = l ∧ it'.spages = it.spages) ∨
    (∃ page pages it', it.spages = page :: pages ∧ (∀ p ∈ it.lossy.head?, page.blockno ≤ p) ∧
      tbmIterate it = some (exactResult page, it') ∧ it'.lossy = it.lossy ∧
      it'.spages = pages) := by
  rcases advanceChunk_cases it.schunks it.schunkbit with 
    ⟨hnil, hlossy⟩ | ⟨chunk, rest, hcons, hsame, hlossy⟩
  · obtain ⟨bit, hadv⟩ : ∃ bit, advanceChunk it.schunks it.schunkbit = ([], bit) :=
      ⟨_, Prod.ext hnil rfl⟩
    have hl : it.lossy = [] := hlossy
    cases hsp : it.spages with
    | nil =>
      refine .inl ⟨hl, rfl, ?_⟩
      simp only [tbmIterate, hadv, iteratePage, hsp]
    | cons page pages =>
      refine .inr (.inr ⟨page, pages, ⟨pages, [], bit⟩, rfl, ?_, ?_, hl.symm, rfl⟩)
      · rw [hl]
        intro p hp
        cases hp
      · simp only [tbmIterate, hadv, iteratePage, hsp]
  obtain ⟨bit, hadv⟩ : ∃ bit, advanceChunk it.schunks it.schunkbit = (chunk :: rest, bit) :=
    ⟨_, Prod.ext hcons rfl⟩
  rw [hadv] at hlossy hsame
  have hl : it.lossy = (chunk.blockno + bit) :: lossyPages (chunk :: rest) (bit + 1) := hlossy
  cases hsp : it.spages with
  | nil =>
    refine .inr (.inl ⟨_, _, ⟨[], chunk :: rest, bit + 1⟩, hl, ?_, ?_, rfl, rfl⟩)
    · intro page hp
      cases hp
    · simp only [tbmIterate, hadv, hsp]
  | cons page pages =>
    by_cases hlt : chunk.blockno + bit < page.blockno
    · refine .inr (.inl ⟨_, _, ⟨page :: pages, chunk :: rest, bit + 1⟩, hl, ?_, ?_, rfl, rfl⟩)
      · intro page' hp
        cases hp
        exact hlt
      · simp only [tbmIterate, hadv, hsp, hlt, if_true]
    refine .inr (.inr ⟨page, pages, ⟨pages, chunk :: rest, bit⟩, rfl, ?_, ?_, ?_, rfl⟩)
    · rw [hl]
      intro p hp
      cases hp
      exact Nat.le_of_not_lt hlt
    · simp only [tbmIterate, hadv, hsp, hlt, if_false, iteratePage]
    · exact hsame.symm

/-! ### A whole iteration -/

variable {l : List PagetableEntry} {p : Nat} {page : PagetableEntry} {it : TBMIterator}

/-- Calls of `tbm_iterate` until it returns nothing report these pages. -/
inductive Drains : TBMIterator → List TBMIterateResult → Prop
  | done {it : TBMIterator} (h : tbmIterate it = none) : Drains it []
  | next {it it' : TBMIterator} {r : TBMIterateResult} {rs : List TBMIterateResult}
      (h : tbmIterate it = some (r, it')) (hrest : Drains it' rs) : Drains it (r :: rs)

/-- The two lists of an iterator are sorted, and no page is in both. -/
structure Ordered (it : TBMIterator) : Prop where
  lossy : it.lossy.Pairwise (· < ·)
  exact : it.spages.Pairwise fun x y => x.blockno < y.blockno
  apart : ∀ p ∈ it.lossy, ∀ page ∈ it.spages, p ≠ page.blockno

theorem lt_of_lt_head (hl : l.Pairwise fun x y => x.blockno < y.blockno)
    (hhead : ∀ x ∈ l.head?, p < x.blockno) (hmem : page ∈ l) : p < page.blockno := by
  cases l with
  | nil => cases hmem
  | cons x l =>
    have hx := hhead x rfl
    rcases mem_cons.mp hmem with rfl | hmem
    · exact hx
    · exact lt_trans hx ((pairwise_cons.mp hl).1 page hmem)

theorem le_of_le_head {l : List Nat} {b : Nat} (hl : l.Pairwise (· < ·))
    (hhead : ∀ x ∈ l.head?, b ≤ x) (hmem : p ∈ l) : b ≤ p := by
  cases l with
  | nil => cases hmem
  | cons x l =>
    have hx := hhead x rfl
    rcases mem_cons.mp hmem with rfl | hmem
    · exact hx
    · exact le_of_lt (lt_of_le_of_lt hx ((pairwise_cons.mp hl).1 p hmem))

/-- The results are the two lists, in the order of their blocks. -/
theorem Ordered.drains (h : Ordered it) : ∃ rs, Drains it rs ∧
    rs.Pairwise (fun r s => r.blockno < s.blockno) ∧
    ∀ r, r ∈ rs ↔ (∃ p ∈ it.lossy, r = lossyResult p) ∨ ∃ page ∈ it.spages, r = exactResult page := by
  -- each call takes the first page off one of the two lists
  induction hn : it.lossy.length + it.spages.length generalizing it with
  | zero =>
    obtain ⟨hl, hs⟩ := Nat.add_eq_zero_iff.mp hn
    rw [length_eq_zero_iff] at hl hs
    rcases tbmIterate_cases it with ⟨-, -, hrun⟩ | ⟨p, l, it', hl', -⟩ | ⟨page, pages, it', hs', -⟩
    · refine ⟨[], .done hrun, .nil, fun r => ?_⟩
      simp [hl, hs]
    · rw [hl] at hl'
      cases hl'
    · rw [hs] at hs'
      cases hs'
  | succ n ih =>
    rcases tbmIterate_cases it with ⟨hl, hs, -⟩ | ⟨p, l, it', hl, hhead, hrun, hl', hs'⟩ |
      ⟨page, pages, it', hs, hhead, hrun, hl', hs'⟩
    · rw [hl, hs] at hn
      cases hn
    · have hsorted := h.lossy
      have hapart := h.apart
      rw [hl] at hsorted hapart hn
      rw [pairwise_cons] at hsorted
      rw [length_cons] at hn
      have hord : Ordered it' := by
        refine ⟨hl' ▸ hsorted.2, hs' ▸ h.exact, ?_⟩
        rw [hl', hs']
        exact fun q hq => hapart q (mem_cons_of_mem p hq)
      obtain ⟨rs, hdrains, hup, hmem⟩ := ih hord (by rw [hl', hs']; omega)
      rw [hl', hs'] at hmem
      refine ⟨lossyResult p :: rs, .next hrun hdrains, pairwise_cons.mpr ⟨?_, hup⟩, fun r => ?_⟩
      · intro r hr
        rcases (hmem r).mp hr with ⟨q, hq, rfl⟩ | ⟨page, hpage, rfl⟩
        · exact hsorted.1 q hq
        · exact lt_of_lt_head h.exact hhead hpage
      · rw [hl, mem_cons, hmem]
        simp only [mem_cons, exists_eq_or_imp, or_assoc]
    have hsorted := h.exact
    have hapart := h.apart
    rw [hs] at hsorted hapart hn
    rw [pairwise_cons] at hsorted
    rw [length_cons] at hn
    have hord : Ordered it' := by
      refine ⟨hl' ▸ h.lossy, hs' ▸ hsorted.2, ?_⟩
      rw [hl', hs']
      exact fun q hq page' hp => hapart q hq page' (mem_cons_of_mem page hp)
    obtain ⟨rs, hdrains, hup, hmem⟩ := ih hord (by rw [hl', hs']; omega)
    rw [hl', hs'] at hmem
    refine ⟨exactResult page :: rs, .next hrun hdrains, pairwise_cons.mpr ⟨?_, hup⟩, fun r => ?_⟩
    · intro r hr
      rcases (hmem r).mp hr with ⟨q, hq, rfl⟩ | ⟨page', hpage', rfl⟩
      · refine Nat.lt_of_le_of_ne (le_of_le_head h.lossy hhead hq) ?_
        exact (hapart q hq page mem_cons_self).symm
      · exact hsorted.1 page' hpage'
    rw [hs, mem_cons, hmem]
    simp only [mem_cons, exists_eq_or_imp]
    exact or_left_comm

/-! ### The start of an iteration -/

theorem mem_chunkPages : p ∈ chunkPages chunk 0 ↔
    ∃ k < pagesPerChunk, chunk.words.getLsbD k = true ∧ p = chunk.blockno + k := by
  rw [chunkPages, drop_zero, mem_map]
  constructor
  · rintro ⟨k, hk, rfl⟩
    rw [mem_filter, mem_range] at hk
    exact ⟨k, hk.1, hk.2, rfl⟩
  · rintro ⟨k, hk, hbit, rfl⟩
    exact ⟨k, mem_filter.mpr ⟨mem_range.mpr hk, hbit⟩, rfl⟩

theorem mem_lossyPages : p ∈ lossyPages l 0 ↔
    ∃ chunk ∈ l, ∃ k < pagesPerChunk, chunk.words.getLsbD k = true ∧ p = chunk.blockno + k := by
  induction l with
  | nil => simp [lossyPages]
  | cons chunk l ih =>
    rw [lossyPages, mem_append, ih, mem_chunkPages]
    simp only [mem_cons, exists_eq_or_imp]

theorem chunkPages_sorted (chunk : PagetableEntry) : (chunkPages chunk 0).Pairwise (· < ·) := by
  rw [chunkPages, pairwise_map]
  refine (pairwise_lt_range.filter _).imp ?_
  intro j k hjk
  exact Nat.add_lt_add_left hjk _

/-- Chunks in order have their pages in order, since they are a whole chunk apart. -/
theorem lossyPages_sorted (hsorted : l.Pairwise fun x y => x.blockno < y.blockno)
    (hmod : ∀ chunk ∈ l, chunk.blockno % pagesPerChunk = 0) :
    (lossyPages l 0).Pairwise (· < ·) := by
  induction l with
  | nil => exact .nil
  | cons chunk l ih =>
    rw [pairwise_cons] at hsorted
    rw [lossyPages, pairwise_append]
    refine ⟨chunkPages_sorted chunk,
      ih hsorted.2 fun c hc => hmod c (mem_cons_of_mem chunk hc), fun p hp q hq => ?_⟩
    obtain ⟨j, hj, -, rfl⟩ := mem_chunkPages.mp hp
    obtain ⟨c, hc, k, hk, -, rfl⟩ := mem_lossyPages.mp hq
    have hlt := hsorted.1 c hc
    have hm := hmod chunk mem_cons_self
    have hm' := hmod c (mem_cons_of_mem chunk hc)
    rw [pagesPerChunk_eq] at hj hm hm'
    omega

theorem mem_sortPages :
    page ∈ sortPages l ↔ page ∈ l := (mergeSort_perm _ _).mem_iff

/-- Sorting pages with different blocks. -/
theorem sortPages_sorted (hnd : (l.map (·.blockno)).Nodup) :
    (sortPages l).Pairwise fun x y => x.blockno < y.blockno := by
  have hle : (sortPages l).Pairwise fun x y => x.blockno ≤ y.blockno := by
    refine (pairwise_mergeSort ?_ ?_ l).imp ?_
    · intro x y z hxy hyz
      rw [decide_eq_true_eq] at hxy hyz ⊢
      exact le_trans hxy hyz
    · intro x y
      rw [Bool.or_eq_true, decide_eq_true_eq, decide_eq_true_eq]
      exact Nat.le_total _ _
    · intro x y h
      exact of_decide_eq_true h
  have hne : (sortPages l).Pairwise fun x y => x.blockno ≠ y.blockno := by
    have := ((mergeSort_perm l fun x y => decide (x.blockno ≤ y.blockno)).map
      (·.blockno)).nodup_iff.mpr hnd
    exact pairwise_map.mp this
  exact (hle.and hne).imp fun h => Nat.lt_of_le_of_ne h.1 h.2

/-- An iterator at the start: its lists are the exact pages and the lossy pages. -/
structure Starts (tbm : TIDBitmap) (it : TBMIterator) : Prop where
  ordered : Ordered it
  exact : ∀ page, page ∈ it.spages ↔ page ∈ tbm.view.entries ∧ page.ischunk = false
  lossy : ∀ p, p ∈ it.lossy ↔ lossyAt tbm.view p = true

variable {tbm : TIDBitmap} {S : Set (Nat × Nat)}

section

variable (h : Represents tbm S)
include h

theorem Represents.mem_lossy {schunks : List PagetableEntry}
    (hmem : ∀ page, page ∈ schunks ↔ page ∈ tbm.view.entries ∧ page.ischunk = true) (p : Nat) :
    p ∈ lossyPages schunks 0 ↔ lossyAt tbm.view p = true := by
  rw [mem_lossyPages, lossyAt_eq_true]
  constructor
  · rintro ⟨chunk, hchunk, k, hk, hbit, rfl⟩
    obtain ⟨hin, hch⟩ := (hmem chunk).mp hchunk
    have hfind := find_of_mem hin
    have hmod := h.valid.header hfind hch
    have hk' : (chunk.blockno + k) % pagesPerChunk = k := by
      rw [pagesPerChunk_eq] at hmod hk ⊢
      omega
    rw [hk', Nat.add_sub_cancel]
    exact ⟨chunk, hfind, hch, hbit⟩
  rintro ⟨chunk, hfind, hch, hbit⟩
  refine ⟨chunk, (hmem chunk).mpr ⟨mem_of_find hfind, hch⟩, p % pagesPerChunk,
    Nat.mod_lt p (by decide), hbit, ?_⟩
  rw [key_of_find hfind, Nat.sub_add_cancel (Nat.mod_le p _)]

theorem Represents.starts {spages schunks : List PagetableEntry}
    (hspages : ∀ page, page ∈ spages ↔ page ∈ tbm.view.entries ∧ page.ischunk = false)
    (hschunks : ∀ page, page ∈ schunks ↔ page ∈ tbm.view.entries ∧ page.ischunk = true)
    (hsp : spages.Pairwise fun x y => x.blockno < y.blockno)
    (hsc : schunks.Pairwise fun x y => x.blockno < y.blockno) :
    Starts tbm ⟨spages, schunks, 0⟩ := by
  refine ⟨⟨?_, hsp, ?_⟩, hspages, h.mem_lossy hschunks⟩
  · refine lossyPages_sorted hsc fun chunk hchunk => ?_
    obtain ⟨hin, hch⟩ := (hschunks chunk).mp hchunk
    exact h.valid.header (find_of_mem hin) hch
  intro p hp page hpage heq
  obtain ⟨hin, hch⟩ := (hspages page).mp hpage
  have hlossy := (h.mem_lossy hschunks p).mp hp
  rw [heq, h.valid.apart (exactAt_eq_some.mpr ⟨find_of_mem hin, hch⟩)] at hlossy
  cases hlossy

theorem Represents.beginIterate (order : HashOrder) :
    ∃ it, tbmBeginIterate order tbm = some it ∧ Starts tbm it := by
  have hcounts := h.counted.counts
  unfold tbmBeginIterate
  cases hs : tbm.status with
  | empty =>
    have hview : tbm.view = KeyedTable.empty := by rw [TIDBitmap.view, hs]
    have hnp := hcounts.npages
    have hnc := hcounts.nchunks
    rw [hview] at hnp hnc
    rw [if_pos ⟨hnp, hnc⟩]
    refine ⟨_, rfl, h.starts ?_ ?_ .nil .nil⟩
    · simp [hview, KeyedTable.empty]
    · simp [hview, KeyedTable.empty]
  | onePage =>
    have hentries : tbm.view.entries = [tbm.entry1] := by
      rw [view_onePage hs]
      rfl
    have hch := h.counted.single hs
    have hnp := hcounts.npages
    have hnc := hcounts.nchunks
    rw [KeyedTable.count, hentries, countP_singleton, hch] at hnp hnc
    simp only [Bool.not_false, if_true, Bool.false_eq_true, if_false] at hnp hnc
    rw [if_pos hnc, hnp]
    refine ⟨_, rfl, h.starts ?_ ?_ (pairwise_singleton _ _) .nil⟩
    · intro page
      rw [hentries]
      rw [replicate_one, mem_singleton]
      constructor
      · rintro rfl
        exact ⟨rfl, hch⟩
      · exact And.left
    intro page
    rw [hentries, mem_singleton]
    constructor
    · intro hin
      cases hin
    rintro ⟨rfl, hch'⟩
    rw [hch] at hch'
    cases hch'
  | hash =>
    have hview := view_hash hs
    have hperm := order.perm tbm.pagetable.entries
    rw [hview] at hcounts
    have hnodup : ∀ p : PagetableEntry → Bool,
        (((order.scan tbm.pagetable.entries).filter p).map (·.blockno)).Nodup := fun p =>
      (((hperm.map _).nodup_iff.mpr tbm.pagetable.nodup).sublist (filter_sublist.map _))
    dsimp only
    rw [← countP_eq_length_filter, ← countP_eq_length_filter, hperm.countP_eq,
      hperm.countP_eq, if_pos ⟨hcounts.npages.symm, hcounts.nchunks.symm⟩]
    refine ⟨_, rfl, h.starts ?_ ?_ (sortPages_sorted (hnodup _)) (sortPages_sorted (hnodup _))⟩
    · intro page
      rw [mem_sortPages, mem_filter, hperm.mem_iff, hview, Bool.not_eq_true']
    · intro page
      rw [mem_sortPages, mem_filter, hperm.mem_iff, hview]

end

/-! ### The whole iteration -/

/-- What an iteration reports of a set of tuple ids. -/
structure Reports (rs : List TBMIterateResult) (S : Set (Nat × Nat)) : Prop where
  /-- The blocks come in increasing order. -/
  increasing : rs.Pairwise fun r r' => r.blockno < r'.blockno
  /-- Every tuple is on a page reported as lossy, or among the offsets reported. -/
  covers : ∀ tid ∈ S, ∃ r ∈ rs, r.blockno = tid.1 ∧ (r.ntuples < 0 ∨ tid.2 ∈ r.offsets)
  /-- The number of offsets of a page that is not lossy. -/
  counted : ∀ r ∈ rs, 0 ≤ r.ntuples → r.ntuples = r.offsets.length
  /-- Offsets that need no recheck are of tuples in the set. -/
  precise : ∀ r ∈ rs, 0 ≤ r.ntuples → r.recheck = false → ∀ off ∈ r.offsets, (r.blockno, off) ∈ S

theorem Represents.reports (h : Represents tbm S) (hit : Starts tbm it)
    {rs : List TBMIterateResult} (hsorted : rs.Pairwise fun r r' => r.blockno < r'.blockno)
    (hrs : ∀ r, r ∈ rs ↔ (∃ p ∈ it.lossy, r = lossyResult p) ∨
      ∃ page ∈ it.spages, r = exactResult page) : Reports rs S := by
  have hpage : ∀ page ∈ it.spages, pageAt tbm.view page.blockno = .exact page.words page.recheck := by
    intro page hpage
    obtain ⟨hin, hch⟩ := (hit.exact page).mp hpage
    exact h.valid.pageAt_of_exact (exactAt_eq_some.mpr ⟨find_of_mem hin, hch⟩)
  refine ⟨hsorted, fun tid htid => ?_, fun r hr hn => ?_, fun r hr hn hre off hoff => ?_⟩
  · have hsound := h.sound tid.1
    have hoff : tid.2 ∈ onPage S tid.1 := htid
    by_cases hl : lossyAt tbm.view tid.1 = true
    · exact ⟨lossyResult tid.1, (hrs _).mpr (.inl ⟨tid.1, (hit.lossy _).mpr hl, rfl⟩), rfl,
        .inl (Int.negSucc_lt_zero 0)⟩
    rw [pageAt, if_neg hl] at hsound
    cases hat : exactAt tbm.view tid.1 with
    | none =>
      rw [hat] at hsound
      exact absurd hoff (Set.eq_empty_iff_forall_notMem.mp hsound _)
    | some page =>
      rw [hat] at hsound
      obtain ⟨hfind, hch⟩ := exactAt_eq_some.mp hat
      obtain ⟨k, hbit, hk⟩ := hsound.1 tid.2 hoff
      have hblock : page.blockno = tid.1 := key_of_find hfind
      refine ⟨exactResult page, (hrs _).mpr (.inr ⟨page, (hit.exact page).mpr
        ⟨mem_of_find hfind, hch⟩, rfl⟩), hblock, .inr ?_⟩
      rw [hk]
      exact mem_map.mpr ⟨k, mem_bits.mpr hbit, rfl⟩
  · rcases (hrs r).mp hr with ⟨p, -, rfl⟩ | ⟨page, -, rfl⟩
    · exact absurd hn (Int.not_le.mpr (Int.negSucc_lt_zero 0))
    · simp only [exactResult, length_map]
  rcases (hrs r).mp hr with ⟨p, -, rfl⟩ | ⟨page, hin, rfl⟩
  · cases hoff
  have hsound := h.sound page.blockno
  rw [hpage page hin] at hsound
  obtain ⟨k, hk, rfl⟩ := mem_map.mp hoff
  exact hsound.2 hre k (mem_bits.mp hk)

/-- A bitmap built by any operations under any memory limits, scanned to its end. -/
theorem iteration_reports (build : Build) (h : build.OffsetsInRange) (order : HashOrder) :
    ∃ tbm it rs, build.run = some tbm ∧ tbmBeginIterate order tbm = some it ∧ Drains it rs ∧
      Reports rs build.ideal := by
  obtain ⟨tbm, hrun⟩ := Build.run_of_inRange h
  have hrep := Build.represents hrun
  obtain ⟨it, hit, hstarts⟩ := hrep.beginIterate order
  obtain ⟨rs, hdrains, hsorted, hrs⟩ := hstarts.ordered.drains
  exact ⟨tbm, it, rs, hrun, hit, hdrains, hrep.reports hstarts hsorted hrs⟩

/-- Tuples of two pages, intersected with one of the pages, which is lossy, and with a tuple
that is to be rechecked. -/
theorem iteration_reports_mixed : ∃ build tbm it rs, build = Build.intersect ⟨id, .refl⟩
      (.addTuples ⟨id, .refl⟩ (.create 0) [(3, 1), (3, 7), (5, 2)] false)
      (.addTuples ⟨id, .refl⟩ (.addPage ⟨id, .refl⟩ (.create 0) 3) [(5, 4)] true) ∧
    build.run = some tbm ∧ tbmBeginIterate ⟨id, .refl⟩ tbm = some it ∧ Drains it rs ∧
    Reports rs build.ideal ∧ (3, 7) ∈ build.ideal := by
  obtain ⟨tbm, it, rs, hrun, hit, hdrains, hrs⟩ := iteration_reports (.intersect ⟨id, .refl⟩
      (.addTuples ⟨id, .refl⟩ (.create 0) [(3, 1), (3, 7), (5, 2)] false)
      (.addTuples ⟨id, .refl⟩ (.addPage ⟨id, .refl⟩ (.create 0) 3) [(5, 4)] true))
    (by simp [Build.OffsetsInRange, maxTuplesPerPage]) ⟨id, .refl⟩
  exact ⟨_, tbm, it, rs, rfl, hrun, hit, hdrains, hrs, by simp [Build.ideal]⟩

end PrlPg.TidBitmap
