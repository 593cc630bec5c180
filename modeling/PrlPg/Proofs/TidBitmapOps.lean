/-
Every operation on bitmaps keeps what they stand for in step with the sets.

`Build` is a bitmap made by any sequence of operations, on any number of bitmaps: an operation
only ever changes its first operand.  `Build.ideal` is the set obtained by the same set
operations.  The hash table is scanned in a different order each time.

A union goes through the entries of the second bitmap, and each of them accounts for the
tuples on the pages it owns (`owns`); every tuple of the set is on a page that some entry
owns.  An intersection looks at every entry of the first bitmap by itself, so the table
afterwards is known key by key (`find_intersect`).
-/
import PrlPg.Proofs.TidBitmap

namespace PrlPg.TidBitmap

open List KeyedTable Represents Set
open Option (bind_eq_some_iff bind_some map_eq_some_iff)

variable {tbm a b : TIDBitmap} {S Sa Sb : Set (Nat × Nat)} {order : HashOrder}

/-! ### Additions -/

variable {p : Nat} {recheck : Bool} {tids : List (Nat × Nat)} {l : List PagetableEntry}
  {tid : Nat × Nat} {tbm' : TIDBitmap}

theorem onPage_union (S T : Set (Nat × Nat)) (p : Nat) :
    onPage (S ∪ T) p = onPage S p ∪ onPage T p := rfl

/-- Tuple ids with another page add nothing to a page. -/
theorem onPage_union_of_ne {T : Set (Nat × Nat)} {p' : Nat} (hT : ∀ x ∈ T, x.1 = p) (hne : p' ≠ p) :
    onPage (S ∪ T) p' = onPage S p' := by
  ext off
  constructor
  · rintro (h | h)
    · exact h
    · exact absurd (hT _ h) hne
  · exact .inl

theorem blockno_get (hc : Counted tbm) (p : Nat) : (tbmGetPageentry tbm p).2.blockno = p := by
  rw [(hc.gets p).page]
  cases hf : tbm.view.find p with
  | none => rfl
  | some page => exact key_of_find hf

section

variable (h : Represents tbm S)
include h

theorem Represents.addTuple (hrun : addTuple order recheck tbm tid = some tbm') :
    Represents tbm' (S ∪ {tid}) := by
  unfold TidBitmap.addTuple at hrun
  split at hrun
  · cases hrun
  rename_i hoff
  have hS : ∀ p, p ≠ tid.1 → onPage (S ∪ {tid}) p = onPage S p := fun p hp =>
    onPage_union_of_ne (fun x hx => by rw [mem_singleton_iff.mp hx]) hp
  split at hrun
  next hl =>
    cases hrun
    rw [h.counted.pageIsLossy] at hl
    exact h.of_lossy hl hS
  rename_i hl
  cases hrun
  rw [h.counted.pageIsLossy, Bool.not_eq_true] at hl
  refine lossifyIfOver (h.store (.addOffset _ tid.2 recheck) hl hS
    (blockno_get h.counted tid.1) rfl ?_ ?_) order
  · intro hch k
    have hch' : (tbmGetPageentry tbm tid.1).2.ischunk = true := hch
    rw [PagetableEntry.addOffset, if_pos hch', getLsbD_setBit (by decide), Bool.or_eq_true,
      decide_eq_true_eq, eq_comm (a := 0)]
  intro hch
  have hch' : (tbmGetPageentry tbm tid.1).2.ischunk = false := hch
  have hin : tid.2 - 1 < bitsPerPage := by
    have hmax : maxTuplesPerPage < bitsPerPage := by decide
    omega
  have hset : onPage (S ∪ {tid}) tid.1 = insert (tid.2 - 1 + 1) (onPage S tid.1) := by
    rw [show tid.2 - 1 + 1 = tid.2 by omega]
    ext off
    constructor
    · rintro (hx | hx)
      · exact .inr hx
      · exact .inl (congrArg Prod.snd (mem_singleton_iff.mp hx))
    rintro (rfl | hx)
    · exact .inr rfl
    · exact .inl hx
  have hwords : ((tbmGetPageentry tbm tid.1).2.addOffset tid.2 recheck).words
      = (tbmGetPageentry tbm tid.1).2.words ||| BitVec.twoPow bitsPerPage (tid.2 - 1) := by
    rw [PagetableEntry.addOffset, hch']
    rfl
  rw [hset, hwords]
  exact (h.sound_get hl hch').setBit hin

theorem Represents.addTuples (hrun : tbmAddTuples order tbm tids recheck = some tbm') :
    Represents tbm' (S ∪ {tid | tid ∈ tids}) := by
  induction tids generalizing tbm S with
  | nil =>
    cases hrun
    simpa using h
  | cons tid tids ih =>
    obtain ⟨tbm₁, h₁, hrest⟩ := bind_eq_some_iff.mp hrun
    have hset : S ∪ {x | x ∈ tid :: tids} = S ∪ {tid} ∪ {x | x ∈ tids} := by
      ext x
      simp only [mem_union, mem_ofPred_eq, mem_cons, mem_singleton_iff, or_assoc]
    rw [hset]
    exact ih (h.addTuple h₁) hrest

theorem Represents.addPage (order : HashOrder) (pageno : Nat) :
    Represents (tbmAddPage order tbm pageno) (S ∪ {tid | tid.1 = pageno}) :=
  lossifyIfOver (h.mark pageno _ fun _ hp => onPage_union_of_ne (fun _ hx => hx) hp) order

end

/-! ### Union -/

/-- The pages of which an entry says something. -/
def owns (page : PagetableEntry) (p : Nat) : Prop :=
  if page.ischunk then ∃ k, page.words.getLsbD k = true ∧ p = page.blockno + k
  else p = page.blockno

/-- The tuples an entry accounts for. -/
def share (S : Set (Nat × Nat)) (page : PagetableEntry) : Set (Nat × Nat) :=
  {tid | tid ∈ S ∧ owns page tid.1}

theorem Represents.markAll (h : Represents tbm S) (T : Set (Nat × Nat)) (base : Nat)
    (l : List Nat) :
    Represents (l.foldl (fun a k => tbmMarkPageLossy a (base + k)) tbm)
      (S ∪ {tid | tid ∈ T ∧ ∃ k ∈ l, tid.1 = base + k}) := by
  induction l generalizing tbm S with
  | nil => simpa using h
  | cons k l ih =>
    have hmark := h.mark (base + k) (S ∪ {tid | tid ∈ T ∧ tid.1 = base + k}) fun p hp =>
      onPage_union_of_ne (fun x hx => hx.2) hp
    have hset : S ∪ {tid | tid ∈ T ∧ ∃ k' ∈ k :: l, tid.1 = base + k'}
        = S ∪ {tid | tid ∈ T ∧ tid.1 = base + k} ∪ {tid | tid ∈ T ∧ ∃ k' ∈ l, tid.1 = base + k'} := by
      ext x
      simp only [mem_union, mem_ofPred_eq, mem_cons, exists_eq_or_imp, and_or_left, or_assoc]
    rw [hset]
    exact ih hmark

theorem Represents.unionPage (ha : Represents a Sa) (hb : Represents b Sb) {bpage : PagetableEntry}
    (hmem : bpage ∈ b.view.entries) (order : HashOrder) :
    Represents (tbmUnionPage order a bpage) (Sa ∪ share Sb bpage) := by
  unfold tbmUnionPage
  split
  next hch =>
    have hset : share Sb bpage = {tid | tid ∈ Sb ∧ ∃ k ∈ bpage.bits, tid.1 = bpage.blockno + k} := by
      ext x
      simp only [share, owns, hch, if_true, mem_ofPred_eq, mem_bits]
    rw [hset]
    exact lossifyIfOver (ha.markAll Sb bpage.blockno bpage.bits) order
  next hch =>
    rw [Bool.not_eq_true] at hch
    have hshare : ∀ x ∈ share Sb bpage, x.1 = bpage.blockno := by
      intro x hx
      have := hx.2
      rwa [owns, hch] at this
    have hS : ∀ p, p ≠ bpage.blockno → onPage (Sa ∪ share Sb bpage) p = onPage Sa p := fun p hp =>
      onPage_union_of_ne hshare hp
    split_ifs with hl
    · rw [ha.counted.pageIsLossy] at hl
      exact ha.of_lossy hl hS
    rw [ha.counted.pageIsLossy, Bool.not_eq_true] at hl
    have hmerge : ∀ apage : PagetableEntry, (apage.merge bpage).blockno = apage.blockno ∧
        (apage.merge bpage).ischunk = apage.ischunk := by
      intro apage
      unfold PagetableEntry.merge
      split_ifs
      · exact ⟨rfl, rfl⟩
      · exact ⟨rfl, rfl⟩
    refine lossifyIfOver (ha.store (.merge _ bpage) hl hS
      ((hmerge _).1.trans (blockno_get ha.counted _)) (hmerge _).2 ?_ ?_) order
    · intro hach k
      rw [(hmerge _).2] at hach
      rw [PagetableEntry.merge, if_pos hach, getLsbD_setBit (by decide), Bool.or_eq_true,
        decide_eq_true_eq, eq_comm (a := 0)]
    intro hach
    rw [(hmerge _).2] at hach
    have hset : onPage (Sa ∪ share Sb bpage) bpage.blockno
        = onPage Sa bpage.blockno ∪ onPage Sb bpage.blockno := by
      rw [onPage_union]
      congr 1
      ext off
      have howns : owns bpage bpage.blockno := by
        rw [owns, hch]
        rfl
      exact ⟨fun hx => hx.1, fun hx => ⟨hx, howns⟩⟩
    have hbsound := hb.sound bpage.blockno
    rw [hb.valid.pageAt_of_exact (exactAt_eq_some.mpr ⟨find_of_mem hmem, hch⟩)] at hbsound
    rw [PagetableEntry.merge, hach, hset]
    exact (ha.sound_get hl hach).or hbsound

/-- Every tuple of the set is accounted for by an entry. -/
theorem Represents.exists_owner (h : Represents tbm S) (htid : tid ∈ S) :
    ∃ page ∈ tbm.view.entries, owns page tid.1 := by
  have hsound := h.sound tid.1
  by_cases hl : lossyAt tbm.view tid.1 = true
  · obtain ⟨page, hf, hch, hbit⟩ := lossyAt_eq_true.mp hl
    refine ⟨page, mem_of_find hf, ?_⟩
    rw [owns, if_pos hch]
    refine ⟨_, hbit, ?_⟩
    rw [key_of_find hf, Nat.sub_add_cancel (Nat.mod_le _ _)]
  cases hex : exactAt tbm.view tid.1 with
  | none =>
    rw [pageAt, if_neg hl, hex] at hsound
    have : tid.2 ∈ onPage S tid.1 := htid
    rw [show onPage S tid.1 = ∅ from hsound] at this
    exact absurd this (notMem_empty _)
  | some page =>
    obtain ⟨hf, hch⟩ := exactAt_eq_some.mp hex
    refine ⟨page, mem_of_find hf, ?_⟩
    rw [owns, hch]
    exact (key_of_find hf).symm

theorem Represents.unionAll (ha : Represents a Sa) (hb : Represents b Sb) (order : HashOrder)
    (hl : ∀ page ∈ l, page ∈ b.view.entries) :
    Represents (l.foldl (tbmUnionPage order) a) (Sa ∪ {tid | ∃ page ∈ l, tid ∈ share Sb page}) := by
  induction l generalizing a Sa with
  | nil => simpa using ha
  | cons page l ih =>
    have hset : Sa ∪ {tid | ∃ p ∈ page :: l, tid ∈ share Sb p}
        = Sa ∪ share Sb page ∪ {tid | ∃ p ∈ l, tid ∈ share Sb p} := by
      ext x
      simp only [mem_union, mem_ofPred_eq, mem_cons, exists_eq_or_imp, or_assoc]
    rw [hset]
    exact ih (ha.unionPage hb (hl page mem_cons_self) order)
      fun p hp => hl p (mem_cons_of_mem page hp)

theorem Represents.union (ha : Represents a Sa) (hb : Represents b Sb) (order : HashOrder) :
    Represents (tbmUnion order a b) (Sa ∪ Sb) := by
  have hshares : ∀ l : List PagetableEntry, (∀ page, page ∈ l ↔ page ∈ b.view.entries) →
      {tid | ∃ page ∈ l, tid ∈ share Sb page} = Sb := by
    intro l hl
    ext tid
    constructor
    · rintro ⟨page, -, htid⟩
      exact htid.1
    intro htid
    obtain ⟨page, hmem, howns⟩ := hb.exists_owner htid
    exact ⟨page, (hl page).mpr hmem, htid, howns⟩
  unfold tbmUnion
  split
  next hzero =>
    have hSb : Sb = ∅ := by
      rw [← hshares [] fun page => by rw [hb.counted.entries_of_zero hzero]]
      ext tid
      simp
    rwa [hSb, union_empty]
  rename_i hzero
  cases hs : b.status with
  | empty =>
    refine absurd hb.counted.counts.nentries ?_
    rw [hb.counted.counts.npages, hb.counted.counts.nchunks, TIDBitmap.view, hs]
    exact hzero
  | onePage =>
    have hentries : b.view.entries = [b.entry1] := by
      rw [view_onePage hs]
      rfl
    have h := ha.unionAll hb order (l := [b.entry1]) fun page hp => by rwa [hentries]
    rwa [hshares [b.entry1] fun page => by rw [hentries]] at h
  | hash =>
    have hmem : ∀ page, page ∈ order.scan b.pagetable.entries ↔ page ∈ b.view.entries := by
      intro page
      rw [view_hash hs]
      exact (order.perm b.pagetable.entries).mem_iff
    have h := ha.unionAll hb order fun page hp => (hmem page).mp hp
    rwa [hshares _ hmem] at h

/-! ### Intersection -/

variable {page : PagetableEntry} {build : Build}

/-- What is left of an entry. -/
def intersected (b : TIDBitmap) (page : PagetableEntry) : Option PagetableEntry :=
  if (tbmIntersectPage page b).2 then none else some (tbmIntersectPage page b).1

theorem intersectPage_key (b : TIDBitmap) (page : PagetableEntry) :
    (tbmIntersectPage page b).1.blockno = page.blockno ∧
      (tbmIntersectPage page b).1.ischunk = page.ischunk := by
  unfold tbmIntersectPage
  split_ifs
  · exact ⟨rfl, rfl⟩
  · exact ⟨rfl, rfl⟩
  cases tbmFindPageentry b page.blockno with
  | none => exact ⟨rfl, rfl⟩
  | some bpage => exact ⟨rfl, rfl⟩

/-- One page of the scan: the entry is replaced by what is left of it. -/
theorem Counted.intersectStep (hc : Counted a) (hs : a.status = .hash) {apage : PagetableEntry}
    (hf : a.pagetable.find apage.blockno = some apage) :
    Counted (intersectStep b a apage) ∧ (intersectStep b a apage).status = .hash ∧
      (intersectStep b a apage).pagetable.find apage.blockno = intersected b apage ∧
      ∀ k, k ≠ apage.blockno → (intersectStep b a apage).pagetable.find k = a.pagetable.find k := by
  obtain ⟨hkey, hch⟩ := intersectPage_key b apage
  have hcounts := hc.counts
  rw [view_hash hs] at hcounts
  unfold TidBitmap.intersectStep intersected
  by_cases hdel : (tbmIntersectPage apage b).2 = true
  · simp only [hdel, if_true, hkey, hch]
    refine ⟨.of_hash hs ?_, hs, find_remove_self, fun k hk => find_remove_of_ne hk⟩
    cases hach : apage.ischunk with
    | true | false => exact hcounts.remove hf hach
  simp only [hdel, if_false, Bool.false_eq_true]
  refine ⟨.of_hash hs ?_, hs, ?_, fun k hk => ?_⟩
  · exact hcounts.enter_same (by rw [hkey, hf]) hch
  · rw [← hkey]
    exact find_enter_self
  · exact find_enter_of_ne (hkey.symm ▸ hk)

theorem Counted.intersectScan (hc : Counted a) (hs : a.status = .hash)
    (hl : ∀ page ∈ l, a.pagetable.find page.blockno = some page)
    (hnd : (l.map (·.blockno)).Nodup) :
    Counted (l.foldl (TidBitmap.intersectStep b) a) ∧
      (l.foldl (TidBitmap.intersectStep b) a).status = .hash ∧
      (∀ page ∈ l, (l.foldl (TidBitmap.intersectStep b) a).pagetable.find page.blockno
        = intersected b page) ∧
      ∀ k, k ∉ l.map (·.blockno) →
        (l.foldl (TidBitmap.intersectStep b) a).pagetable.find k = a.pagetable.find k := by
  induction l generalizing a with
  | nil => exact ⟨hc, hs, fun page hp => absurd hp not_mem_nil, fun k _ => rfl⟩
  | cons page l ih =>
    rw [map_cons, nodup_cons] at hnd
    obtain ⟨hc₁, hs₁, hown, hother⟩ := hc.intersectStep (b := b) hs (hl page mem_cons_self)
    have hl₁ : ∀ p ∈ l, (TidBitmap.intersectStep b a page).pagetable.find p.blockno = some p := by
      intro p hp
      rw [hother p.blockno fun heq => hnd.1 (mem_map.mpr ⟨p, hp, heq⟩)]
      exact hl p (mem_cons_of_mem page hp)
    obtain ⟨hc₂, hs₂, hin, hout⟩ := ih hc₁ hs₁ hl₁ hnd.2
    rw [foldl_cons]
    refine ⟨hc₂, hs₂, fun p hp => ?_, fun k hk => ?_⟩
    · rcases mem_cons.mp hp with rfl | hp
      · rw [hout _ hnd.1, hown]
      · exact hin p hp
    · rw [map_cons, mem_cons, not_or] at hk
      rw [hout k hk.2, hother k hk.1]

theorem getLsbD_clear (drop : Nat → Bool) (l : List Nat) (w : BitVec bitsPerPage) (i : Nat) :
    (l.foldl (fun neww k => if drop k then neww &&& ~~~BitVec.twoPow bitsPerPage k else neww)
      w).getLsbD i = (w.getLsbD i && !(decide (i ∈ l) && drop i)) := by
  induction l generalizing w with
  | nil => simp
  | cons k l ih =>
    rw [foldl_cons, ih]
    have hone : (if drop k = true then w &&& ~~~BitVec.twoPow bitsPerPage k else w).getLsbD i
        = (w.getLsbD i && !(decide (i = k) && drop k)) := by
      cases hd : drop k with
      | false => simp
      | true =>
        rw [if_pos rfl, BitVec.getLsbD_and, BitVec.getLsbD_not, BitVec.getLsbD_twoPow]
        cases hw : w.getLsbD i with
        | false => rfl
        | true =>
          have hi := BitVec.lt_of_getLsbD hw
          by_cases hik : i = k
          · subst hik
            simp [hi]
          · simp [hi, hik, Ne.symm hik]
    rw [hone]
    by_cases hik : i = k
    · subst hik
      cases drop i <;> cases w.getLsbD i <;> simp
    · simp [hik]

/-- The bits left in a chunk are those of the pages that are in the other bitmap. -/
theorem intersectPage_chunk (hc : Counted b) (hch : page.ischunk = true) (k : Nat) :
    (tbmIntersectPage page b).1.words.getLsbD k = true ↔
      page.words.getLsbD k = true ∧ (lossyAt b.view (page.blockno + k) = true ∨
        ∃ bpage, exactAt b.view (page.blockno + k) = some bpage) := by
  unfold tbmIntersectPage
  rw [if_pos hch]
  simp only [getLsbD_clear fun k => pageMissing b (page.blockno + k)]
  rw [pageMissing, hc.pageIsLossy, hc.findPageentry]
  simp only [mem_bits]
  cases hbit : page.words.getLsbD k with
  | false => simp
  | true =>
    cases hl : lossyAt b.view (page.blockno + k) with
    | true => simp
    | false =>
      cases hex : exactAt b.view (page.blockno + k) with
      | none => simp
      | some bpage => simp

theorem intersectPage_delete (hch : page.ischunk = true) :
    (tbmIntersectPage page b).2 = true ↔ (tbmIntersectPage page b).1.words = 0 := by
  unfold tbmIntersectPage
  rw [if_pos hch]
  simp only [beq_iff_eq]

/-- The table after an intersection, key by key. -/
def IntersectedTable (a b : TIDBitmap) (t : Pagetable) : Prop :=
  ∀ k, t.find k = (a.view.find k).bind (intersected b)

section Meet

variable {t : Pagetable}

section

variable (ht : IntersectedTable a b t)
include ht

/-- A chunk header afterwards was one before. -/
theorem IntersectedTable.chunk {c : Nat} (hf : t.find c = some page) :
    ∃ old, a.view.find c = some old ∧ page = (tbmIntersectPage old b).1 ∧
      (tbmIntersectPage old b).2 = false ∧ page.ischunk = old.ischunk := by
  rw [ht c] at hf
  obtain ⟨old, hold, hleft⟩ := bind_eq_some_iff.mp hf
  unfold intersected at hleft
  split at hleft
  · cases hleft
  next hdel =>
    cases hleft
    exact ⟨old, hold, rfl, by simpa using hdel, (intersectPage_key b old).2⟩

theorem IntersectedTable.lossyAt (hc : Counted b) (p : Nat) :
    lossyAt t p = true ↔ lossyAt a.view p = true ∧
      (TidBitmap.lossyAt b.view p = true ∨ ∃ bpage, exactAt b.view p = some bpage) := by
  have hsum : p - p % pagesPerChunk + p % pagesPerChunk = p :=
    Nat.sub_add_cancel (Nat.mod_le p pagesPerChunk)
  rw [lossyAt_eq_true, lossyAt_eq_true]
  constructor
  · rintro ⟨page, hf, hch, hbit⟩
    obtain ⟨old, hold, rfl, hdel, hsame⟩ := ht.chunk hf
    have hoch : old.ischunk = true := hsame ▸ hch
    have hbits := (intersectPage_chunk hc hoch _).mp hbit
    rw [key_of_find hold, hsum] at hbits
    exact ⟨⟨old, hold, hoch, hbits.1⟩, hbits.2⟩
  rintro ⟨⟨old, hold, hoch, hbit⟩, hin⟩
  have hnew : (tbmIntersectPage old b).1.words.getLsbD (p % pagesPerChunk) = true := by
    rw [intersectPage_chunk hc hoch, key_of_find hold, hsum]
    exact ⟨hbit, hin⟩
  refine ⟨(tbmIntersectPage old b).1, ?_, (intersectPage_key b old).2.trans hoch, hnew⟩
  rw [ht, hold, bind_some, intersected, if_neg]
  rw [intersectPage_delete hoch]
  intro hz
  rw [hz, getLsbD_zero] at hnew
  cases hnew

theorem IntersectedTable.valid (hc : Counted b) (hv : TableValid a.view) : TableValid t where
  header := by
    intro c page hf hch
    obtain ⟨old, hold, -, -, hsame⟩ := ht.chunk hf
    exact hv.header hold (hsame ▸ hch)
  bits := by
    intro c page k hf hch hk
    obtain ⟨old, hold, rfl, -, hsame⟩ := ht.chunk hf
    have hoch : old.ischunk = true := hsame ▸ hch
    exact hv.bits hold hoch ((intersectPage_chunk hc hoch k).mp hk).1
  apart := by
    intro p page hex
    obtain ⟨hf, hch⟩ := exactAt_eq_some.mp hex
    obtain ⟨old, hold, -, -, hsame⟩ := ht.chunk hf
    have hapart := hv.apart (exactAt_eq_some.mpr ⟨hold, hsame ▸ hch⟩)
    rw [← Bool.not_eq_true, ht.lossyAt hc, hapart]
    simp

end

theorem pageAt_of_none (hl : ¬ TidBitmap.lossyAt t p = true) (hex : exactAt t p = none) :
    pageAt t p = .absent := by
  rw [pageAt, if_neg hl, hex]

theorem Represents.onPage_of_absent (h : Represents tbm S)
    (hl : ¬ TidBitmap.lossyAt tbm.view p = true) (hex : exactAt tbm.view p = none) :
    onPage S p = ∅ := by
  have hsound := h.sound p
  rwa [pageAt_of_none hl hex] at hsound

section

variable (ht : IntersectedTable a b t)
include ht

/-- Only an exact entry leaves an exact entry. -/
theorem IntersectedTable.exactAt_of_none (h : exactAt a.view p = none) : exactAt t p = none := by
  cases hex : exactAt t p with
  | none => rfl
  | some page =>
    obtain ⟨hf, hch⟩ := exactAt_eq_some.mp hex
    obtain ⟨old, hold, -, -, hsame⟩ := ht.chunk hf
    rw [exactAt_eq_some.mpr ⟨hold, hsame ▸ hch⟩] at h
    cases h

/-- What is left of an exact entry. -/
theorem IntersectedTable.exactAt_of_some {old : PagetableEntry} (h : exactAt a.view p = some old) :
    exactAt t p = intersected b old := by
  obtain ⟨hold, hch⟩ := exactAt_eq_some.mp h
  rw [exactAt, ht, hold, bind_some]
  unfold intersected
  split_ifs with hdel
  · rfl
  · rw [Option.filter_some, (intersectPage_key b old).2, hch]
    rfl

theorem IntersectedTable.sound (ha : Represents a Sa)
    (hb : Represents b Sb) (p : Nat) : (pageAt t p).Sound (onPage (Sa ∩ Sb) p) := by
  have hset : onPage (Sa ∩ Sb) p = onPage Sa p ∩ onPage Sb p := rfl
  rw [hset]
  by_cases hl : TidBitmap.lossyAt t p = true
  · rw [pageAt_of_lossy hl]
    trivial
  have hnot := mt (ht.lossyAt hb.counted p).mpr hl
  cases hex : exactAt a.view p with
  | none =>
    rw [pageAt_of_none hl (ht.exactAt_of_none hex)]
    by_cases hla : TidBitmap.lossyAt a.view p = true
    swap
    · rw [ha.onPage_of_absent hla hex]
      exact empty_inter _
    -- the page was lossy, and is not in the other bitmap
    have hmiss : ¬ TidBitmap.lossyAt b.view p = true ∧ exactAt b.view p = none := by
      constructor
      · exact fun h => hnot ⟨hla, .inl h⟩
      cases hbx : exactAt b.view p with
      | none => rfl
      | some bpage => exact absurd ⟨hla, .inr ⟨bpage, hbx⟩⟩ hnot
    rw [hb.onPage_of_absent hmiss.1 hmiss.2]
    exact inter_empty _
  | some old =>
    have hasound := ha.sound p
    rw [ha.valid.pageAt_of_exact hex] at hasound
    have hold := exactAt_eq_some.mp hex
    have hno := key_of_find hold.1
    have hrun := ht.exactAt_of_some hex
    rw [intersected, tbmIntersectPage, hold.2, if_neg Bool.false_ne_true,
      hb.counted.pageIsLossy, hb.counted.findPageentry, hno] at hrun
    rw [pageAt, if_neg hl, hrun]
    by_cases hlb : TidBitmap.lossyAt b.view p = true
    · simp only [hlb, if_true, Bool.false_eq_true, if_false]
      exact ⟨fun off hoff => hasound.1 off hoff.1, fun h => by cases h⟩
    simp only [hlb]
    cases hbx : exactAt b.view p with
    | none =>
      rw [hb.onPage_of_absent hlb hbx]
      exact inter_empty _
    | some bpage =>
      have hbsound := hb.sound p
      rw [hb.valid.pageAt_of_exact hbx] at hbsound
      have hand := hasound.and hbsound
      by_cases hz : old.words &&& bpage.words = 0
      · simp only [hz, beq_self_eq_true]
        refine eq_empty_iff_forall_notMem.mpr fun off hoff => ?_
        obtain ⟨k, hk, -⟩ := hand.1 off hoff
        rw [hz, getLsbD_zero] at hk
        cases hk
      · simp only [beq_eq_false_iff_ne.mpr hz, Bool.false_eq_true, if_false]
        exact hand

end

end Meet

/-- The single entry of a bitmap without a hash table. -/
theorem Counted.intersect_onePage (hc : Counted a) (hs : a.status = .onePage)
    (hzero : a.nentries ≠ 0) (order : HashOrder) :
    Counted (tbmIntersect order a b) ∧ IntersectedTable a b (tbmIntersect order a b).view := by
  obtain ⟨hkey, hch⟩ := intersectPage_key b a.entry1
  have hview := view_onePage hs
  have hfind : a.view.find a.entry1.blockno = some a.entry1 := by
    rw [hview]
    exact KeyedTable.find_enter_self
  have hother : ∀ k, k ≠ a.entry1.blockno → a.view.find k = none := by
    intro k hk
    rw [hview, KeyedTable.find_enter_of_ne hk]
    rfl
  rw [tbmIntersect, if_neg hzero, if_pos hs]
  by_cases hdel : (tbmIntersectPage a.entry1 b).2 = true
  · simp only [hdel, if_true]
    refine ⟨⟨?_, fun h => by cases h⟩, fun k => ?_⟩
    · have hcounts := hc.counts.remove hfind (hc.single hs)
      have hgone : a.view.remove a.entry1.blockno = KeyedTable.empty := by
        rw [hview]
        refine KeyedTable.ext (filter_eq_nil_iff.mpr fun page hp => ?_)
        rw [mem_singleton.mp hp, decide_eq_true_eq]
        exact not_not.mpr rfl
      rw [hgone] at hcounts
      exact hcounts
    by_cases hk : k = a.entry1.blockno
    · rw [hk, hfind, bind_some, intersected, if_pos hdel]
      rfl
    · rw [hother k hk]
      rfl
  simp only [hdel, Bool.false_eq_true, if_false, hs]
  have hview' : ∀ a' : TIDBitmap, a'.status = .onePage →
      a'.entry1 = (tbmIntersectPage a.entry1 b).1 →
      a'.view = a.view.enter (tbmIntersectPage a.entry1 b).1 := by
    intro a' hs' he
    rw [view_onePage hs', he, hview]
    exact (KeyedTable.enter_enter hkey.symm).symm
  rw [hview' _ rfl rfl]
  refine ⟨⟨?_, fun _ => hch.trans (hc.single hs)⟩, fun k => ?_⟩
  · rw [hview' _ rfl rfl]
    exact hc.counts.enter_same (by rw [hkey, hfind]) hch
  by_cases hk : k = a.entry1.blockno
  · rw [hk, hfind, bind_some, intersected, if_neg hdel, ← hkey]
    exact KeyedTable.find_enter_self
  · rw [KeyedTable.find_enter_of_ne (hkey.symm ▸ hk), hother k hk]
    rfl

theorem Counted.intersect_hash (hc : Counted a) (hs : a.status = .hash)
    (hzero : a.nentries ≠ 0) (order : HashOrder) :
    Counted (tbmIntersect order a b) ∧ IntersectedTable a b (tbmIntersect order a b).view := by
  have hl : ∀ page ∈ order.scan a.pagetable.entries,
      a.pagetable.find page.blockno = some page := fun page hp =>
    find_of_mem ((order.perm _).mem_iff.mp hp)
  have hnd : ((order.scan a.pagetable.entries).map (·.blockno)).Nodup :=
    ((order.perm _).map _).nodup_iff.mpr a.pagetable.nodup
  obtain ⟨hc', hs', hin, hout⟩ := hc.intersectScan (b := b) hs hl hnd
  rw [tbmIntersect, if_neg hzero, hs, if_neg (by decide)]
  refine ⟨hc', fun k => ?_⟩
  rw [view_hash hs', view_hash hs]
  cases hf : a.pagetable.find k with
  | none =>
    rw [hout k, hf]
    · rfl
    intro hmem
    obtain ⟨page, hp, hk⟩ := mem_map.mp hmem
    rw [← hk, hl page hp] at hf
    cases hf
  | some page =>
    have hmem := (order.perm a.pagetable.entries).mem_iff.mpr (mem_of_find hf)
    rw [← key_of_find hf, hin page hmem]
    rfl

theorem Represents.intersect (ha : Represents a Sa) (hb : Represents b Sb) (order : HashOrder) :
    Represents (tbmIntersect order a b) (Sa ∩ Sb) := by
  obtain ⟨hc, ht⟩ : Counted (tbmIntersect order a b) ∧
      IntersectedTable a b (tbmIntersect order a b).view := by
    by_cases hzero : a.nentries = 0
    · rw [tbmIntersect, if_pos hzero]
      refine ⟨ha.counted, fun k => ?_⟩
      rw [find, ha.counted.entries_of_zero hzero]
      rfl
    cases hs : a.status with
    | empty =>
      refine absurd ha.counted.counts.nentries ?_
      rw [ha.counted.counts.npages, ha.counted.counts.nchunks, TIDBitmap.view, hs]
      exact hzero
    | onePage => exact ha.counted.intersect_onePage hs hzero order
    | hash => exact ha.counted.intersect_hash hs hzero order
  exact ⟨hc, ht.valid hb.counted ha.valid, ht.sound ha hb⟩

/-! ### Whatever is built -/

/-- A bitmap made by the operations, each with the order its scans of a hash table have. -/
inductive Build
  | create (maxbytes : Nat)
  | addTuples (order : HashOrder) (tbm : Build) (tids : List (Nat × Nat)) (recheck : Bool)
  | addPage (order : HashOrder) (tbm : Build) (pageno : Nat)
  | union (order : HashOrder) (a b : Build)
  | intersect (order : HashOrder) (a b : Build)

/-- The bitmap, or `none` if an offset was out of range. -/
def Build.run : Build → Option TIDBitmap
  | create maxbytes => some (tbmCreate maxbytes)
  | addTuples order tbm tids recheck => tbm.run.bind fun tbm => tbmAddTuples order tbm tids recheck
  | addPage order tbm pageno => tbm.run.map fun tbm => tbmAddPage order tbm pageno
  | union order a b => a.run.bind fun a => b.run.map fun b => tbmUnion order a b
  | intersect order a b => a.run.bind fun a => b.run.map fun b => tbmIntersect order a b

/-- The set of tuple ids that the operations describe; a page stands for all its tuples. -/
def Build.ideal : Build → Set (Nat × Nat)
  | create _ => ∅
  | addTuples _ tbm tids _ => tbm.ideal ∪ {tid | tid ∈ tids}
  | addPage _ tbm pageno => tbm.ideal ∪ {tid | tid.1 = pageno}
  | union _ a b => a.ideal ∪ b.ideal
  | intersect _ a b => a.ideal ∩ b.ideal

theorem Build.represents (h : build.run = some tbm) :
    Represents tbm build.ideal := by
  induction build generalizing tbm with
  | create maxbytes =>
    cases h
    exact represents_create maxbytes
  | addTuples order t tids recheck ih =>
    obtain ⟨t', ht', hadd⟩ := bind_eq_some_iff.mp h
    exact (ih ht').addTuples hadd
  | addPage order t pageno ih =>
    obtain ⟨t', ht', rfl⟩ := map_eq_some_iff.mp h
    exact (ih ht').addPage order pageno
  | union order a b iha ihb =>
    obtain ⟨a', ha', h'⟩ := bind_eq_some_iff.mp h
    obtain ⟨b', hb', rfl⟩ := map_eq_some_iff.mp h'
    exact (iha ha').union (ihb hb') order
  | intersect order a b iha ihb =>
    obtain ⟨a', ha', h'⟩ := bind_eq_some_iff.mp h
    obtain ⟨b', hb', rfl⟩ := map_eq_some_iff.mp h'
    exact (iha ha').intersect (ihb hb') order

/-- Every offset added is one that a page can have. -/
def Build.OffsetsInRange : Build → Prop
  | create _ => True
  | addTuples _ tbm tids _ =>
    tbm.OffsetsInRange ∧ ∀ tid ∈ tids, 1 ≤ tid.2 ∧ tid.2 ≤ maxTuplesPerPage
  | addPage _ tbm _ => tbm.OffsetsInRange
  | union _ a b => a.OffsetsInRange ∧ b.OffsetsInRange
  | intersect _ a b => a.OffsetsInRange ∧ b.OffsetsInRange

theorem addTuples_of_inRange (h : ∀ tid ∈ tids, 1 ≤ tid.2 ∧ tid.2 ≤ maxTuplesPerPage) :
    ∃ tbm', tbmAddTuples order tbm tids recheck = some tbm' := by
  unfold tbmAddTuples
  induction tids generalizing tbm with
  | nil => exact ⟨tbm, rfl⟩
  | cons tid tids ih =>
    have hstep : ∃ t, addTuple order recheck tbm tid = some t := by
      have htid := h tid mem_cons_self
      rw [addTuple, if_neg (by omega)]
      split
      · exact ⟨_, rfl⟩
      · exact ⟨_, rfl⟩
    obtain ⟨t, ht⟩ := hstep
    rw [foldlM_cons, ht]
    exact ih fun tid' hin => h tid' (mem_cons_of_mem tid hin)

theorem Build.run_of_inRange (h : build.OffsetsInRange) :
    ∃ tbm, build.run = some tbm := by
  induction build with
  | create maxbytes => exact ⟨_, rfl⟩
  | addTuples order t tids recheck ih =>
    obtain ⟨t', ht'⟩ := ih h.1
    rw [Build.run, ht']
    exact addTuples_of_inRange h.2
  | addPage order t pageno ih =>
    obtain ⟨t', ht'⟩ := ih h
    rw [Build.run, ht']
    exact ⟨_, rfl⟩
  | union order a b iha ihb | intersect order a b iha ihb =>
    obtain ⟨a', ha'⟩ := iha h.1
    obtain ⟨b', hb'⟩ := ihb h.2
    rw [Build.run, ha', hb']
    exact ⟨_, rfl⟩

end PrlPg.TidBitmap
