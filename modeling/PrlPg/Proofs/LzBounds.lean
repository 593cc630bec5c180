/-
What `pglz_decompress` touches when it is given bytes that no compressor wrote.

The loops visit one control byte, literal or tag after the other.  `visits` lists them for a
datum, each with where it stands and what it says, and from it follow the bytes that are read
and written (`accesses`).  That the list is the code's own course is
`decompressLoop_eq_visits`: performing the visits one by one gives the state that the loops
end in, whatever was in the output buffer before.

The code compares its pointers with the ends of the two buffers before a visit, and the
length of a tag with the room that is left.  It does not look whether the second and third
bytes of a tag are there, nor how far back a tag goes.  So the writes stay inside the buffer
for all data, and the rest holds just for the data whose tags are complete and refer to bytes
already written (`staysInBounds_iff`).  Which tags a datum has is a matter of its bytes alone:
`datumTags` reads them off without any output.
-/
import PrlPg.Proofs.LzCompress

namespace PrlPg.Pglz

open List Lz Function

/-! ### Visits -/

/-- One step of the loops: a control byte, a literal, or a tag of `size` bytes, which is copied
if it fits into the output. -/
inductive Visit
  | control (sp : Nat)
  | literal (sp dp : Nat)
  | tag (sp size dp len off : Nat) (fits : Bool)
  deriving DecidableEq

inductive Access
  | readSource (i : Nat)
  | readDest (i : Int)
  | write (i : Int)
  deriving DecidableEq

/-- The bytes that a step touches. -/
def Visit.accesses : Visit → List Access
  | control sp => [.readSource sp]
  | literal sp dp => [.readSource sp, .write dp]
  | tag sp size dp len off fits =>
    ((List.range size).map fun k => .readSource (sp + k)) ++
      if fits then
        (List.range len).flatMap fun k => [.readDest (dp + k - off), .write (dp + k)]
      else []

/-- What a step does to the output. -/
def Visit.perform (source : Nat → UInt8) (dest : Int → UInt8) : Visit → Int → UInt8
  | control _ => dest
  | literal sp dp => Function.update dest dp (source sp)
  | tag _ _ dp len off fits => if fits then copyBack dest dp off len else dest

/-- The steps of a loop and where they lead. -/
structure Walk where
  visits : List Visit
  sp : Nat
  dp : Nat

def Walk.cons (v : Visit) (w : Walk) : Walk := { w with visits := v :: w.visits }

def Walk.append (vs : List Visit) (w : Walk) : Walk := { w with visits := vs ++ w.visits }

def tagSize (source : Nat → UInt8) (sp : Nat) : Nat :=
  if ((source sp).toNat &&& 0x0f) + 3 = 18 then 3 else 2

def tagLen (source : Nat → UInt8) (sp : Nat) : Nat :=
  let len := ((source sp).toNat &&& 0x0f) + 3
  if len = 18 then len + (source (sp + 2)).toNat else len

def tagOff (source : Nat → UInt8) (sp : Nat) : Nat :=
  (((source sp).toNat &&& 0xf0) <<< 4) ||| (source (sp + 1)).toNat

section Loops

variable (source : Nat → UInt8) (srcend destend : Nat)

/-- The steps of `decompressItems`. -/
def visitItems : Nat → UInt8 → Nat → Nat → Walk
  | 0, _, sp, dp => ⟨[], sp, dp⟩
  | n + 1, ctrl, sp, dp =>
    if sp < srcend then
      if ctrl &&& 1 ≠ 0 then
        let len := tagLen source sp
        let size := tagSize source sp
        let fits := !decide (dp + len > destend)
        .cons (.tag sp size dp len (tagOff source sp) fits)
          (if fits then visitItems n (ctrl >>> 1) (sp + size) (dp + len)
          else ⟨[], sp + size, dp + len⟩)
      else if dp ≥ destend then ⟨[], sp, dp⟩
      else .cons (.literal sp dp) (visitItems n (ctrl >>> 1) (sp + 1) (dp + 1))
    else ⟨[], sp, dp⟩

/-- The steps of `decompressLoop`. -/
def visitLoop : Nat → Nat → Nat → Walk
  | 0, sp, dp => ⟨[], sp, dp⟩
  | fuel + 1, sp, dp =>
    if sp < srcend ∧ dp < destend then
      let items := visitItems source srcend destend 8 (source sp) (sp + 1) dp
      .append (.control sp :: items.visits) (visitLoop fuel items.sp items.dp)
    else ⟨[], sp, dp⟩

end Loops

/-- The steps of `pglz_decompress`. -/
def walk (header : Header) (source : Nat → UInt8) : Walk :=
  let srcend := header.varsize - headerSize
  visitLoop source srcend header.rawsize.toNat srcend 0 0

def visits (header : Header) (source : Nat → UInt8) : List Visit := (walk header source).visits

/-- Everything that `pglz_decompress` touches. -/
def accesses (header : Header) (source : Nat → UInt8) : List Access :=
  (visits header source).flatMap Visit.accesses

/-! ### The visits are those of the code -/

/-- The state after performing the steps. -/
def Walk.state (source : Nat → UInt8) (w : Walk) (dest : Int → UInt8) : DecompressState :=
  ⟨w.sp, w.dp, w.visits.foldl (Visit.perform source) dest⟩

section Loops

variable {source : Nat → UInt8} {srcend destend : Nat}

theorem decompressItems_eq_visits (n : Nat) (ctrl : UInt8) (s : DecompressState) :
    decompressItems source srcend destend n ctrl s =
      (visitItems source srcend destend n ctrl s.sp s.dp).state source s.dest := by
  induction n generalizing ctrl s with
  | zero => rfl
  | succ n ih =>
    have hsize : (if ((source s.sp).toNat &&& 0x0f) + 3 = 18 then s.sp + 2 + 1 else s.sp + 2) =
        s.sp + tagSize source s.sp := by
      unfold tagSize
      split <;> rfl
    rw [decompressItems, visitItems]
    split_ifs with hsp hctrl hdp
    · simp only [hsize]
      change (if s.dp + tagLen source s.sp > destend then _ else _) = _
      split
      next hfit =>
        rw [decide_eq_true hfit]
        rfl
      next hfit =>
        rw [decide_eq_false hfit, ih]
        rfl
    · rfl
    · rw [ih]
      rfl
    · rfl

theorem Walk.state_append (vs : List Visit) (w : Walk) (dest : Int → UInt8) :
    (w.append vs).state source dest = w.state source (vs.foldl (Visit.perform source) dest) := by
  simp only [Walk.state, Walk.append, foldl_append]

theorem decompressLoop_eq_visits (fuel : Nat) (s : DecompressState) :
    decompressLoop source srcend destend fuel s =
      (visitLoop source srcend destend fuel s.sp s.dp).state source s.dest := by
  induction fuel generalizing s with
  | zero => rfl
  | succ fuel ih =>
    rw [decompressLoop, visitLoop]
    split_ifs with hrun
    · rw [decompressItems_eq_visits, ih, Walk.state_append]
      rfl
    · rfl

end Loops

theorem pglzDecompress_eq_visits (header : Header) (source : Nat → UInt8) (dest : Int → UInt8) :
    pglzDecompress header source dest =
      if ((walk header source).dp : Int) ≠ header.rawsize ∨
          ((walk header source).sp : Int) ≠ header.varsize - headerSize then none
      else some ((visits header source).foldl (Visit.perform source) dest) := by
  simp only [pglzDecompress, decompressLoop_eq_visits]
  rfl

/-! ### What every walk keeps to -/

/-- Steps that follow on each other, each taken within the two ends. -/
inductive Course (srcend destend : Nat) : Nat → Nat → List Visit → Nat → Nat → Prop
  | done {sp dp : Nat} : Course srcend destend sp dp [] sp dp
  | control {sp dp sp' dp' : Nat} {vs : List Visit} (hsp : sp < srcend)
      (rest : Course srcend destend (sp + 1) dp vs sp' dp') :
      Course srcend destend sp dp (.control sp :: vs) sp' dp'
  | literal {sp dp sp' dp' : Nat} {vs : List Visit} (hsp : sp < srcend) (hdp : dp < destend)
      (rest : Course srcend destend (sp + 1) (dp + 1) vs sp' dp') :
      Course srcend destend sp dp (.literal sp dp :: vs) sp' dp'
  | copy {sp dp size len off sp' dp' : Nat} {vs : List Visit} (hsize : 0 < size)
      (hlen : 0 < len) (hdp : dp + len ≤ destend)
      (rest : Course srcend destend (sp + size) (dp + len) vs sp' dp') :
      Course srcend destend sp dp (.tag sp size dp len off true :: vs) sp' dp'
  | overrun {sp dp size len off sp' dp' : Nat} {vs : List Visit} (hsize : 0 < size)
      (hdp : destend < dp + len)
      (rest : Course srcend destend (sp + size) (dp + len) vs sp' dp') :
      Course srcend destend sp dp (.tag sp size dp len off false :: vs) sp' dp'

theorem tagSize_pos (source : Nat → UInt8) (sp : Nat) : 0 < tagSize source sp := by
  unfold tagSize
  split
  · exact Nat.succ_pos 2
  · exact Nat.succ_pos 1

theorem tagLen_pos (source : Nat → UInt8) (sp : Nat) : 0 < tagLen source sp := by
  simp only [tagLen]
  split
  · omega
  · exact Nat.succ_pos _

section Course

variable {source : Nat → UInt8} {srcend destend sp dp sp' dp' : Nat} {vs : List Visit}

theorem Course.append {sp'' dp'' : Nat} {ws : List Visit}
    (h : Course srcend destend sp dp vs sp' dp') (h' : Course srcend destend sp' dp' ws sp'' dp'') :
    Course srcend destend sp dp (vs ++ ws) sp'' dp'' := by
  induction h with
  | done => exact h'
  | control hsp _ ih => exact .control hsp (ih h')
  | literal hsp hdp _ ih => exact .literal hsp hdp (ih h')
  | copy hsize hlen hdp _ ih => exact .copy hsize hlen hdp (ih h')
  | overrun hsize hdp _ ih => exact .overrun hsize hdp (ih h')

theorem visitItems_course (n : Nat) (ctrl : UInt8) (sp dp : Nat) :
    Course srcend destend sp dp (visitItems source srcend destend n ctrl sp dp).visits
      (visitItems source srcend destend n ctrl sp dp).sp
      (visitItems source srcend destend n ctrl sp dp).dp := by
  induction n generalizing ctrl sp dp with
  | zero => exact .done
  | succ n ih =>
    rw [visitItems]
    split
    next hsp =>
      split
      · by_cases hfit : dp + tagLen source sp > destend
        · simp only [decide_eq_true hfit]
          exact .overrun (tagSize_pos source sp) hfit .done
        simp only [decide_eq_false hfit]
        exact .copy (tagSize_pos source sp) (tagLen_pos source sp) (Nat.le_of_not_lt hfit)
          (ih _ _ _)
      split_ifs with hdp
      · exact .done
      · exact .literal hsp (Nat.lt_of_not_le hdp) (ih _ _ _)
    · exact .done

theorem visitLoop_course (fuel sp dp : Nat) :
    Course srcend destend sp dp (visitLoop source srcend destend fuel sp dp).visits
      (visitLoop source srcend destend fuel sp dp).sp
      (visitLoop source srcend destend fuel sp dp).dp := by
  induction fuel generalizing sp dp with
  | zero => exact .done
  | succ fuel ih =>
    rw [visitLoop]
    split_ifs with hrun
    · exact .control hrun.1 ((visitItems_course 8 _ _ _).append (ih _ _))
    · exact .done

/-- What the code has looked at before it takes a step. -/
def Visit.Placed (srcend destend : Nat) : Visit → Prop
  | .control sp => sp < srcend
  | .literal sp dp => sp < srcend ∧ dp < destend
  | .tag _ size dp len _ fits => 0 < size ∧ (fits = true → 0 < len ∧ dp + len ≤ destend)

section

variable (h : Course srcend destend sp dp vs sp' dp')
include h

theorem Course.le : dp ≤ dp' := by
  induction h with
  | done => exact le_rfl
  | control _ _ ih => exact ih
  | literal _ _ _ ih => omega
  | copy _ _ _ _ ih => omega
  | overrun _ _ _ ih => omega

theorem Course.placed : ∀ v ∈ vs, v.Placed srcend destend := by
  induction h with
  | done => exact forall_mem_nil _
  | control hsp _ ih => exact forall_mem_cons.mpr ⟨hsp, ih⟩
  | literal hsp hdp _ ih => exact forall_mem_cons.mpr ⟨⟨hsp, hdp⟩, ih⟩
  | copy hsize hlen hdp _ ih => exact forall_mem_cons.mpr ⟨⟨hsize, fun _ => ⟨hlen, hdp⟩⟩, ih⟩
  | overrun hsize _ _ ih =>
    exact forall_mem_cons.mpr ⟨⟨hsize, fun hfits => absurd hfits Bool.false_ne_true⟩, ih⟩

/-- Every byte between the ends of a walk that fits is written. -/
theorem Course.fills (hfit : dp' ≤ destend) {i : Nat}
    (hi : dp ≤ i) (hi' : i < dp') : .write i ∈ vs.flatMap Visit.accesses := by
  induction h with
  | done => omega
  | control _ _ ih => exact mem_append_right _ (ih hfit hi hi')
  | @literal sp dp _ _ _ _ _ _ ih =>
    by_cases heq : i = dp
    · rw [heq]
      exact mem_append_left _ (mem_cons_of_mem _ mem_cons_self)
    · exact mem_append_right _ (ih hfit (by omega) hi')
  | @copy sp dp size len off _ _ _ _ _ _ _ ih =>
    by_cases hin : i < dp + len
    · refine mem_append_left _ (mem_append_right _ (mem_flatMap.mpr
        ⟨i - dp, mem_range.mpr (by omega), mem_cons_of_mem _ ?_⟩))
      have hcast : (dp : Int) + ((i - dp : Nat) : Int) = i := by omega
      rw [hcast]
      exact mem_cons_self
    · exact mem_append_right _ (ih hfit (by omega) hi')
  | overrun _ hdp rest _ =>
    have hle := rest.le
    omega

end

/-! ### What the accesses come to -/

/-- The bytes of the tag are all there. -/
def Visit.Complete (srcend : Nat) : Visit → Prop
  | .tag sp size _ _ _ _ => sp + size ≤ srcend
  | _ => True

/-- The tag, if it is copied, goes back no further than the start of the output. -/
def Visit.RefersBack : Visit → Prop
  | .tag _ _ dp _ off fits => fits = true → off ≤ dp
  | _ => True

/-- The tag does not refer to the byte that it is to write. -/
def Visit.RefersBefore : Visit → Prop
  | .tag _ _ _ _ off _ => 0 < off
  | _ => True

section Placed

variable {v : Visit} (h : v.Placed srcend destend)
include h

theorem Visit.Placed.write_lt {i : Int} (hi : .write i ∈ v.accesses) : 0 ≤ i ∧ i < destend := by
  cases v with
  | control sp => simp [Visit.accesses] at hi
  | literal sp dp =>
    obtain rfl : i = dp := by simpa [Visit.accesses] using hi
    exact ⟨Int.natCast_nonneg dp, Int.ofNat_lt.mpr h.2⟩
  | tag sp size dp len off fits =>
    cases fits with
    | false => simp [Visit.accesses] at hi
    | true =>
      obtain ⟨k, hk, rfl⟩ : ∃ k < len, i = dp + k := by simpa [Visit.accesses] using hi
      have := (h.2 rfl).2
      omega

theorem Visit.Placed.reads_iff :
    (∀ i, .readSource i ∈ v.accesses → i < srcend) ↔ v.Complete srcend := by
  cases v with
  | control sp =>
    have hsp : sp < srcend := h
    simpa [Visit.accesses, Visit.Complete] using hsp
  | literal sp dp => simpa [Visit.accesses, Visit.Complete] using h.1
  | tag sp size dp len off fits =>
    have hmem : ∀ i, .readSource i ∈ (Visit.tag sp size dp len off fits).accesses ↔
        ∃ k < size, sp + k = i := by
      intro i
      cases fits <;> simp [Visit.accesses]
    constructor
    · intro hreads
      have := hreads (sp + (size - 1)) ((hmem _).mpr ⟨size - 1, Nat.sub_lt h.1 Nat.one_pos, rfl⟩)
      simp only [Visit.Complete]
      omega
    intro hcomplete i hi
    obtain ⟨k, hk, rfl⟩ := (hmem i).mp hi
    exact lt_of_lt_of_le (Nat.add_lt_add_left hk sp) hcomplete

theorem Visit.Placed.copies_iff : (∀ i, .readDest i ∈ v.accesses → 0 ≤ i) ↔ v.RefersBack := by
  cases v with
  | control sp | literal sp dp => simp [Visit.accesses, Visit.RefersBack]
  | tag sp size dp len off fits =>
    cases fits with
    | false => simp [Visit.accesses, Visit.RefersBack]
    | true =>
      have hmem : ∀ i : Int, .readDest i ∈ (Visit.tag sp size dp len off true).accesses ↔
          ∃ k < len, i = dp + k - off := by
        intro i
        simp [Visit.accesses]
      constructor
      · intro hcopies _
        have := hcopies (dp - off) ((hmem _).mpr ⟨0, (h.2 rfl).1, by simp⟩)
        omega
      intro hback i hi
      obtain ⟨k, hk, rfl⟩ := (hmem i).mp hi
      have := hback rfl
      omega

end Placed

/-! ### Where the output comes from -/

section

variable (h : Course srcend destend sp dp vs sp' dp')
include h

theorem Course.foldl_of_lt {i : Int} (hi : i < dp) (dest : Int → UInt8) :
    vs.foldl (Visit.perform source) dest i = dest i := by
  induction h generalizing dest with
  | done => rfl
  | control _ _ ih => exact ih hi dest
  | literal _ _ _ ih =>
    rw [foldl_cons, ih (by push_cast; omega)]
    exact update_of_ne (by omega) _ _
  | copy _ _ _ _ ih =>
    rw [foldl_cons, ih (by push_cast; omega)]
    exact copyBack_of_outside (.inl hi)
  | overrun _ _ _ ih => exact ih (by push_cast; omega) dest

/-- A tag that refers to the byte it is to write leaves there what was there before. -/
theorem Course.foldl_of_zero (hfit : dp' ≤ destend) {v : Visit} (hv : v ∈ vs)
    (hzero : ¬ v.RefersBefore) :
    ∃ p : Nat, dp ≤ p ∧ p < dp' ∧ ∀ dest, vs.foldl (Visit.perform source) dest p = dest p := by
  induction h with
  | done => cases hv
  | control _ _ ih =>
    rcases mem_cons.mp hv with rfl | hv
    · exact absurd trivial hzero
    · exact ih hfit hv
  | literal _ _ _ ih =>
    rcases mem_cons.mp hv with rfl | hv
    · exact absurd trivial hzero
    obtain ⟨p, hp, hp', hkeep⟩ := ih hfit hv
    refine ⟨p, by omega, hp', fun dest => ?_⟩
    rw [foldl_cons, hkeep]
    exact update_of_ne (by omega) _ _
  | @copy _ dp _ _ _ _ _ _ _ hlen _ rest ih =>
    rcases mem_cons.mp hv with rfl | hv
    · have hle := rest.le
      refine ⟨dp, Nat.le_refl dp, by omega, fun dest => ?_⟩
      rw [foldl_cons, rest.foldl_of_lt (by omega), Nat.eq_zero_of_not_pos hzero,
        Visit.perform, if_pos rfl, copyBack_zero]
    obtain ⟨p, hp, hp', hkeep⟩ := ih hfit hv
    refine ⟨p, by omega, hp', fun dest => ?_⟩
    rw [foldl_cons, hkeep]
    exact copyBack_of_outside (.inr (by omega))
  | overrun _ hdp rest _ =>
    have hle := rest.le
    omega

/-- With every tag referring to bytes already written, the output does not depend on what was
in the buffer. -/
theorem Course.foldl_congr (hfit : dp' ≤ destend) (hback : ∀ v ∈ vs, v.RefersBack)
    (hbefore : ∀ v ∈ vs, v.RefersBefore) {dest dest' : Int → UInt8}
    (hagree : ∀ i : Int, 0 ≤ i → i < dp → dest i = dest' i) :
    ∀ i : Int, 0 ≤ i → i < dp' →
      vs.foldl (Visit.perform source) dest i = vs.foldl (Visit.perform source) dest' i := by
  induction h generalizing dest dest' with
  | done => exact hagree
  | control _ _ ih =>
    rw [forall_mem_cons] at hback hbefore
    exact ih hfit hback.2 hbefore.2 hagree
  | @literal sp dp _ _ _ _ _ _ ih =>
    rw [forall_mem_cons] at hback hbefore
    refine ih hfit hback.2 hbefore.2 fun i h0 hi => ?_
    by_cases heq : i = dp
    · simp only [Visit.perform, heq, update_self]
    · simp only [Visit.perform, update_of_ne heq]
      exact hagree i h0 (by omega)
  | copy _ _ _ _ ih =>
    rw [forall_mem_cons] at hback hbefore
    refine ih hfit hback.2 hbefore.2 fun i h0 hi => ?_
    exact copyBack_congr hbefore.1 (hback.1 rfl) hagree i h0 (by push_cast at hi; omega)
  | overrun _ hdp rest _ =>
    have hle := rest.le
    omega

end
end Course

/-! ### The tags of a datum -/

/-- A tag of the datum: where it stands and how many bytes it has, what it asks to be copied, and
how many bytes of output the groups before its own (`start`) and all the items before it
(`before`) stand for. -/
structure Tag where
  sp : Nat
  size : Nat
  len : Nat
  off : Nat
  start : Nat
  before : Nat

/-- The tags found, the place after the last item, and the bytes that the items stand for. -/
structure Reading where
  tags : List Tag
  sp : Nat
  length : Nat

section Format

variable (source : Nat → UInt8) (srcend : Nat)

/-- The items of a group, of which `length` bytes stand before. -/
def groupTags (start : Nat) : Nat → UInt8 → Nat → Nat → Reading
  | 0, _, sp, length => ⟨[], sp, length⟩
  | n + 1, ctrl, sp, length =>
    if sp < srcend then
      if ctrl &&& 1 ≠ 0 then
        let rest := groupTags start n (ctrl >>> 1) (sp + tagSize source sp)
          (length + tagLen source sp)
        { rest with tags :=
            ⟨sp, tagSize source sp, tagLen source sp, tagOff source sp, start, length⟩ :: rest.tags }
      else groupTags start n (ctrl >>> 1) (sp + 1) (length + 1)
    else ⟨[], sp, length⟩

/-- The groups, each of a control byte and at least one item. -/
def datumTags : Nat → Nat → Nat → Reading
  | 0, sp, length => ⟨[], sp, length⟩
  | fuel + 1, sp, length =>
    if sp + 1 < srcend then
      let group := groupTags source srcend length 8 (source sp) (sp + 1) length
      let rest := datumTags fuel group.sp group.length
      { rest with tags := group.tags ++ rest.tags }
    else ⟨[], sp, length⟩

end Format

/-- The tag as a step of the loops. -/
def Tag.visit (destend : Nat) (t : Tag) : Visit :=
  .tag t.sp t.size t.before t.len t.off (!decide (t.before + t.len > destend))

section Format

variable {source : Nat → UInt8} {srcend destend : Nat}

theorem groupTags_le {start : Nat} (n : Nat) (ctrl : UInt8) (sp length : Nat) :
    length ≤ (groupTags source srcend start n ctrl sp length).length ∧
    ∀ t ∈ (groupTags source srcend start n ctrl sp length).tags,
      t.start = start ∧ length ≤ t.before := by
  induction n generalizing ctrl sp length with
  | zero => exact ⟨le_rfl, forall_mem_nil _⟩
  | succ n ih =>
    rw [groupTags]
    split_ifs with hsp hctrl
    · obtain ⟨hle, htags⟩ := ih (ctrl >>> 1) (sp + tagSize source sp) (length + tagLen source sp)
      refine ⟨by dsimp only; omega, forall_mem_cons.mpr ⟨⟨rfl, le_rfl⟩, fun t ht => ?_⟩⟩
      exact ⟨(htags t ht).1, by have := (htags t ht).2; omega⟩
    · obtain ⟨hle, htags⟩ := ih (ctrl >>> 1) (sp + 1) (length + 1)
      exact ⟨by omega, fun t ht => ⟨(htags t ht).1, by have := (htags t ht).2; omega⟩⟩
    · exact ⟨le_rfl, forall_mem_nil _⟩

/-- A group has an item, which stands for a byte at least. -/
theorem groupTags_lt {start n : Nat} (hn : n ≠ 0) {ctrl : UInt8} {sp : Nat} (hsp : sp < srcend)
    (length : Nat) : length < (groupTags source srcend start n ctrl sp length).length := by
  obtain ⟨n, rfl⟩ := Nat.exists_eq_succ_of_ne_zero hn
  have hlen := tagLen_pos source sp
  rw [groupTags, if_pos hsp]
  split_ifs with hctrl
  · have := (@groupTags_le source srcend start n (ctrl >>> 1) (sp + tagSize source sp)
      (length + tagLen source sp)).1
    dsimp only
    omega
  · have := (@groupTags_le source srcend start n (ctrl >>> 1) (sp + 1) (length + 1)).1
    omega

theorem datumTags_le (fuel sp length : Nat) :
    length ≤ (datumTags source srcend fuel sp length).length ∧
    ∀ t ∈ (datumTags source srcend fuel sp length).tags, length ≤ t.start := by
  induction fuel generalizing sp length with
  | zero => exact ⟨le_rfl, forall_mem_nil _⟩
  | succ fuel ih =>
    rw [datumTags]
    split_ifs with hsp
    · have hgroup := @groupTags_le source srcend length 8 (source sp) (sp + 1) length
      obtain ⟨hle, htags⟩ := ih
        (groupTags source srcend length 8 (source sp) (sp + 1) length).sp
        (groupTags source srcend length 8 (source sp) (sp + 1) length).length
      refine ⟨hgroup.1.trans hle, forall_mem_append.mpr ⟨fun t ht => ?_, fun t ht => ?_⟩⟩
      · exact (hgroup.2 t ht).1.ge
      · exact hgroup.1.trans (htags t ht)
    · exact ⟨le_rfl, forall_mem_nil _⟩

section

variable {Q : Visit → Prop} (hliteral : ∀ sp dp, Q (.literal sp dp))
include hliteral

/-- The tags of a group that the loop comes to are those before which the output is not overrun. -/
theorem visitItems_tags {start : Nat} (n : Nat) (ctrl : UInt8) (sp dp : Nat) (hdp : dp ≤ destend) :
    (∀ v ∈ (visitItems source srcend destend n ctrl sp dp).visits, Q v) ↔
      ∀ t ∈ (groupTags source srcend start n ctrl sp dp).tags, t.before ≤ destend →
        Q (t.visit destend) := by
  induction n generalizing ctrl sp dp with
  | zero => exact ⟨fun _ => forall_mem_nil _, fun _ => forall_mem_nil _⟩
  | succ n ih =>
    rw [visitItems, groupTags]
    split_ifs with hsp hctrl hfull
    · rw [Walk.cons, forall_mem_cons, forall_mem_cons]
      refine and_congr ⟨fun h _ => h, fun h => h hdp⟩ ?_
      by_cases hfit : dp + tagLen source sp > destend
      · simp only [decide_eq_true hfit]
        refine ⟨fun _ t ht hbefore => ?_, fun _ => forall_mem_nil _⟩
        have := ((groupTags_le _ _ _ _).2 t ht).2
        omega
      · simp only [decide_eq_false hfit]
        exact ih _ _ _ (Nat.le_of_not_lt hfit)
    · refine ⟨fun _ t ht hbefore => ?_, fun _ => forall_mem_nil _⟩
      have := ((groupTags_le _ _ _ _).2 t ht).2
      omega
    · rw [Walk.cons, forall_mem_cons, ← ih _ _ _ (by omega)]
      exact ⟨fun h => h.2, fun h => ⟨hliteral sp dp, h⟩⟩
    · exact ⟨fun _ => forall_mem_nil _, fun _ => forall_mem_nil _⟩

end

/-- Where a loop ends.  If the output is not full it has taken all the items. -/
def Walk.Ends (srcend destend : Nat) (w : Walk) (r : Reading) : Prop :=
  w.dp ≤ r.length ∧ (w.dp < destend → w.sp = r.sp ∧ w.dp = r.length) ∧
    (w.dp = destend ∧ w.sp = srcend ↔ r.length = destend ∧ r.sp = srcend)

theorem visitItems_ends {start : Nat} (n : Nat) (ctrl : UInt8) (sp dp : Nat) :
    (visitItems source srcend destend n ctrl sp dp).Ends srcend destend
      (groupTags source srcend start n ctrl sp dp) := by
  induction n generalizing ctrl sp dp with
  | zero => exact ⟨le_rfl, fun _ => ⟨rfl, rfl⟩, Iff.rfl⟩
  | succ n ih =>
    rw [visitItems, groupTags]
    split_ifs with hsp hctrl hfull
    · by_cases hfit : dp + tagLen source sp > destend
      · have hle := (@groupTags_le source srcend start n (ctrl >>> 1) (sp + tagSize source sp)
          (dp + tagLen source sp)).1
        simp only [decide_eq_true hfit, Walk.cons]
        exact ⟨hle, fun h => by dsimp at h; omega, by dsimp; omega⟩
      · simp only [decide_eq_false hfit]
        exact ih _ _ _
    · have hle := (@groupTags_le source srcend start n (ctrl >>> 1) (sp + 1) (dp + 1)).1
      exact ⟨by dsimp only; omega, fun h => by dsimp only at h; omega, by dsimp only; omega⟩
    · exact ih _ _ _
    · exact ⟨le_rfl, fun _ => ⟨rfl, rfl⟩, Iff.rfl⟩

theorem visitItems_last {n : Nat} {ctrl : UInt8} {sp dp : Nat} (hsp : ¬ sp < srcend) :
    visitItems source srcend destend n ctrl sp dp = ⟨[], sp, dp⟩ := by
  cases n with
  | zero => rfl
  | succ n => rw [visitItems, if_neg hsp]

theorem visitLoop_stop {fuel sp dp : Nat} (h : ¬ (sp < srcend ∧ dp < destend)) :
    visitLoop source srcend destend fuel sp dp = ⟨[], sp, dp⟩ := by
  cases fuel with
  | zero => rfl
  | succ fuel => rw [visitLoop, if_neg h]

theorem visitLoop_last {fuel sp dp : Nat} (hrun : sp < srcend ∧ dp < destend)
    (hsp : ¬ sp + 1 < srcend) :
    visitLoop source srcend destend (fuel + 1) sp dp = ⟨[.control sp], sp + 1, dp⟩ := by
  rw [visitLoop, if_pos hrun, visitItems_last hsp]
  simp only [Walk.append]
  rw [visitLoop_stop fun h => hsp h.1]
  rfl

theorem datumTags_stop {fuel sp length : Nat} (hsp : ¬ sp + 1 < srcend) :
    datumTags source srcend fuel sp length = ⟨[], sp, length⟩ := by
  cases fuel with
  | zero => rfl
  | succ fuel => rw [datumTags, if_neg hsp]

/-- Groups that stand for nothing are none. -/
theorem datumTags_stays {fuel sp length : Nat}
    (h : (datumTags source srcend fuel sp length).length = length) :
    (datumTags source srcend fuel sp length).sp = sp := by
  cases fuel with
  | zero => rfl
  | succ fuel =>
    by_cases hsp : sp + 1 < srcend
    · have hlt := @groupTags_lt source srcend length 8 (by decide) (source sp) (sp + 1) hsp length
      have hle := (@datumTags_le source srcend fuel
        (groupTags source srcend length 8 (source sp) (sp + 1) length).sp
        (groupTags source srcend length 8 (source sp) (sp + 1) length).length).1
      rw [datumTags, if_pos hsp] at h
      dsimp only at h
      omega
    · rw [datumTags_stop hsp]

/-- The tags of the datum that the loops come to. -/
theorem visitLoop_tags {Q : Visit → Prop} (hcontrol : ∀ sp, Q (.control sp))
    (hliteral : ∀ sp dp, Q (.literal sp dp)) (fuel sp dp : Nat) :
    (∀ v ∈ (visitLoop source srcend destend fuel sp dp).visits, Q v) ↔
      ∀ t ∈ (datumTags source srcend fuel sp dp).tags, t.start < destend → t.before ≤ destend →
        Q (t.visit destend) := by
  induction fuel generalizing sp dp with
  | zero => exact ⟨fun _ => forall_mem_nil _, fun _ => forall_mem_nil _⟩
  | succ fuel ih =>
    by_cases hrun : sp < srcend ∧ dp < destend
    swap
    · -- nothing is left to read, or the output is full before the group starts
      rw [visitLoop_stop hrun]
      refine ⟨fun _ t ht hstart => ?_, fun _ => forall_mem_nil _⟩
      by_cases hsp : sp + 1 < srcend
      · have := (datumTags_le _ _ _).2 t ht
        omega
      · rw [datumTags_stop hsp] at ht
        cases ht
    by_cases hsp : sp + 1 < srcend
    swap
    · rw [datumTags_stop hsp, visitLoop_last hrun hsp]
      refine ⟨fun _ => forall_mem_nil _, fun _ => ?_⟩
      exact forall_mem_cons.mpr ⟨hcontrol sp, forall_mem_nil _⟩
    have hitems := @visitItems_tags source srcend destend Q hliteral dp 8 (source sp) (sp + 1) dp
      hrun.2.le
    obtain ⟨hle, hmore, -⟩ := @visitItems_ends source srcend destend dp 8 (source sp) (sp + 1) dp
    have hstart := (@groupTags_le source srcend dp 8 (source sp) (sp + 1) dp).2
    rw [visitLoop, if_pos hrun, datumTags, if_pos hsp]
    simp only [Walk.append, cons_append, forall_mem_cons, forall_mem_append, hitems]
    refine ⟨fun h => ⟨fun t ht _ => h.2.1 t ht, ?_⟩, fun h => ⟨hcontrol sp, fun t ht => ?_, ?_⟩⟩
    · by_cases hfull : (visitItems source srcend destend 8 (source sp) (sp + 1) dp).dp < destend
      · rw [← (hmore hfull).1, ← (hmore hfull).2]
        exact (ih _ _).mp h.2.2
      · intro t ht hlt
        have := (datumTags_le _ _ _).2 t ht
        omega
    · exact h.1 t ht (by rw [(hstart t ht).1]; exact hrun.2)
    · by_cases hfull : (visitItems source srcend destend 8 (source sp) (sp + 1) dp).dp < destend
      · have h2 := h.2
        rw [← (hmore hfull).1, ← (hmore hfull).2] at h2
        exact (ih _ _).mpr h2
      · rw [visitLoop_stop (by omega)]
        exact forall_mem_nil _

/-- The loops end at both ends just if the items stand for as many bytes as wanted, with nothing
left over. -/
theorem visitLoop_exact (fuel sp dp : Nat) :
    (visitLoop source srcend destend fuel sp dp).dp = destend ∧
        (visitLoop source srcend destend fuel sp dp).sp = srcend ↔
      (datumTags source srcend fuel sp dp).length = destend ∧
        (datumTags source srcend fuel sp dp).sp = srcend := by
  induction fuel generalizing sp dp with
  | zero => exact Iff.rfl
  | succ fuel ih =>
    by_cases hsp : sp + 1 < srcend
    swap
    · rw [datumTags_stop hsp]
      by_cases hrun : sp < srcend ∧ dp < destend
      · rw [visitLoop_last hrun hsp]
        dsimp only
        omega
      · rw [visitLoop_stop hrun]
    have hlt := @groupTags_lt source srcend dp 8 (by decide) (source sp) (sp + 1) hsp dp
    have hle := (@datumTags_le source srcend fuel
      (groupTags source srcend dp 8 (source sp) (sp + 1) dp).sp
      (groupTags source srcend dp 8 (source sp) (sp + 1) dp).length).1
    rw [datumTags, if_pos hsp]
    by_cases hrun : sp < srcend ∧ dp < destend
    swap
    · rw [visitLoop_stop hrun]
      dsimp only
      omega
    obtain ⟨hends, hmore, hexact⟩ :=
      @visitItems_ends source srcend destend dp 8 (source sp) (sp + 1) dp
    rw [visitLoop, if_pos hrun]
    simp only [Walk.append]
    by_cases hfull : (visitItems source srcend destend 8 (source sp) (sp + 1) dp).dp < destend
    · rw [← (hmore hfull).1, ← (hmore hfull).2]
      exact ih _ _
    rw [visitLoop_stop (by omega)]
    -- the output is full: the group is the last one if it ends where the datum does
    refine hexact.trans ⟨fun h => ?_, fun h => ?_⟩
    · rw [datumTags_stop (by omega)]
      exact h
    · have hlength : (groupTags source srcend dp 8 (source sp) (sp + 1) dp).length = destend := by
        have := h.1
        omega
      exact ⟨hlength, (datumTags_stays (h.1.trans hlength.symm)).symm.trans h.2⟩

end Format

/-! ### The whole datum -/

/-- Decompressing the datum touches nothing outside of it and of the output buffer, and either
reports corruption or fills the buffer with bytes that do not depend on what was there. -/
structure StaysInBounds (header : Header) (source : Nat → UInt8) : Prop where
  reads : ∀ i, .readSource i ∈ accesses header source → i < header.varsize - headerSize
  copies : ∀ i, .readDest i ∈ accesses header source → 0 ≤ i
  writes : ∀ i, .write i ∈ accesses header source → 0 ≤ i ∧ i < header.rawsize
  fills : ∀ dest out, pglzDecompress header source dest = some out →
    ∀ i, 0 ≤ i → i < header.rawsize → .write i ∈ accesses header source
  derived : ∀ dest dest' out out', pglzDecompress header source dest = some out →
    pglzDecompress header source dest' = some out' →
      ∀ i, 0 ≤ i → i < header.rawsize → out i = out' i

section Datum

variable {header : Header} {source : Nat → UInt8}

theorem walk_course (header : Header) (source : Nat → UInt8) :
    Course (header.varsize - headerSize) header.rawsize.toNat 0 0 (visits header source)
      (walk header source).sp (walk header source).dp := visitLoop_course _ _ _

theorem decompress_some {dest out : Int → UInt8} (h : pglzDecompress header source dest = some out) :
    ((walk header source).dp : Int) = header.rawsize ∧
      out = (visits header source).foldl (Visit.perform source) dest ∧
      ∀ dest', pglzDecompress header source dest' =
        some ((visits header source).foldl (Visit.perform source) dest') := by
  rw [pglzDecompress_eq_visits] at h
  split at h
  · cases h
  rename_i hends
  refine ⟨not_not.mp (not_or.mp hends).1, (Option.some.inj h).symm, fun dest' => ?_⟩
  rw [pglzDecompress_eq_visits, if_neg hends]

theorem mem_accesses {a : Access} :
    a ∈ accesses header source ↔ ∃ v ∈ visits header source, a ∈ v.accesses := mem_flatMap

/-- Tags that are complete and refer to the output are what makes a datum safe; one that refers
to the very byte it writes does no harm if corruption is reported in the end. -/
theorem staysInBounds_iff_visits (header : Header) (source : Nat → UInt8) :
    StaysInBounds header source ↔
      (∀ v ∈ visits header source, v.Complete (header.varsize - headerSize) ∧ v.RefersBack) ∧
      ∀ dest out, pglzDecompress header source dest = some out →
        ∀ v ∈ visits header source, v.RefersBefore := by
  have hcourse := walk_course header source
  constructor
  · intro h
    refine ⟨fun v hv => ⟨?_, ?_⟩, fun dest out hout v hv => ?_⟩
    · exact (hcourse.placed v hv).reads_iff.mp fun i hi => h.reads i (mem_accesses.mpr ⟨v, hv, hi⟩)
    · exact (hcourse.placed v hv).copies_iff.mp fun i hi => h.copies i (mem_accesses.mpr ⟨v, hv, hi⟩)
    by_contra hzero
    obtain ⟨hdp, -, hall⟩ := decompress_some hout
    -- the byte is one thing or another, as the buffer was
    obtain ⟨p, -, hp, hkeep⟩ := hcourse.foldl_of_zero (by omega) hv hzero
    have heq := h.derived _ _ _ _ (hall fun _ => 0) (hall fun _ => 1) p (Int.natCast_nonneg p)
      (by omega)
    rw [hkeep, hkeep] at heq
    cases heq
  rintro ⟨htags, hbefore⟩
  refine ⟨fun i hi => ?_, fun i hi => ?_, fun i hi => ?_, fun dest out hout i h0 hi => ?_,
    fun dest dest' out out' hout hout' i h0 hi => ?_⟩
  · obtain ⟨v, hv, hin⟩ := mem_accesses.mp hi
    exact (hcourse.placed v hv).reads_iff.mpr (htags v hv).1 i hin
  · obtain ⟨v, hv, hin⟩ := mem_accesses.mp hi
    exact (hcourse.placed v hv).copies_iff.mpr (htags v hv).2 i hin
  · obtain ⟨v, hv, hin⟩ := mem_accesses.mp hi
    have := (hcourse.placed v hv).write_lt hin
    omega
  · obtain ⟨hdp, -, -⟩ := decompress_some hout
    have hmem := hcourse.fills (by omega) (Nat.zero_le i.toNat) (by omega)
    rwa [Int.toNat_of_nonneg h0] at hmem
  obtain ⟨hdp, rfl, -⟩ := decompress_some hout
  obtain ⟨-, rfl, -⟩ := decompress_some hout'
  refine hcourse.foldl_congr (by omega) (fun v hv => (htags v hv).2) (hbefore _ _ hout)
    (fun j hj0 hj => ?_) i h0 (by omega)
  omega

/-- The tags of the datum. -/
def datumReading (header : Header) (source : Nat → UInt8) : Reading :=
  datumTags source (header.varsize - headerSize) (header.varsize - headerSize) 0 0

/-- The items stand for as many bytes as the header says, and nothing is left over. -/
def Exact (header : Header) (source : Nat → UInt8) : Prop :=
  ((datumReading header source).length : Int) = header.rawsize ∧
    ((datumReading header source).sp : Int) = header.varsize - headerSize

instance (header : Header) (source : Nat → UInt8) : Decidable (Exact header source) := by
  unfold Exact
  infer_instance

theorem decompress_isSome_iff : (∃ dest out, pglzDecompress header source dest = some out) ↔
    Exact header source := by
  have hends := @visitLoop_exact source (header.varsize - headerSize) header.rawsize.toNat
    (header.varsize - headerSize) 0 0
  change (walk header source).dp = _ ∧ (walk header source).sp = _ ↔
    (datumReading header source).length = _ ∧ (datumReading header source).sp = _ at hends
  have hrun : (∃ dest out, pglzDecompress header source dest = some out) ↔
      ((walk header source).dp : Int) = header.rawsize ∧
        ((walk header source).sp : Int) = header.varsize - headerSize := by
    simp only [pglzDecompress_eq_visits]
    constructor
    · rintro ⟨dest, out, h⟩
      split at h
      · cases h
      · omega
    · intro h
      exact ⟨fun _ => 0, _, if_neg (by omega)⟩
  rw [hrun, Exact]
  omega

/-- What a datum has to be for the decompressor to stay in bounds: each tag that it can come to
before the output is full must be there with all its bytes and, if it fits, refer to output that
the items before it stand for; and where nothing is wrong with the lengths, it must not refer to
the byte that it is to write. -/
theorem staysInBounds_iff (header : Header) (source : Nat → UInt8) : StaysInBounds header source ↔
    ∀ t ∈ (datumReading header source).tags, t.start < header.rawsize.toNat →
      t.before ≤ header.rawsize.toNat →
        t.sp + t.size ≤ header.varsize - headerSize ∧
        (t.before + t.len ≤ header.rawsize.toNat → t.off ≤ t.before) ∧
        (Exact header source → 0 < t.off) := by
  have htags : ∀ Q : Visit → Prop, (∀ sp, Q (.control sp)) → (∀ sp dp, Q (.literal sp dp)) →
      ((∀ v ∈ visits header source, Q v) ↔ ∀ t ∈ (datumReading header source).tags,
        t.start < header.rawsize.toNat → t.before ≤ header.rawsize.toNat →
          Q (t.visit header.rawsize.toNat)) := fun Q hcontrol hliteral =>
    visitLoop_tags hcontrol hliteral _ _ _
  have hfits : ∀ t : Tag, (t.visit header.rawsize.toNat).RefersBack ↔
      (t.before + t.len ≤ header.rawsize.toNat → t.off ≤ t.before) := by
    intro t
    simp only [Tag.visit, Visit.RefersBack, Bool.not_eq_true', decide_eq_false_iff_not, not_lt,
      gt_iff_lt]
  have hsome : (∀ dest out, pglzDecompress header source dest = some out →
      ∀ v ∈ visits header source, v.RefersBefore) ↔
        (Exact header source → ∀ v ∈ visits header source, v.RefersBefore) := by
    rw [← decompress_isSome_iff]
    constructor
    · rintro h ⟨dest, out, hout⟩
      exact h dest out hout
    · exact fun h dest out hout => h ⟨dest, out, hout⟩
  rw [staysInBounds_iff_visits, hsome, htags _ (fun _ => ⟨trivial, trivial⟩)
    (fun _ _ => ⟨trivial, trivial⟩), htags _ (fun _ => trivial) (fun _ _ => trivial)]
  simp only [hfits]
  constructor
  · rintro ⟨hback, hbefore⟩ t ht hstart hlen
    obtain ⟨hcomplete, hrefers⟩ := hback t ht hstart hlen
    exact ⟨hcomplete, hrefers, fun hexact => hbefore hexact t ht hstart hlen⟩
  · intro h
    refine ⟨fun t ht hstart hlen => ?_, fun hexact t ht hstart hlen => ?_⟩
    · obtain ⟨hcomplete, hrefers, -⟩ := h t ht hstart hlen
      exact ⟨hcomplete, hrefers⟩
    · exact (h t ht hstart hlen).2.2 hexact

/-- A literal and a tag that repeats it three times. -/
theorem staysInBounds_repeated :
    ((datumReading ⟨12, 4⟩ fun i => [2, 97, 0, 1].getD i 0).tags.map Tag.off = [1]) ∧
    StaysInBounds ⟨12, 4⟩ fun i => [2, 97, 0, 1].getD i 0 :=
  ⟨by decide, (staysInBounds_iff _ _).mpr (by decide)⟩

/-- A datum whose only tag goes back five bytes before anything is written: it is decompressed
without an error, to the three bytes that stand there in memory. -/
theorem decompress_before_output : ∃ header source, header = { varsize := 11, rawsize := 3 } ∧
    source = (fun i => [1, 0, 5].getD i 0) ∧ .readDest (-5) ∈ accesses header source ∧
    ¬ StaysInBounds header source ∧
    ∀ dest, ∃ out, pglzDecompress header source dest = some out ∧
      ∀ k < 3, out (k : Nat) = dest (k - 5) := by
  have hread : .readDest (-5) ∈ accesses { varsize := 11, rawsize := 3 }
      (fun i => [1, 0, 5].getD i 0) := by decide
  have hvisits : visits { varsize := 11, rawsize := 3 } (fun i => [1, 0, 5].getD i 0) =
      [.control 0, .tag 1 2 0 3 5 true] := by decide
  refine ⟨_, _, rfl, rfl, hread, fun h => ?_, fun dest => ⟨copyBack dest 0 5 3, ?_, fun k hk => ?_⟩⟩
  · exact absurd (h.copies _ hread) (by decide)
  · rw [pglzDecompress_eq_visits]
    rfl
  obtain rfl | rfl | rfl : k = 0 ∨ k = 1 ∨ k = 2 := by omega
  · rfl
  · rfl
  · rfl

end Datum

end PrlPg.Pglz
