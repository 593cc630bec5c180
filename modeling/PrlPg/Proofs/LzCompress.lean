/-
Compressing and decompressing gives back the source.

Between the two routines stands the list of items that the compressor emits.  `encode` lays
it out as bytes: groups of up to eight items, each group after a control byte that has one
bit for each of them.  The compressor writes a group's control byte only when the group is
full or the source ends, so its invariant `Open` is about the groups that are complete and
the one that is being filled.  The decompressor reads the layout back item by item
(`decompressItems_spec`), and expanding the items gives the source, because every reference
was compared with it (`IsMatch`).

The buffer is checked once for each turn of the loop, and a turn writes four bytes at most.
That is where `slen + 4` comes from.
-/
import Mathlib.Data.Nat.Bitwise
import Mathlib.Tactic.Ring
import PrlPg.Proofs.LzHistory

namespace PrlPg.Pglz

open HashChain List Lz Function UInt8
open Function (update_of_ne)
open UInt8 (ofNat toNat_and toNat_inj)

/-! ### The layout of the items -/

/-- The bytes of an item. -/
def itemBytes : Item UInt8 → List UInt8
  | .lit b => [b]
  | .copy len off =>
    if len > 17 then
      [UInt8.ofNat (((off &&& 0xf00) >>> 4) ||| 0x0f), UInt8.ofNat (off &&& 0xff),
        UInt8.ofNat (len - 18)]
    else
      [UInt8.ofNat (((off &&& 0xf00) >>> 4) ||| (len - 3)), UInt8.ofNat (off &&& 0xff)]

/-- The references that the tag format can express. -/
def Fits : Item UInt8 → Prop
  | .lit _ => True
  | .copy len off => 3 ≤ len ∧ len ≤ maxMatch ∧ off < 0x1000

/-- One bit for each item of a group, the first item in the lowest. -/
def ctrlBits : List (Item UInt8) → Nat
  | [] => 0
  | it :: g => it.isCopy.toNat + 2 * ctrlBits g

def groupBytes (g : List (Item UInt8)) : List UInt8 :=
  UInt8.ofNat (ctrlBits g) :: g.flatMap itemBytes

def encode (gs : List (List (Item UInt8))) : List UInt8 := gs.flatMap groupBytes

theorem ctrlBits_lt (g : List (Item UInt8)) : ctrlBits g < 2 ^ g.length := by
  induction g with
  | nil => exact Nat.one_pos
  | cons it g ih =>
    have hbit : it.isCopy.toNat ≤ 1 := Bool.toNat_le it.isCopy
    rw [length_cons, Nat.pow_succ]
    simp only [ctrlBits]
    omega

theorem ctrlBits_append (g : List (Item UInt8)) (it : Item UInt8) :
    ctrlBits (g ++ [it]) = ctrlBits g + it.isCopy.toNat * 2 ^ g.length := by
  induction g with
  | nil => simp [ctrlBits]
  | cons x g ih =>
    rw [cons_append, length_cons, Nat.pow_succ]
    simp only [ctrlBits, ih]
    ring

/-! ### Bytes in memory -/

variable {b : UInt8}

/-- The bytes are in memory from address `a` on. -/
def BytesAt (mem : Nat → UInt8) (a : Nat) (bs : List UInt8) : Prop :=
  ∀ k b, bs[k]? = some b → mem (a + k) = b

namespace BytesAt

variable {mem : Nat → UInt8} {a : Nat} {bs cs : List UInt8}

theorem nil : BytesAt mem a [] := by
  intro k b hk
  cases hk

section

variable (h : BytesAt mem a bs)
include h

theorem congr {mem' : Nat → UInt8}
    (heq : ∀ x, a ≤ x → x < a + bs.length → mem' x = mem x) : BytesAt mem' a bs := by
  intro k b hk
  have hlt : k < bs.length := by
    by_contra hge
    rw [getElem?_eq_none (by omega)] at hk
    cases hk
  rw [heq (a + k) (by omega) (by omega)]
  exact h k b hk

theorem update {x : Nat} (hx : x < a ∨ a + bs.length ≤ x) :
    BytesAt (update mem x b) a bs := by
  refine h.congr ?_
  intro y hay hyb
  exact update_of_ne (by omega) _ _

theorem append (h' : BytesAt mem (a + bs.length) cs) :
    BytesAt mem a (bs ++ cs) := by
  intro k b hk
  by_cases hlt : k < bs.length
  · rw [getElem?_append_left hlt] at hk
    exact h k b hk
  rw [getElem?_append_right (by omega)] at hk
  have := h' (k - bs.length) b hk
  rwa [show a + bs.length + (k - bs.length) = a + k by omega] at this

end

theorem left (h : BytesAt mem a (bs ++ cs)) : BytesAt mem a bs := by
  intro k b hk
  refine h k b ?_
  have hlt : k < bs.length := by
    by_contra hge
    rw [getElem?_eq_none (by omega)] at hk
    cases hk
  rw [getElem?_append_left hlt, hk]

theorem right (h : BytesAt mem a (bs ++ cs)) : BytesAt mem (a + bs.length) cs := by
  intro k b hk
  have := h (bs.length + k) b (by rw [getElem?_append_right (by omega)]; simpa using hk)
  rwa [show a + (bs.length + k) = a + bs.length + k by omega] at this

/-- Writing the byte that comes next. -/
theorem snoc (h : BytesAt mem a bs) {x : Nat} (b : UInt8) (hx : x = a + bs.length) :
    BytesAt (Function.update mem x b) a (bs ++ [b]) := by
  subst hx
  refine (h.update (.inr (le_rfl))).append ?_
  intro k c hk
  cases k with
  | zero =>
    simp only [getElem?_cons_zero, Option.some.injEq] at hk
    simp [hk]
  | succ k => simp at hk

theorem head (h : BytesAt mem a (b :: bs)) : mem a = b := h 0 b rfl

theorem tail (h : BytesAt mem a (b :: bs)) : BytesAt mem (a + 1) bs := by
  have hsplit : BytesAt mem a ([b] ++ bs) := h
  exact hsplit.right

end BytesAt

/-! ### Tags -/

theorem tag_split : ∀ hi < 16, ∀ lo < 256,
    ((256 * hi + lo) &&& 0xf00) >>> 4 = 16 * hi ∧ (256 * hi + lo) &&& 0xff = lo := by
  decide +kernel

theorem tag_nibbles : ∀ hi < 16, ∀ lo < 16, (16 * hi ||| lo) < 256 ∧
    (16 * hi ||| lo) &&& 0x0f = lo ∧ ((16 * hi ||| lo) &&& 0xf0) <<< 4 = 256 * hi := by
  decide +kernel

/-- What a tag's first two bytes say. -/
theorem tag_decode {off lo : Nat} (hoff : off < 0x1000) (hlo : lo < 16) :
    (ofNat (((off &&& 0xf00) >>> 4) ||| lo)).toNat &&& 0x0f = lo ∧
    (((ofNat (((off &&& 0xf00) >>> 4) ||| lo)).toNat &&& 0xf0) <<< 4) |||
      (ofNat (off &&& 0xff)).toNat = off := by
  obtain ⟨hhi, hlow⟩ := tag_split (off / 256) (by omega) (off % 256) (by omega)
  rw [Nat.div_add_mod] at hhi hlow
  obtain ⟨hlt, hand, hshift⟩ := tag_nibbles (off / 256) (by omega) lo hlo
  have hbyte : (ofNat (16 * (off / 256) ||| lo)).toNat = 16 * (off / 256) ||| lo := by
    rw [toNat_ofNat', Nat.mod_eq_of_lt hlt]
  have hrest : (ofNat (off % 256)).toNat = off % 256 := by
    rw [toNat_ofNat', Nat.mod_eq_of_lt (Nat.mod_lt _ (by decide))]
  rw [hhi, hlow, hbyte, hrest, hand, hshift]
  refine ⟨rfl, ?_⟩
  have hor := Nat.two_pow_add_eq_or_of_lt (i := 8) (b := off % 256) (by omega) (off / 256)
  rw [show 256 * (off / 256) = 2 ^ 8 * (off / 256) by rfl, ← hor]
  omega

theorem itemBytes_length (it : Item UInt8) :
    0 < (itemBytes it).length ∧ (itemBytes it).length ≤ 3 := by
  cases it with
  | lit b => simp [itemBytes]
  | copy len off =>
    simp only [itemBytes]
    split_ifs <;> simp

/-! ### Decompressing -/

variable {it : Item UInt8} {g : List (Item UInt8)}

theorem ctrlBits_toNat (hlen : g.length ≤ 8) : (ofNat (ctrlBits g)).toNat = ctrlBits g := by
  have hlt := ctrlBits_lt g
  have hpow : 2 ^ g.length ≤ 2 ^ 8 := Nat.pow_le_pow_right (by decide) hlen
  rw [toNat_ofNat', Nat.mod_eq_of_lt (by omega)]

/-- The lowest bit is that of the first item. -/
theorem ctrl_and_one (hlen : (it :: g).length ≤ 8) :
    ofNat (ctrlBits (it :: g)) &&& 1 ≠ 0 ↔ it.isCopy = true := by
  have hbits := ctrlBits_toNat hlen
  rw [Ne, ← toNat_inj, toNat_and, hbits]
  show ¬ (ctrlBits (it :: g) &&& 1 = 0) ↔ _
  rw [Nat.and_one_is_mod]
  cases hc : it.isCopy with
  | true => simp only [ctrlBits, hc, Bool.toNat_true, iff_true]; omega
  | false => simp only [ctrlBits, hc, Bool.toNat_false, Bool.false_eq_true, iff_false]; omega

theorem ctrl_shiftRight (hlen : (it :: g).length ≤ 8) :
    ofNat (ctrlBits (it :: g)) >>> 1 = ofNat (ctrlBits g) := by
  have hbits := ctrlBits_toNat hlen
  have hrest := ctrlBits_toNat (g := g) (by rw [length_cons] at hlen; omega)
  have hbit : it.isCopy.toNat ≤ 1 := Bool.toNat_le it.isCopy
  rw [← toNat_inj, UInt8.toNat_shiftRight, hbits, hrest]
  show ctrlBits (it :: g) >>> 1 = _
  simp only [ctrlBits]
  omega

section Decompress

variable {src : Nat → UInt8} {source : Nat → UInt8} {srcend destend : Nat} {ctrl : UInt8}

/-- One tag is read. -/
theorem decompressItems_copy {n len off : Nat} {s : DecompressState}
    (hat : BytesAt source s.sp (itemBytes (.copy len off))) (hfits : Fits (.copy len off))
    (hctrl : ctrl &&& 1 ≠ 0) (hin : s.sp + (itemBytes (.copy len off)).length ≤ srcend)
    (hdest : s.dp + len ≤ destend) : decompressItems source srcend destend (n + 1) ctrl s
      = decompressItems source srcend destend n (ctrl >>> 1)
          { sp := s.sp + (itemBytes (.copy len off)).length, dp := s.dp + len,
            dest := copyBack s.dest s.dp off len } := by
  obtain ⟨hlo, hhi, hoff⟩ := hfits
  have hpos := (itemBytes_length (.copy len off)).1
  have hsp : s.sp < srcend := by omega
  rw [decompressItems, if_pos hsp, if_pos hctrl]
  simp only [itemBytes] at hat hin ⊢
  by_cases hlong : len > 17
  · rw [if_pos hlong] at hat hin ⊢
    obtain ⟨hand, hor⟩ := tag_decode hoff (show 0x0f < 16 by decide)
    have h0 := hat.head
    have h1 := hat.tail.head
    have h2 := hat.tail.tail.head
    have hext : (ofNat (len - 18)).toNat = len - 18 := by
      rw [toNat_ofNat', Nat.mod_eq_of_lt]
      simp only [maxMatch] at hhi
      omega
    have hlen : 18 + (len - 18) = len := by omega
    have hnot : ¬ (s.dp + len > destend) := by omega
    simp only [h0, h1, h2, hand, hor, hext, hlen, if_true, if_neg hnot, length_cons,
      length_nil, Nat.reduceAdd, add_assoc]
  rw [if_neg hlong] at hat hin ⊢
  obtain ⟨hand, hor⟩ := tag_decode hoff (show len - 3 < 16 by omega)
  have h0 := hat.head
  have h1 := hat.tail.head
  have hlen : len - 3 + 3 = len := by omega
  have hne : ¬ (len = 18) := by omega
  have hnot : ¬ (s.dp + len > destend) := by omega
  simp only [h0, h1, hand, hor, hlen, if_neg hne, if_neg hnot, length_cons,
    length_nil, Nat.reduceAdd]

/-- One literal is read. -/
theorem decompressItems_lit {n : Nat} {s : DecompressState}
    (hat : BytesAt source s.sp (itemBytes (.lit b))) (hctrl : ¬ (ctrl &&& 1 ≠ 0))
    (hin : s.sp < srcend) (hdest : s.dp < destend) :
    decompressItems source srcend destend (n + 1) ctrl s
      = decompressItems source srcend destend n (ctrl >>> 1)
          { sp := s.sp + 1, dp := s.dp + 1, dest := update s.dest s.dp b } := by
  have hb : source s.sp = b := hat.head
  have hnot : ¬ (s.dp ≥ destend) := by omega
  rw [decompressItems, if_pos hin, if_neg hctrl, if_neg hnot, hb]

variable (srcend) in
/-- The items of a group are read back.  The loop over them ends because there are eight, or
because the compressed data ends. -/
theorem decompressItems_spec :
    ∀ (g : List (Item UInt8)) (n q : Nat) (s : DecompressState), g.length ≤ 8 →
      BytesAt source s.sp (g.flatMap itemBytes) → (∀ it ∈ g, Fits it) →
      Covers src s.dp g q → q ≤ destend → Agrees src s.dest s.dp →
      s.sp + (g.flatMap itemBytes).length ≤ srcend →
      (g.length = n ∨ g.length ≤ n ∧ s.sp + (g.flatMap itemBytes).length = srcend) →
      ∃ dest, decompressItems source srcend destend n (ofNat (ctrlBits g)) s
        = { sp := s.sp + (g.flatMap itemBytes).length, dp := q, dest := dest } ∧
        Agrees src dest q := by
  intro g
  induction g with
  | nil =>
    intro n q s _ _ _ hcov _ hagree _ hend
    cases hcov
    refine ⟨s.dest, ?_, hagree⟩
    cases n with
    | zero => rfl
    | succ n =>
      have hsp : ¬ (s.sp < srcend) := by
        simp only [length_nil, flatMap_nil] at hend
        omega
      rw [decompressItems, if_neg hsp]
      rfl
  | cons it g ih =>
    intro n q s hlen hat hfits hcov hq hagree hin hend
    have hfit := hfits it (by simp)
    have hbytes := itemBytes_length it
    have hctrl := ctrl_and_one hlen
    have hshift := ctrl_shiftRight hlen
    rw [flatMap_cons] at hat hin hend ⊢
    rw [length_append] at hin hend ⊢
    rw [length_cons] at hlen hend
    obtain ⟨n, rfl⟩ : ∃ m, n = m + 1 := ⟨n - 1, by omega⟩
    cases hcov with
    | lit hrest =>
      have hle := hrest.le
      rw [decompressItems_lit hat.left (by rw [hctrl]; simp [Item.isCopy]) (by omega)
        (by omega), hshift]
      simp only [itemBytes, length_singleton] at hin hend
      obtain ⟨dest, hrun, hdest⟩ := ih n q
        ⟨s.sp + 1, s.dp + 1, update s.dest s.dp (src s.dp)⟩ (by omega) hat.right
        (fun x hx => hfits x (by simp [hx])) hrest hq (hagree.store rfl)
        (by simp only; omega) (by simp only; omega)
      refine ⟨dest, ?_, hdest⟩
      rw [hrun]
      simp only [itemBytes, length_singleton, add_assoc]
    | @copy _ _ len off _ hoff hback hpos heq hrest =>
      have hle := hrest.le
      rw [decompressItems_copy hat.left hfit (hctrl.mpr rfl) (by omega) (by omega), hshift]
      obtain ⟨dest, hrun, hdest⟩ := ih n q
        ⟨s.sp + (itemBytes (.copy len off)).length, s.dp + len, copyBack s.dest s.dp off len⟩
        (by omega) hat.right (fun x hx => hfits x (by simp [hx])) hrest hq
        (Agrees.copyBack hoff len s.dp s.dest hback hagree heq)
        (by simp only; omega) (by simp only; omega)
      refine ⟨dest, ?_, hdest⟩
      rw [hrun]
      simp only [add_assoc]

variable (src) in
/-- The groups are read back one after the other, the last one up to the end of the data. -/
theorem decompressLoop_spec {last : List (Item UInt8)} (hlast : last ≠ [])
    (hlast8 : last.length ≤ 8) :
    ∀ (gs : List (List (Item UInt8))) (fuel : Nat) (s : DecompressState),
      (∀ g ∈ gs, g.length = 8) → BytesAt source s.sp (encode (gs ++ [last])) →
      (∀ it ∈ (gs ++ [last]).flatten, Fits it) →
      Covers src s.dp (gs ++ [last]).flatten destend → Agrees src s.dest s.dp →
      s.sp + (encode (gs ++ [last])).length = srcend → gs.length < fuel →
      ∃ dest, decompressLoop source srcend destend fuel s
        = { sp := srcend, dp := destend, dest := dest } ∧ Agrees src dest destend := by
  intro gs
  induction gs with
  | nil =>
    intro fuel s _ hat hfits hcov hagree hend hfuel
    obtain ⟨fuel, rfl⟩ : ∃ m, fuel = m + 1 := ⟨fuel - 1, by omega⟩
    simp only [nil_append, flatten_cons, flatten_nil, append_nil] at hfits hcov
    simp only [nil_append, encode, flatMap_cons, flatMap_nil, append_nil,
      groupBytes, length_cons] at hat hend
    have hdp : s.dp < destend := hcov.lt hlast
    rw [decompressLoop, if_pos ⟨by omega, hdp⟩, hat.head]
    obtain ⟨dest, hrun, hdest⟩ := decompressItems_spec srcend last 8 destend
      ⟨s.sp + 1, s.dp, s.dest⟩ hlast8 hat.tail hfits hcov (le_rfl) hagree
      (by simp only; omega) (.inr ⟨hlast8, by simp only; omega⟩)
    refine ⟨dest, ?_, hdest⟩
    rw [hrun]
    have hsp : s.sp + 1 + (last.flatMap itemBytes).length = srcend := by omega
    rw [hsp]
    cases fuel with
    | zero => rfl
    | succ fuel => rw [decompressLoop, if_neg (by simp)]
  | cons g gs ih =>
    intro fuel s hfull hat hfits hcov hagree hend hfuel
    obtain ⟨fuel, rfl⟩ : ∃ m, fuel = m + 1 := ⟨fuel - 1, by omega⟩
    have hg := hfull g (by simp)
    have hne : g ≠ [] := by
      rintro rfl
      cases hg
    rw [cons_append, encode, flatMap_cons] at hat hend
    rw [length_append] at hend
    have hhead := hat.left
    have hrest := hat.right
    simp only [groupBytes, length_cons] at hhead hrest hend
    obtain ⟨q, hcov₁, hcov₂⟩ := hcov.split
    have hq := hcov₂.le
    have hdp : s.dp < destend := lt_of_lt_of_le (hcov₁.lt hne) hq
    rw [decompressLoop, if_pos ⟨by omega, hdp⟩, hhead.head]
    obtain ⟨dest, hrun, hdest⟩ := decompressItems_spec srcend g 8 q ⟨s.sp + 1, s.dp, s.dest⟩ hg.le
      hhead.tail (fun it hit => hfits it (mem_append_left _ hit)) hcov₁ hq hagree
      (by simp only; omega) (.inl hg)
    rw [hrun]
    refine ih fuel _ (fun x hx => hfull x (by simp [hx])) ?_
      (fun it hit => hfits it (mem_append_right _ hit)) hcov₂ hdest ?_ ?_
    · simp only [add_assoc, add_comm 1]
      exact hrest
    · simp only [encode]
      omega
    · rw [length_cons] at hfuel
      omega

end Decompress

/-! ### Compressing: the output -/

variable {its : List (Item UInt8)}

/-- `gs` are the groups that are complete and `g` the items of the one being filled, whose
control byte is still to be written. -/
structure Open (o : Out) (gs : List (List (Item UInt8))) (g : List (Item UInt8)) : Prop where
  full : ∀ x ∈ gs, x.length = 8
  len : g.length ≤ 8
  ctrlp : o.ctrlp = some (encode gs).length
  bp : o.bp = (encode gs).length + 1 + (g.flatMap itemBytes).length
  done : BytesAt o.buf 0 (encode gs)
  items : BytesAt o.buf ((encode gs).length + 1) (g.flatMap itemBytes)
  ctrlb : o.ctrlb = UInt8.ofNat (ctrlBits g)
  ctrl : o.ctrl.toNat = 2 ^ g.length % 256

/-- The output after the given items: nothing yet, or a group that has begun. -/
def OutOk (o : Out) (its : List (Item UInt8)) : Prop :=
  (o.ctrlp = none ∧ o.bp = 0 ∧ o.ctrl = 0 ∧ its = []) ∨
    ∃ gs g, Open o gs g ∧ g ≠ [] ∧ its = gs.flatten ++ g

namespace Open

variable {o : Out} {gs : List (List (Item UInt8))} {g : List (Item UInt8)}

/-- Writing the control byte completes the group. -/
theorem close (h : Open o gs g) :
    BytesAt o.storeCtrl 0 (encode (gs ++ [g])) ∧ (encode (gs ++ [g])).length = o.bp := by
  have hencode : encode (gs ++ [g]) = encode gs ++ groupBytes g := by simp [encode]
  rw [hencode, h.bp]
  refine ⟨?_, by simp only [length_append, groupBytes, length_cons]; omega⟩
  have hstore : o.storeCtrl = Function.update o.buf (encode gs).length o.ctrlb := by
    simp only [Out.storeCtrl, h.ctrlp]
  have hctrl : BytesAt o.storeCtrl 0 (encode gs ++ [ofNat (ctrlBits g)]) := by
    rw [hstore, h.ctrlb]
    exact h.done.snoc _ (zero_add _).symm
  have hitems : BytesAt o.storeCtrl ((encode gs).length + 1) (g.flatMap itemBytes) := by
    rw [hstore]
    exact h.items.update (.inl (Nat.lt_succ_self _))
  rw [groupBytes, append_cons]
  refine hctrl.append ?_
  rw [length_append, length_singleton, zero_add]
  exact hitems

/-- One more item in a group that has room for it. -/
theorem emit (h : Open o gs g) (hroom : g.length < 8) (it : Item UInt8) (buf : Nat → UInt8)
    (ctrlb : UInt8) (hbelow : ∀ a < o.bp, buf a = o.buf a)
    (hnew : BytesAt buf o.bp (itemBytes it)) (hctrlb : ctrlb.toNat = o.ctrlb.toNat + it.isCopy.toNat * 2 ^ g.length) :
    Open { o with buf := buf, bp := o.bp + (itemBytes it).length, ctrlb := ctrlb,
                  ctrl := o.ctrl <<< 1 } gs (g ++ [it]) := by
  have hbp := h.bp
  have hlen : (g ++ [it]).length ≤ 8 := by
    rw [length_append, length_singleton]
    omega
  refine ⟨h.full, hlen, h.ctrlp, ?_, ?_, ?_, ?_, ?_⟩
  · simp only [flatMap_append, flatMap_singleton, length_append]
    omega
  · refine h.done.congr ?_
    intro a _ ha
    exact hbelow a (by omega)
  · rw [flatMap_append, flatMap_singleton]
    refine (h.items.congr ?_).append ?_
    · intro a _ ha
      exact hbelow a (by omega)
    · rwa [← hbp]
  · rw [← toNat_inj, ctrlBits_toNat hlen, ctrlBits_append, hctrlb, h.ctrlb, ctrlBits_toNat h.len]
  have hpow : 2 ^ g.length ≤ 2 ^ 7 := Nat.pow_le_pow_right (by decide) (by omega)
  have hctrl := h.ctrl
  rw [Nat.mod_eq_of_lt (by omega)] at hctrl
  rw [UInt8.toNat_shiftLeft, hctrl, length_append, length_singleton]
  show 2 ^ g.length <<< 1 % 256 = _
  rw [Nat.shiftLeft_eq, ← Nat.pow_add]

end Open

theorem and_ff (x : UInt8) : x &&& 0xff = x := by
  rw [← toNat_inj, toNat_and]
  exact (Nat.and_two_pow_sub_one_eq_mod x.toNat 8).trans (Nat.mod_eq_of_lt x.toNat_lt)

variable {o : Out}

/-- After `pglz_out_ctrl` there is a group with room for an item. -/
theorem outCtrl_open (h : OutOk o its) :
    ∃ gs g, Open (pglzOutCtrl o) gs g ∧ g.length < 8 ∧ its = gs.flatten ++ g ∧
      o.bp ≤ (pglzOutCtrl o).bp ∧ (pglzOutCtrl o).bp ≤ o.bp + 1 ∧
      ∀ a, o.bp ≤ a → (pglzOutCtrl o).buf a = o.buf a := by
  rcases h with ⟨hctrlp, hbp, hctrl, rfl⟩ | ⟨gs, g, hopen, hne, rfl⟩
  · have hout : pglzOutCtrl o
        = { buf := o.buf, ctrlp := some o.bp, bp := o.bp + 1, ctrlb := 0, ctrl := 1 } := by
      simp only [pglzOutCtrl, Out.storeCtrl, hctrl, hctrlp]
      rfl
    rw [hout]
    refine ⟨[], [], ⟨?_, Nat.zero_le _, ?_, ?_, .nil, .nil, rfl, rfl⟩, by decide, rfl,
      Nat.le_succ _, le_rfl, fun _ _ => rfl⟩
    · intro x hx
      cases hx
    · simp [hbp, encode]
    · simp [hbp, encode]
  have hctrl := hopen.ctrl
  by_cases hfull : g.length = 8
  · have hzero : o.ctrl &&& 0xff = 0 := by
      rw [and_ff, ← toNat_inj, hctrl, hfull]
      rfl
    obtain ⟨hat, hlength⟩ := hopen.close
    rw [pglzOutCtrl, if_pos hzero]
    refine ⟨gs ++ [g], [], ⟨?_, Nat.zero_le _, ?_, ?_, hat, .nil, rfl, rfl⟩, by decide,
      by simp, Nat.le_succ _, le_rfl, ?_⟩
    · intro x hx
      rcases mem_append.mp hx with hx | hx
      · exact hopen.full x hx
      · rw [mem_singleton.mp hx]
        exact hfull
    · rw [hlength]
    · simp [hlength]
    intro a ha
    have hbp := hopen.bp
    simp only [Out.storeCtrl, hopen.ctrlp]
    exact update_of_ne (by omega) _ _
  have hlen := hopen.len
  have hpow : 2 ^ g.length ≤ 2 ^ 7 := Nat.pow_le_pow_right (by decide) (by omega)
  have hnz : ¬ (o.ctrl &&& 0xff = 0) := by
    rw [and_ff, ← toNat_inj, hctrl, Nat.mod_eq_of_lt (by omega)]
    exact (Nat.two_pow_pos g.length).ne'
  rw [pglzOutCtrl, if_neg hnz]
  exact ⟨gs, g, hopen, by omega, rfl, le_rfl, by omega, fun _ _ => rfl⟩

/-- What emitting an item does to the output: the item is there, at most four bytes more are
in use, and nothing beyond them has changed. -/
structure Emitted (o o' : Out) (its : List (Item UInt8)) (it : Item UInt8) : Prop where
  ok : OutOk o' (its ++ [it])
  bp : o'.bp ≤ o.bp + 4
  frame : ∀ a, o'.bp ≤ a → o'.buf a = o.buf a

theorem outLiteral_emitted (h : OutOk o its) (b : UInt8) :
    Emitted o (pglzOutLiteral o b) its (.lit b) := by
  obtain ⟨gs, g, hopen, hroom, rfl, hge, hbp, hframe⟩ := outCtrl_open h
  have hemit : Open (pglzOutLiteral o b) gs (g ++ [.lit b]) := by
    refine hopen.emit hroom (.lit b) _ _ ?_ ?_ ?_
    · intro a ha
      exact update_of_ne (by omega) _ _
    · exact BytesAt.nil.snoc b rfl
    · simp [Item.isCopy]
  refine ⟨.inr ⟨gs, _, hemit, by simp, by simp⟩, ?_, ?_⟩
  · show (pglzOutCtrl o).bp + 1 ≤ _
    omega
  intro a ha
  have ha' : (pglzOutCtrl o).bp + 1 ≤ a := ha
  show Function.update (pglzOutCtrl o).buf (pglzOutCtrl o).bp b a = _
  rw [update_of_ne (by omega), hframe a (by omega)]

/-- `pglz_out_tag` writes the bytes of the tag and sets the bit. -/
theorem outTag_eq (o : Out) (len off : Nat) : ∃ buf, pglzOutTag o len off = { pglzOutCtrl o with
        buf := buf
        bp := (pglzOutCtrl o).bp + (itemBytes (.copy len off)).length
        ctrlb := (pglzOutCtrl o).ctrlb ||| (pglzOutCtrl o).ctrl
        ctrl := (pglzOutCtrl o).ctrl <<< 1 } ∧
      BytesAt buf (pglzOutCtrl o).bp (itemBytes (.copy len off)) ∧
      ∀ a, a < (pglzOutCtrl o).bp ∨ (pglzOutCtrl o).bp + (itemBytes (.copy len off)).length ≤ a →
        buf a = (pglzOutCtrl o).buf a := by
  generalize ho : pglzOutCtrl o = o'
  simp only [pglzOutTag, itemBytes, ho]
  by_cases hlong : len > 17
  · simp only [if_pos hlong]
    refine ⟨_, rfl, ((BytesAt.nil.snoc _ rfl).snoc _ rfl).snoc _ rfl, ?_⟩
    intro a ha
    simp only [length_cons, length_nil] at ha
    rw [update_of_ne (by omega), update_of_ne (by omega), update_of_ne (by omega)]
  simp only [if_neg hlong]
  refine ⟨_, rfl, (BytesAt.nil.snoc _ rfl).snoc _ rfl, ?_⟩
  intro a ha
  simp only [length_cons, length_nil] at ha
  rw [update_of_ne (by omega), update_of_ne (by omega)]

theorem outTag_emitted (h : OutOk o its) (len off : Nat) :
    Emitted o (pglzOutTag o len off) its (.copy len off) := by
  obtain ⟨gs, g, hopen, hroom, rfl, hge, hbp, hframe⟩ := outCtrl_open h
  obtain ⟨buf, heq, hat, hsame⟩ := outTag_eq o len off
  have hsize := itemBytes_length (.copy len off)
  have hpow : 2 ^ g.length ≤ 2 ^ 7 := Nat.pow_le_pow_right (by decide) (by omega)
  have hctrl := hopen.ctrl
  rw [Nat.mod_eq_of_lt (by omega)] at hctrl
  -- the bit of the new item is above those of the others
  have hbit : ((pglzOutCtrl o).ctrlb ||| (pglzOutCtrl o).ctrl).toNat
      = (pglzOutCtrl o).ctrlb.toNat + 2 ^ g.length := by
    have hlt := ctrlBits_lt g
    have hor := Nat.two_pow_add_eq_or_of_lt hlt 1
    rw [Nat.mul_one] at hor
    rw [UInt8.toNat_or, hctrl, hopen.ctrlb, ctrlBits_toNat hopen.len, Nat.or_comm, ← hor, add_comm]
  have hemit : Open (pglzOutTag o len off) gs (g ++ [.copy len off]) := by
    rw [heq]
    refine hopen.emit hroom (.copy len off) buf _ (fun a ha => hsame a (.inl ha)) hat ?_
    rw [hbit]
    simp [Item.isCopy]
  refine ⟨.inr ⟨gs, _, hemit, by simp, by simp⟩, ?_, ?_⟩
  · rw [heq]
    simp only
    omega
  rw [heq]
  intro a ha
  simp only at ha ⊢
  rw [hsame a (.inr ha), hframe a (by omega)]

/-! ### Compressing: the loop -/

/-- What holds at the top of the main loop, `buf` being what the buffer had in it before. -/
structure LoopOk (p : Params) (buf : Nat → UInt8) (s : CompressState) : Prop where
  dp_le : s.dp ≤ p.slen
  hist : s.hist.Ok s.dp
  out : ∃ its, OutOk s.out its ∧ Covers p.source 0 its s.dp ∧ ∀ it ∈ its, Fits it
  bp_le : s.out.bp ≤ p.slen + 3
  frame : ∀ a, p.slen + 4 ≤ a → s.out.buf a = buf a

namespace LoopOk

variable {p : Params} {buf : Nat → UInt8} {s : CompressState}

/-- One item is emitted and the characters it covers go into the history. -/
theorem emit (h : LoopOk p buf s) {dp : Nat} {hist : History} {out : Out} {found : Bool}
    (hle : dp ≤ p.slen) (hhist : hist.Ok dp) (hroom : s.out.bp < p.slen)
    (hemit : ∀ its, OutOk s.out its → Emitted s.out out its it)
    (hcov : Covers p.source s.dp [it] dp) (hfits : Fits it) :
    LoopOk p buf { dp := dp, hist := hist, out := out, foundMatch := found } := by
  obtain ⟨its, hout, hcov₀, hfits₀⟩ := h.out
  have he := hemit its hout
  have hbp := he.bp
  refine ⟨hle, hhist, ⟨its ++ [it], he.ok, hcov₀.append hcov, ?_⟩, ?_, ?_⟩
  · intro x hx
    rcases mem_append.mp hx with hx | hx
    · exact hfits₀ x hx
    · rw [mem_singleton.mp hx]
      exact hfits
  · simp only
    omega
  · intro a ha
    exact (he.frame a (by omega)).trans (h.frame a ha)

theorem start (p : Params) (buf : Nat → UInt8) (entries : Chains) :
    LoopOk p buf (startState buf entries) := by
  refine ⟨Nat.zero_le _, History.Ok.start entries,
    ⟨[], .inl ⟨rfl, rfl, rfl, rfl⟩, .done 0, ?_⟩, Nat.zero_le _, fun _ _ => rfl⟩
  intro it hit
  cases hit

variable (p buf) in
/-- The loop ends, by running out of source or by giving up. -/
theorem loop (hmax : p.resultMax ≤ p.slen) :
    ∀ (fuel : Nat) (s : CompressState), LoopOk p buf s → p.slen ≤ s.dp + fuel →
      ∃ s' finished, compressLoop p fuel s = some (s', finished) ∧ LoopOk p buf s' ∧
        (finished = true → s'.dp = p.slen) := by
  intro fuel
  induction fuel with
  | zero =>
    intro s h hfuel
    have hle := h.dp_le
    exact ⟨s, true, rfl, h, fun _ => by omega⟩
  | succ fuel ih =>
    intro s h hfuel
    have hle := h.dp_le
    unfold compressLoop
    split
    next hmore =>
      split
      · exact ⟨s, false, rfl, h, fun hf => by cases hf⟩
      next hbig =>
        split_ifs with hgive
        · exact ⟨s, false, rfl, h, fun hf => by cases hf⟩
        obtain ⟨r, hfind, hr⟩ := pglzFindMatch_spec h.hist hle p.widen p.source p.goodMatch
          p.goodDrop
        rw [hfind]
        cases r with
        | none =>
          refine ih _ (h.emit hmore (h.hist.histAdd p.widen p.source p.slen) (by omega)
            (fun its hout => outLiteral_emitted hout _) (.lit (.done _)) trivial) ?_
          simp only
          omega
        | some lo =>
          obtain ⟨len, off⟩ := lo
          obtain ⟨hlen, hm⟩ := hr len off rfl
          have hoff := hm.off_lt
          refine ih _ (h.emit hm.inside (h.hist.histAddAll p.widen p.source p.slen len) (by omega)
            (fun its hout => outTag_emitted hout len off)
            (.copy hm.off_pos hm.off_le (by omega) hm.eq (.done _))
            ⟨hlen, hm.len_le, by omega⟩) ?_
          simp only
          omega
    next hmore => exact ⟨s, true, rfl, h, fun _ => by omega⟩

end LoopOk

theorem resultMaxOf_le (strategy : Strategy) (slen : Nat) : resultMaxOf strategy slen ≤ slen := by
  unfold resultMaxOf
  have hrate : 100 - needRateOf strategy ≤ 100 := Nat.sub_le _ _
  split_ifs
  · calc slen / 100 * (100 - needRateOf strategy) ≤ slen / 100 * 100 := Nat.mul_le_mul_left _ hrate
      _ ≤ slen := Nat.div_mul_le_self _ _
  calc slen * (100 - needRateOf strategy) / 100 ≤ slen * 100 / 100 :=
        Nat.div_le_div_right (Nat.mul_le_mul_left _ hrate)
    _ = slen := Nat.mul_div_cancel _ (by decide)

/-- Staying below the limit means reaching the compression rate. -/
theorem rate_of_lt_resultMaxOf {strategy : Strategy} {slen size : Nat}
    (h : size < resultMaxOf strategy slen) : 100 * size < slen * (100 - needRateOf strategy) := by
  unfold resultMaxOf at h
  split_ifs at h
  · calc 100 * size < 100 * (slen / 100 * (100 - needRateOf strategy)) :=
          Nat.mul_lt_mul_of_pos_left h (by decide)
      _ = slen / 100 * 100 * (100 - needRateOf strategy) := by ring
      _ ≤ slen * (100 - needRateOf strategy) := Nat.mul_le_mul_right _ (Nat.div_mul_le_self _ _)
  · have hdiv := Nat.div_mul_le_self (slen * (100 - needRateOf strategy)) 100
    omega

theorem storeCtrl_frame (h : OutOk o its) {a : Nat} (ha : o.bp ≤ a) : o.storeCtrl a = o.buf a := by
  rcases h with ⟨hctrlp, -, -, -⟩ | ⟨gs, g, hopen, -, -⟩
  · simp only [Out.storeCtrl, hctrlp]
  have hbp := hopen.bp
  simp only [Out.storeCtrl, hopen.ctrlp]
  exact update_of_ne (by omega) _ _

/-- What the loop has produced is read back as the source. -/
theorem decompress_of_out {source : Nat → UInt8} {slen : Nat} (hout : OutOk o its)
    (hcov : Covers source 0 its slen) (hfits : ∀ it ∈ its, Fits it) (hpos : 0 < slen)
    (hsize : o.bp + headerSize < 2 ^ 30) (dest : Int → UInt8) : ∃ dest', pglzDecompress
        { varsize := setVarsizeCompressed (o.bp + headerSize), rawsize := slen } o.storeCtrl dest
          = some dest' ∧
      Agrees source dest' slen := by
  rcases hout with ⟨-, -, -, rfl⟩ | ⟨gs, g, hopen, hne, rfl⟩
  · cases hcov
    exact absurd hpos (lt_irrefl 0)
  obtain ⟨hat, hlength⟩ := hopen.close
  have hvarsize : setVarsizeCompressed (o.bp + headerSize) - headerSize = o.bp := by
    rw [setVarsizeCompressed, Nat.mod_eq_of_lt hsize, Nat.add_sub_cancel]
  have hflat : (gs ++ [g]).flatten = gs.flatten ++ g := by simp
  have hgroups : gs.length < o.bp := by
    have hle : gs.length ≤ (encode gs).length := by
      clear hopen hat hlength hcov hfits hflat
      induction gs with
      | nil => exact le_rfl
      | cons x gs ih =>
        simp only [encode, flatMap_cons, length_append, groupBytes, length_cons] at ih ⊢
        omega
    have hbp := hopen.bp
    omega
  obtain ⟨dest', hrun, hagree⟩ := decompressLoop_spec source hne hopen.len gs o.bp
    ⟨0, 0, dest⟩ hopen.full hat (by rw [hflat]; exact hfits) (by rw [hflat]; exact hcov)
    (fun i hi => absurd hi (Nat.not_lt_zero i)) (by rw [hlength, zero_add]) hgroups
  refine ⟨dest', ?_, hagree⟩
  simp only [pglzDecompress, hvarsize, Int.toNat_natCast, hrun]
  rw [if_neg]
  have hcast : ((setVarsizeCompressed (o.bp + headerSize) : Nat) : Int) - headerSize = o.bp := by
    omega
  rintro (hdp | hsp)
  · exact hdp rfl
  · exact hsp hcast.symm

/--
For every source and every strategy, whatever was in the buffer and in the history table
before: a call ends, and writes nothing beyond `slen + 4` bytes.  If it returns true, the
result is smaller than the source and than the compression rate asks for.  Decompressing it
gives back the source, provided that the buffer was one that can be allocated; a larger
result would have a size that a `varlena` header cannot hold.
-/
theorem pglz_round_trip (widen : UInt8 → BitVec 32) (strategy : Option Strategy)
    (source : Nat → UInt8) (slen : Nat) (buf : Nat → UInt8) (entries : Chains) :
    ∃ r, pglzCompress widen source slen buf entries strategy = some r ∧
      (∀ a, slen + 4 ≤ a → r.buf a = buf a) ∧
      ∀ header, r.header = some header → ∃ size,
        header = { varsize := setVarsizeCompressed (size + headerSize), rawsize := slen } ∧
        size < slen ∧
        100 * size < slen * (100 - needRateOf (strategy.getD strategyDefault)) ∧
        (maxOutput slen ≤ maxAllocSize → ∀ dest, ∃ dest',
          pglzDecompress header r.buf dest = some dest' ∧ ∀ i < slen, dest' i = source i) := by
  unfold pglzCompress
  simp only
  split_ifs with hforbid
  · refine ⟨_, rfl, fun _ _ => rfl, ?_⟩
    intro header hh
    cases hh
  have hmax := resultMaxOf_le (strategy.getD strategyDefault) slen
  obtain ⟨s, finished, hloop, hok, hdone⟩ := LoopOk.loop
    (paramsOf widen source slen (strategy.getD strategyDefault)) buf hmax slen
    (startState buf entries) (LoopOk.start _ buf entries) (Nat.le_add_left _ _)
  obtain ⟨its, hout, hcov, hfits⟩ := hok.out
  have hbp : s.out.bp ≤ slen + 3 := hok.bp_le
  have hframe : ∀ a, slen + 4 ≤ a → s.out.storeCtrl a = buf a := by
    intro a ha
    rw [storeCtrl_frame hout (by omega)]
    exact hok.frame a ha
  rw [hloop]
  cases finished with
  | false =>
    refine ⟨_, rfl, hok.frame, ?_⟩
    intro header hh
    cases hh
  | true =>
    simp only
    split_ifs with hbig
    · refine ⟨_, rfl, hframe, ?_⟩
      intro header hh
      cases hh
    refine ⟨_, rfl, hframe, ?_⟩
    intro header hh
    cases hh
    have hlt : s.out.bp < resultMaxOf (strategy.getD strategyDefault) slen := by omega
    refine ⟨s.out.bp, rfl, by omega, rate_of_lt_resultMaxOf hlt, ?_⟩
    intro halloc dest
    have hdp : s.dp = slen := hdone rfl
    rw [hdp] at hcov
    simp only [maxOutput, headerSize, maxAllocSize] at halloc
    exact decompress_of_out hout hcov hfits (by omega) (by simp only [headerSize]; omega) dest

/-- Twelve equal bytes: a literal and a reference that overlaps with itself. -/
theorem pglz_round_trip_twelve :
    ∃ r header, pglzCompress (fun c => c.toBitVec.signExtend 32) (fun _ => 97) 12 (fun _ => 0)
        ⟨fun _ => none, fun _ => none, fun _ => none, fun _ => 0, fun _ => 0⟩ (some strategyAlways)
          = some r ∧
      r.header = some header ∧ header = { varsize := 12, rawsize := 12 } ∧
      ∃ dest', pglzDecompress header r.buf (fun _ => 0) = some dest' ∧
        ∀ i < 12, dest' (i : Nat) = 97 := by
  obtain ⟨r, hr, -, hheader⟩ := pglz_round_trip (fun c => c.toBitVec.signExtend 32)
    (some strategyAlways) (fun _ => 97) 12 (fun _ => 0)
    ⟨fun _ => none, fun _ => none, fun _ => none, fun _ => 0, fun _ => 0⟩
  have hsome : (pglzCompress (fun c => c.toBitVec.signExtend 32) (fun _ => 97) 12 (fun _ => 0)
      ⟨fun _ => none, fun _ => none, fun _ => none, fun _ => 0, fun _ => 0⟩
      (some strategyAlways)).bind (fun r => r.header) = some { varsize := 12, rawsize := 12 } := by
    decide +kernel
  rw [hr] at hsome
  obtain ⟨size, -, -, -, hback⟩ := hheader _ hsome
  obtain ⟨dest', hdest, heq⟩ := hback (by decide) (fun _ => 0)
  exact ⟨r, _, hr, hsome, rfl, dest', hdest, heq⟩

end PrlPg.Pglz
