/-
The history of the compressor, and the matches found in it.

Entries are recycled after 4096 positions, so what matters is that a recycled entry is
really out of its old list: every entry reached from `hist_start` then belongs to the
source at hand and to a position before the current one, and positions go down along each
list.  The first fact makes every match a reference backwards.  The second makes the walk
through a list end, since it stops at the first entry that is too far back.

A match itself does not depend on the lists being right: it is compared byte by byte.
-/
import Mathlib.Data.List.Basic
import PrlPg.Utils.LzCompress

namespace PrlPg.Pglz

open HashChain

/-! ### The history table -/

namespace History

/-- The entries that are in use. -/
def used (h : History) (e : Nat) : Prop := e < historySize ∧ (h.histRecycle = true ∨ e < h.histNext)

/-- The history of the first `dp` positions. -/
structure Ok (h : History) (dp : Nat) : Prop where
  next_lt : h.histNext < historySize
  linked : h.chains.Linked h.used
  pos_lt : ∀ e, h.used e → h.chains.rank e < dp

theorem Ok.start (entries : Chains) :
    Ok { chains := { entries with start := fun _ => none }, histNext := 0,
         histRecycle := false } 0 := by
  have hpos : 0 < historySize := by decide
  refine ⟨hpos, ?_, ?_⟩
  · refine (Chains.linked_empty fun _ => rfl).congr ?_
    intro e
    simp [used]
  rintro e ⟨-, h | h⟩
  · cases h
  · cases h

/-- The list of the next entry is given up before the entry is used again. -/
theorem Ok.vacate {h : History} {dp : Nat} (hok : h.Ok dp) :
    (if h.histRecycle then h.chains.delink h.histNext else h.chains).Linked
      (fun x => h.used x ∧ x ≠ h.histNext) := by
  split_ifs with hr
  · exact hok.linked.delink ⟨hok.next_lt, .inl hr⟩
  refine hok.linked.congr ?_
  intro x
  constructor
  · intro hx
    refine ⟨hx, ?_⟩
    have := hx.2.resolve_left hr
    omega
  · exact fun hx => hx.1

theorem rank_vacate (h : History) (x : Nat) :
    (if h.histRecycle then h.chains.delink h.histNext else h.chains).rank x = h.chains.rank x := by
  split_ifs
  · exact Chains.delink_rank x
  · rfl

section Add

variable (widen : UInt8 → BitVec 32) (source : Nat → UInt8) (h : History) (s e : Nat)

theorem histAdd_chains : (pglzHistAdd widen source h s e).chains
    = (if h.histRecycle then h.chains.delink h.histNext else h.chains).link h.histNext
        (pglzHistIdx widen source s e) s := by
  simp only [pglzHistAdd]
  by_cases hfull : h.histNext + 1 ≥ historySize
  · rw [if_pos hfull]
  · rw [if_neg hfull]

theorem histAdd_next : (pglzHistAdd widen source h s e).histNext
      = (if h.histNext + 1 ≥ historySize then 0 else h.histNext + 1) ∧
    (pglzHistAdd widen source h s e).histRecycle
      = if h.histNext + 1 ≥ historySize then true else h.histRecycle := by
  simp only [pglzHistAdd]
  by_cases hfull : h.histNext + 1 ≥ historySize
  · simp only [if_pos hfull, and_self]
  · simp only [if_neg hfull, and_self]

/-- The entry that is filled joins those in use. -/
theorem histAdd_used (hlt : h.histNext < historySize) (x : Nat) :
    (pglzHistAdd widen source h s e).used x ↔ (h.used x ∧ x ≠ h.histNext) ∨ x = h.histNext := by
  simp only [used, histAdd_next]
  by_cases hfull : h.histNext + 1 ≥ historySize
  · simp only [if_pos hfull, true_or, and_true]
    cases h.histRecycle with
    | true => simp only [true_or, and_true]; omega
    | false => simp only [Bool.false_eq_true, false_or]; omega
  simp only [if_neg hfull]
  cases h.histRecycle with
  | true => simp only [true_or, and_true]; omega
  | false => simp only [Bool.false_eq_true, false_or]; omega

end Add

theorem Ok.histAdd {h : History} {s : Nat} (hok : h.Ok s) (widen : UInt8 → BitVec 32)
    (source : Nat → UInt8) (e : Nat) : (pglzHistAdd widen source h s e).Ok (s + 1) := by
  have hrank : ∀ x, h.used x ∧ x ≠ h.histNext →
      (if h.histRecycle then h.chains.delink h.histNext else h.chains).rank x < s := by
    intro x hx
    rw [rank_vacate]
    exact hok.pos_lt x hx.1
  have hlt := hok.next_lt
  have hused := histAdd_used widen source h s e hlt
  refine ⟨?_, ?_, ?_⟩
  · rw [(histAdd_next widen source h s e).1]
    split_ifs <;> omega
  · rw [histAdd_chains]
    exact (hok.vacate.link (fun hx => hx.2 rfl) hrank).congr fun x => (hused x).symm
  intro x hx
  rw [histAdd_chains, Chains.link_rank]
  split
  · exact Nat.lt_succ_self s
  next hxe => exact Nat.lt_succ_of_lt (hrank x (((hused x).mp hx).resolve_right hxe))

theorem Ok.histAddAll (widen : UInt8 → BitVec 32) (source : Nat → UInt8) (e : Nat) :
    ∀ (n : Nat) (h : History) (s : Nat), h.Ok s →
      (Pglz.histAddAll widen source e h s n).Ok (s + n) := by
  intro n
  induction n with
  | zero => intro h s hok; exact hok
  | succ n ih =>
    intro h s hok
    have hrest := ih _ (s + 1) (hok.histAdd widen source e)
    rwa [show s + (n + 1) = s + 1 + n by omega]

end History

/-! ### Matches -/

/-- The bytes from `input` on agree with those `off` places before, and a tag can say so. -/
structure IsMatch (source : Nat → UInt8) (input e len off : Nat) : Prop where
  len_le : len ≤ maxMatch
  off_pos : 0 < off
  off_lt : off < 0x0fff
  off_le : off ≤ input
  inside : input + len ≤ e
  eq : ∀ k < len, source (input + k) = source (input + k - off)

theorem matchLength_spec (source : Nat → UInt8) (e : Nat) :
    ∀ n ip hp, ip ≤ e → matchLength source e n ip hp ≤ n ∧ ip + matchLength source e n ip hp ≤ e ∧
      ∀ k < matchLength source e n ip hp, source (ip + k) = source (hp + k) := by
  intro n
  induction n with
  | zero =>
    intro ip hp hle
    exact ⟨le_rfl, hle, fun k hk => absurd hk (Nat.not_lt_zero k)⟩
  | succ n ih =>
    intro ip hp hle
    unfold matchLength
    by_cases hc : ip < e ∧ source ip = source hp
    swap
    · rw [if_neg hc]
      exact ⟨Nat.zero_le _, hle, fun k hk => absurd hk (Nat.not_lt_zero k)⟩
    obtain ⟨hn, hin, heq⟩ := ih (ip + 1) (hp + 1) hc.1
    rw [if_pos hc]
    refine ⟨by omega, by omega, ?_⟩
    intro k hk
    cases k with
    | zero => exact hc.2
    | succ k =>
      have := heq k (by omega)
      rwa [show ip + 1 + k = ip + (k + 1) by omega, show hp + 1 + k = hp + (k + 1) by omega] at this

variable {source : Nat → UInt8}

theorem memEqual_spec {ip hp len : Nat}
    (h : memEqual source ip hp len = true) : ∀ k < len, source (ip + k) = source (hp + k) := by
  intro k hk
  simp only [memEqual, List.all_eq_true, List.mem_range, decide_eq_true_eq] at h
  exact h k hk

/-- A longer match than the best one so far is a match, whichever way it was compared. -/
theorem thisLength_isMatch {input e hp len : Nat} (hin : input + len ≤ e)
    (hlen : len ≤ maxMatch) (hback : hp < input) (hfar : input - hp < 0x0fff)
    (hlt : len < thisLength source e input hp len) :
    IsMatch source input e (thisLength source e input hp len) (input - hp) := by
  have hshift : ∀ k, input + k - (input - hp) = hp + k := by omega
  have hmain : thisLength source e input hp len ≤ maxMatch ∧
      input + thisLength source e input hp len ≤ e ∧
      ∀ k < thisLength source e input hp len, source (input + k) = source (hp + k) := by
    unfold thisLength at hlt ⊢
    split_ifs at hlt ⊢ with hlong hmem
    · obtain ⟨hn, hend, heq⟩ :=
        matchLength_spec source e (maxMatch - len) (input + len) (hp + len) hin
      refine ⟨by omega, by omega, ?_⟩
      intro k hk
      by_cases hold : k < len
      · exact memEqual_spec hmem k hold
      have := heq (k - len) (by omega)
      rwa [show input + len + (k - len) = input + k by omega,
        show hp + len + (k - len) = hp + k by omega] at this
    · omega
    · exact matchLength_spec source e maxMatch input hp (by omega)
  refine ⟨hmain.1, by omega, hfar, by omega, hmain.2.1, ?_⟩
  intro k hk
  rw [hshift]
  exact hmain.2.2 k hk

/-- The best match of a walk is one, if there is any; and the walk ends. -/
theorem findLoop_spec {c : Chains} {used : Nat → Prop} {input e : Nat}
    (hc : c.Linked used) (hpos : ∀ x, used x → c.rank x < input) (goodDrop : Nat) :
    ∀ fuel hent len off goodMatch, used hent → 0x0fff < fuel + (input - c.rank hent) → 0 < fuel →
      (input + len ≤ e ∧ len ≤ maxMatch) → (0 < len → IsMatch source input e len off) →
      ∃ best, findLoop source c input e goodDrop fuel (some hent) len off goodMatch = some best ∧
        (0 < best.1 → IsMatch source input e best.1 best.2) := by
  intro fuel
  induction fuel with
  | zero => intro hent len off goodMatch _ _ h0; omega
  | succ fuel ih =>
    intro hent len off goodMatch hused hfuel _ hlen hmatch
    have hback := hpos hent hused
    unfold findLoop
    simp only
    split
    · exact ⟨_, rfl, hmatch⟩
    next hfar =>
      -- the better of the two matches
      obtain ⟨best, hbest⟩ : ∃ best, best =
          if thisLength source e input (c.rank hent) len > len then
            (thisLength source e input (c.rank hent) len, input - c.rank hent)
          else (len, off) := ⟨_, rfl⟩
      have hspec : (input + best.1 ≤ e ∧ best.1 ≤ maxMatch) ∧
          (0 < best.1 → IsMatch source input e best.1 best.2) := by
        rw [hbest]
        split_ifs with hlonger
        · have hm := thisLength_isMatch hlen.1 hlen.2 hback (by omega) hlonger
          exact ⟨⟨hm.inside, hm.len_le⟩, fun _ => hm⟩
        · exact ⟨hlen, hmatch⟩
      rw [← hbest]
      cases hn : c.next hent with
      | none => exact ⟨best, rfl, hspec.2⟩
      | some hent' =>
        obtain ⟨hused', -, -, hrank⟩ := hc.next hent hent' hused hn
        split_ifs
        · exact ⟨best, rfl, hspec.2⟩
        · exact ih hent' _ _ _ hused' (by omega) (by omega) hspec.1 hspec.2

/-- The lookup ends, and what it finds is a match of at least three bytes. -/
theorem pglzFindMatch_spec {h : History} {input e : Nat} (hok : h.Ok input) (hle : input ≤ e)
    (widen : UInt8 → BitVec 32) (source : Nat → UInt8) (goodMatch goodDrop : Nat) :
    ∃ r, pglzFindMatch widen source h.chains input e goodMatch goodDrop = some r ∧
      ∀ len off, r = some (len, off) → 2 < len ∧ IsMatch source input e len off := by
  obtain ⟨best, hloop, hbest⟩ : ∃ best, findLoop source h.chains input e goodDrop historySize
        (h.chains.start (pglzHistIdx widen source input e)) 0 0 goodMatch = some best ∧
      (0 < best.1 → IsMatch source input e best.1 best.2) := by
    cases hs : h.chains.start (pglzHistIdx widen source input e) with
    | none =>
      refine ⟨(0, 0), ?_, fun h0 => absurd h0 (lt_irrefl 0)⟩
      rfl
    | some hent =>
      have hused := (hok.linked.start _ _ hs).1
      have hsize : 0x0fff < historySize := by decide
      exact findLoop_spec hok.linked hok.pos_lt goodDrop historySize hent 0 0 goodMatch hused
        (by omega) (by omega) ⟨hle, Nat.zero_le _⟩ (fun h0 => absurd h0 (lt_irrefl 0))
  refine ⟨_, by rw [pglzFindMatch, hloop]; rfl, ?_⟩
  intro len off hr
  simp only at hr
  split_ifs at hr with hlong
  cases hr
  exact ⟨hlong, hbest (by omega)⟩

end PrlPg.Pglz
