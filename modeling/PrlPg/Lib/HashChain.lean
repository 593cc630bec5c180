/-
Doubly linked lists threaded through an array of entries, one list for each key.

This is the usual intrusive layout: `start` has the head of every list, and each entry its
two neighbours, its key and a rank.  An entry is put at the head of its list (`link`) and
taken out from anywhere (`delink`).  When every new entry outranks all that are linked, the
ranks go down along each list, so a walk ends, and an entry is on at most one list.

`Linked used` is the invariant, with the set of linked entries as a parameter, so that
taking an entry out and putting it back are two separate lemmas.
-/
import Mathlib.Order.Basic

namespace PrlPg.HashChain

/-- The heads of the lists, and for each entry its neighbours, key and rank. -/
structure Chains where
  start : Nat → Option Nat
  next : Nat → Option Nat
  prev : Nat → Option Nat
  key : Nat → Nat
  rank : Nat → Nat

namespace Chains

/-- Take an entry out of its list. -/
def delink (c : Chains) (e : Nat) : Chains :=
  let c :=
    match c.prev e with
    | none => { c with start := Function.update c.start (c.key e) (c.next e) }
    | some p => { c with next := Function.update c.next p (c.next e) }
  match c.next e with
  | none => c
  | some n => { c with prev := Function.update c.prev n (c.prev e) }

/-- Put an entry at the head of the list of its new key. -/
def link (c : Chains) (e key rank : Nat) : Chains :=
  let head := c.start key
  let c := { c with
             next := Function.update c.next e head
             prev := Function.update c.prev e none
             key := Function.update c.key e key
             rank := Function.update c.rank e rank }
  let c :=
    match head with
    | none => c
    | some f => { c with prev := Function.update c.prev f (some e) }
  { c with start := Function.update c.start key (some e) }

/-- The entries in `used` are linked, and no others. -/
structure Linked (used : Nat → Prop) (c : Chains) : Prop where
  start : ∀ k e, c.start k = some e → used e ∧ c.prev e = none ∧ c.key e = k
  next : ∀ e n, used e → c.next e = some n →
    used n ∧ c.prev n = some e ∧ c.key n = c.key e ∧ c.rank n < c.rank e
  first : ∀ e, used e → c.prev e = none → c.start (c.key e) = some e
  prev : ∀ e p, used e → c.prev e = some p → used p ∧ c.next p = some e

theorem linked_empty {c : Chains} (h : ∀ k, c.start k = none) : Linked (fun _ => False) c := by
  refine ⟨?_, fun _ _ he => he.elim, fun _ he => he.elim, fun _ _ he => he.elim⟩
  intro k e hk
  rw [h k] at hk
  cases hk

namespace Linked

variable {used : Nat → Prop} {c : Chains}

theorem congr {used' : Nat → Prop} (h : Linked used c) (hiff : ∀ e, used e ↔ used' e) :
    Linked used' c := by
  have : used = used' := funext fun e => propext (hiff e)
  exact this ▸ h

/-- Nobody is its own neighbour: the rank would be below itself. -/
theorem next_ne (h : Linked used c) {e : Nat} (he : used e) : c.next e ≠ some e := by
  intro hn
  exact Nat.lt_irrefl _ (h.next e e he hn).2.2.2

theorem prev_ne (h : Linked used c) {e p : Nat} (he : used e) (hp : c.prev e = some p) :
    e ≠ p := by
  rintro rfl
  exact h.next_ne he (h.prev e e he hp).2

end Linked

/-! ### Taking an entry out -/

section Delink

variable {used : Nat → Prop} {c : Chains} {e : Nat}

section

variable (h : Linked used c) (he : used e)
include h he

theorem delink_start (k : Nat) : (c.delink e).start k
      = if c.prev e = none ∧ k = c.key e then c.next e else c.start k := by
  unfold delink
  cases hp : c.prev e with
  | none =>
    cases hn : c.next e with
    | none | some n => by_cases hk : k = c.key e <;> simp [hn, hk]
  | some p =>
    have hpe := h.prev_ne he hp
    cases hn : c.next e with
    | none => simp [hn, hpe]
    | some n => simp [hn, hpe]

theorem delink_next (x : Nat) :
    (c.delink e).next x = if c.prev e = some x then c.next e else c.next x := by
  unfold delink
  cases hp : c.prev e with
  | none => cases hn : c.next e with
    | none => simp [hn]
    | some n => simp [hn]
  | some p =>
    have hpe := h.prev_ne he hp
    cases hn : c.next e with
    | none | some n => by_cases hx : x = p <;> simp [hn, hx, hpe, eq_comm]

theorem delink_prev (x : Nat) :
    (c.delink e).prev x = if c.next e = some x then c.prev e else c.prev x := by
  unfold delink
  cases hp : c.prev e with
  | none => cases hn : c.next e with
    | none => simp [hn]
    | some n => by_cases hx : x = n <;> simp [hn, hx, hp, eq_comm]
  | some p =>
    have hpe := h.prev_ne he hp
    cases hn : c.next e with
    | none => simp [hn, hpe]
    | some n => by_cases hx : x = n <;> simp [hn, hx, hp, hpe, eq_comm]

end

theorem delink_key (x : Nat) : (c.delink e).key x = c.key x := by
  unfold delink
  cases c.prev e <;> simp only <;> split <;> rfl

theorem delink_rank (x : Nat) : (c.delink e).rank x = c.rank x := by
  unfold delink
  cases c.prev e <;> simp only <;> split <;> rfl

/-- What is left is linked as before. -/
theorem Linked.delink (h : Linked used c) (he : used e) :
    Linked (fun x => used x ∧ x ≠ e) (c.delink e) := by
  refine ⟨?_, ?_, ?_, ?_⟩
  · intro k x hx
    rw [delink_start h he] at hx
    rw [delink_prev h he, delink_key]
    split_ifs at hx with hcond
    · obtain ⟨hux, -, hkey, hrank⟩ := h.next e x he hx
      refine ⟨⟨hux, ?_⟩, ?_, hkey.trans hcond.2.symm⟩
      · rintro rfl
        exact Nat.lt_irrefl _ hrank
      · rw [if_pos hx]
        exact hcond.1
    obtain ⟨hux, hprev, hkey⟩ := h.start k x hx
    refine ⟨⟨hux, ?_⟩, ?_, hkey⟩
    · rintro rfl
      exact hcond ⟨hprev, hkey.symm⟩
    rw [if_neg, hprev]
    intro hn
    rw [(h.next e x he hn).2.1] at hprev
    cases hprev
  · rintro x n ⟨hux, hxe⟩ hn
    rw [delink_next h he] at hn
    rw [delink_prev h he, delink_key, delink_key, delink_rank, delink_rank]
    split_ifs at hn with hcond
    · -- `x` stood before the entry and now before what came after it
      obtain ⟨hun, -, hkey, hrank⟩ := h.next e n he hn
      obtain ⟨-, -, hkey', hrank'⟩ := h.next x e hux (h.prev e x he hcond).2
      refine ⟨⟨hun, ?_⟩, ?_, hkey.trans hkey', Nat.lt_trans hrank hrank'⟩
      · rintro rfl
        exact Nat.lt_irrefl _ hrank
      · rw [if_pos hn]
        exact hcond
    obtain ⟨hun, hprev, hkey, hrank⟩ := h.next x n hux hn
    refine ⟨⟨hun, ?_⟩, ?_, hkey, hrank⟩
    · rintro rfl
      exact hcond hprev
    rw [if_neg, hprev]
    intro hen
    rw [(h.next e n he hen).2.1] at hprev
    exact hxe (Option.some.inj hprev).symm
  · rintro x ⟨hux, hxe⟩ hprev
    rw [delink_prev h he] at hprev
    rw [delink_start h he, delink_key]
    split_ifs at hprev with hcond
    · rw [if_pos ⟨hprev, (h.next e x he hcond).2.2.1⟩]
      exact hcond
    have hstart := h.first x hux hprev
    rw [if_neg, hstart]
    rintro ⟨hpe, hkey⟩
    rw [hkey, h.first e he hpe] at hstart
    exact hxe (Option.some.inj hstart).symm
  rintro x p ⟨hux, hxe⟩ hprev
  rw [delink_prev h he] at hprev
  rw [delink_next h he]
  split_ifs at hprev with hcond
  · obtain ⟨hup, hnext⟩ := h.prev e p he hprev
    refine ⟨⟨hup, ?_⟩, ?_⟩
    · exact (h.prev_ne he hprev).symm
    · rw [if_pos hprev]
      exact hcond
  obtain ⟨hup, hnext⟩ := h.prev x p hux hprev
  refine ⟨⟨hup, ?_⟩, ?_⟩
  · rintro rfl
    exact hcond hnext
  rw [if_neg, hnext]
  intro hep
  rw [(h.prev e p he hep).2] at hnext
  exact hxe (Option.some.inj hnext).symm

end Delink

/-! ### Putting an entry in -/

section Link

variable {used : Nat → Prop} {c : Chains} {e key rank : Nat}

theorem link_start (k : Nat) :
    (c.link e key rank).start k = if k = key then some e else c.start k := by
  unfold link
  cases c.start key <;> by_cases hk : k = key <;> simp [hk]

theorem link_next (x : Nat) :
    (c.link e key rank).next x = if x = e then c.start key else c.next x := by
  unfold link
  cases c.start key <;> by_cases hx : x = e <;> simp [hx]

theorem link_prev (x : Nat) : (c.link e key rank).prev x
      = if c.start key = some x then some e else if x = e then none else c.prev x := by
  unfold link
  cases hs : c.start key with
  | none => by_cases hx : x = e <;> simp [hx]
  | some f =>
    by_cases hf : f = x
    · subst hf
      simp
    · have hfx : x ≠ f := fun h => hf h.symm
      by_cases hx : x = e <;> simp [hx, hfx, Function.update_apply, eq_comm]

theorem link_key (x : Nat) : (c.link e key rank).key x = if x = e then key else c.key x := by
  unfold link
  cases c.start key <;> by_cases hx : x = e <;> simp [hx]

theorem link_rank (x : Nat) : (c.link e key rank).rank x = if x = e then rank else c.rank x := by
  unfold link
  cases c.start key <;> by_cases hx : x = e <;> simp [hx]

/-- A new entry of the highest rank goes in front of the others. -/
theorem Linked.link (h : Linked used c) (he : ¬ used e) (hrank : ∀ x, used x → c.rank x < rank) :
    Linked (fun x => used x ∨ x = e) (c.link e key rank) := by
  have hne : ∀ x, used x → x ≠ e := by
    rintro x hx rfl
    exact he hx
  refine ⟨?_, ?_, ?_, ?_⟩
  · intro k x hx
    rw [link_start] at hx
    rw [link_prev, link_key]
    split_ifs at hx with hk
    · cases hx
      refine ⟨.inr rfl, ?_, ?_⟩
      · rw [if_neg, if_pos rfl]
        intro hs
        exact he (h.start key e hs).1
      · rw [if_pos rfl, hk]
    obtain ⟨hux, hprev, hkey⟩ := h.start k x hx
    refine ⟨.inl hux, ?_, ?_⟩
    · rw [if_neg, if_neg (hne x hux), hprev]
      intro hs
      exact hk (hkey.symm.trans (h.start key x hs).2.2)
    · rw [if_neg (hne x hux), hkey]
  · intro x n hux hn
    rw [link_next] at hn
    rw [link_prev, link_key, link_key, link_rank, link_rank]
    split_ifs at hn with hxe
    · obtain ⟨hun, -, hkey⟩ := h.start key n hn
      rw [if_pos hn, if_neg (hne n hun), if_pos hxe, if_neg (hne n hun), if_pos hxe, hxe]
      exact ⟨.inl hun, rfl, hkey, hrank n hun⟩
    have hux' : used x := hux.resolve_right hxe
    obtain ⟨hun, hprev, hkey, hlt⟩ := h.next x n hux' hn
    have hs : c.start key ≠ some n := by
      intro hs
      rw [(h.start key n hs).2.1] at hprev
      cases hprev
    rw [if_neg hs, if_neg (hne n hun), if_neg (hne n hun), if_neg hxe, if_neg (hne n hun),
      if_neg hxe]
    exact ⟨.inl hun, hprev, hkey, hlt⟩
  · intro x hux hprev
    rw [link_prev] at hprev
    rw [link_start, link_key]
    split_ifs at hprev with hs hxe
    · rw [if_pos hxe, if_pos rfl, hxe]
    have hux' : used x := hux.resolve_right hxe
    have hfirst := h.first x hux' hprev
    rw [if_neg hxe, if_neg, hfirst]
    intro hk
    rw [hk] at hfirst
    exact hs hfirst
  intro x p hux hprev
  rw [link_prev] at hprev
  rw [link_next]
  split_ifs at hprev with hs hxe
  · cases hprev
    rw [if_pos rfl]
    exact ⟨.inr rfl, hs⟩
  have hux' : used x := hux.resolve_right hxe
  obtain ⟨hup, hnext⟩ := h.prev x p hux' hprev
  rw [if_neg (hne p hup)]
  exact ⟨.inl hup, hnext⟩

end Link

end Chains

end PrlPg.HashChain
