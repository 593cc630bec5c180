/-
The two logs of MultiXact sets.

`LogsInv` says what the logs hold, in terms of ids and slots that never wrapped around: the live
ids and the live slots lie in windows shorter than half of the circle, so a word of a log belongs
to at most one of them.  The one awkward slot is number zero.  A set never starts there, so it is
left out when the set before it ends exactly at the end of the circle, and a reader who takes it
for a member must find it empty.

Each of the things a creator does to the logs keeps `LogsInv`.
-/
import PrlPg.Access.MultiXact

namespace PrlPg.MultiXact

open Function Mvcc Option

/-! ### Words -/

variable {a b : Nat}

theorem uint32_inj (h : uint32 a = uint32 b) (hab : a < b + 4294967296) (hba : b < a + 4294967296) :
    a = b := by
  unfold uint32 at h
  omega

theorem le_skipZero (n : Nat) : n ≤ skipZero n := by
  unfold skipZero
  split <;> omega

theorem skipZero_le (n : Nat) : skipZero n ≤ n + 1 := by
  unfold skipZero
  split <;> omega

theorem uint32_skipZero_ne (n : Nat) : uint32 (skipZero n) ≠ 0 := by
  unfold skipZero uint32
  split <;> omega

theorem skipZero_mono (h : a ≤ b) : skipZero a ≤ skipZero b := by
  unfold skipZero
  split <;> split <;> omega

theorem skipZero_of_ne {n : Nat} (h : uint32 n ≠ 0) : skipZero n = n := if_neg h

theorem skipZero_of_eq {n : Nat} (h : uint32 n = 0) : skipZero n = n + 1 := if_pos h

theorem uint32_skipZero (n : Nat) : uint32 (skipZero n) = if uint32 n = 0 then 1 else uint32 n := by
  by_cases h : uint32 n = 0
  · rw [skipZero_of_eq h, if_pos h]
    unfold uint32 at h ⊢
    omega
  · rw [skipZero_of_ne h, if_neg h]

/-- Handling wraparound by hand comes to the same. -/
theorem ite_first_eq (n : Nat) :
    (if uint32 n < firstMultiXactId then firstMultiXactId else uint32 n) = uint32 (skipZero n) := by
  rw [uint32_skipZero]
  exact if_congr Nat.lt_one_iff rfl rfl

theorem uint32_uint32_add (a b : Nat) : uint32 (uint32 a + b) = uint32 (a + b) :=
  Nat.mod_add_mod _ _ _

theorem int32_uint32Sub (hab : a ≤ b) (hb : b < a + 2147483648) :
    int32 (uint32Sub (uint32 b) (uint32 a)) = (b : Int) - a := by
  have hsub : uint32Sub (uint32 b) (uint32 a) = b - a := by
    unfold uint32Sub uint32
    omega
  rw [hsub, int32, if_pos (by omega)]
  omega

theorem precedes_of_lt (hab : a < b) (hb : b ≤ a + 2147483648) :
    multiXactIdPrecedes (uint32 a) (uint32 b) = true := by
  have hsub : uint32Sub (uint32 a) (uint32 b) = 4294967296 - (b - a) := by
    unfold uint32Sub uint32
    omega
  rw [multiXactIdPrecedes, decide_eq_true_iff, hsub, int32, if_neg (by omega)]
  omega

theorem page_ne (hpage : a / 2048 < b / 2048) (hb : b < a + 2147483648 + 2048) :
    uint32 a / entriesPerPage ≠ uint32 b / entriesPerPage := by
  unfold uint32 entriesPerPage
  omega

/-! ### The invariant -/

structure LogsInv (l : Logs) : Prop where
  made : ∀ v m, l.made v = some m → v < l.vnext ∧ uint32 v ≠ 0 ∧ uint32 m.start ≠ 0 ∧
    m.stop ≤ l.onext ∧ ∀ x ∈ m.args, transactionIdIsValid x = true
  order : ∀ v m v' m', l.made v = some m → l.made v' = some m' → v < v' → skipZero m.stop ≤ m'.start
  /-- a set is the newest, or the next one starts where it stops -/
  next : ∀ v m, l.made v = some m → (l.vnext = v + 1 ∧ l.onext = m.stop) ∨
    (skipZero (v + 1) < l.vnext ∧
      ∃ m', l.made (skipZero (v + 1)) = some m' ∧ m'.start = skipZero m.stop)
  oldest : l.oldest ≤ l.vnext ∧ l.oldestStart ≤ l.onext
  window : l.vnext ≤ l.oldest + 2147483648 ∧ l.onext < l.oldestStart + 2147483648
  live : ∀ v m, l.made v = some m → l.oldest ≤ v → l.oldestStart ≤ m.start
  done : ∀ v, (l.membersDone v = true → l.offsetDone v = true) ∧
    (l.offsetDone v = true → (l.made v).isSome = true)
  offset : ∀ v m, l.made v = some m → l.oldest ≤ v →
    l.offsets (uint32 v) = if l.offsetDone v then uint32 m.start else 0
  member : ∀ v m, l.made v = some m → l.oldest ≤ v → l.membersDone v = true →
    ∀ j x, m.xids[j]? = some x → l.members (uint32 (m.start + j)) = x
  /-- the slot left out after a set that ends at the end of the circle -/
  gap : ∀ v m, l.made v = some m → l.oldest ≤ v → uint32 m.stop = 0 → m.stop < l.onext →
    l.members 0 = 0#32

variable {l : Logs} {v w : Nat} {m m' : Made}
variable {x : TransactionId} {args : List TransactionId} {p : Nat}

theorem LogsInv.word_inj (h : LogsInv l) (hv : v < l.vnext) (hv' : l.oldest ≤ v)
    (hw : w < l.vnext) (hw' : l.oldest ≤ w) (heq : uint32 v = uint32 w) : v = w := by
  have hwin := h.window.1
  exact uint32_inj heq (by omega) (by omega)

theorem Made.lt_stop {j : Nat} (hj : m.xids[j]? = some x) : m.start + j < m.stop := by
  obtain ⟨hlt, -⟩ := List.getElem?_eq_some_iff.1 hj
  unfold Made.stop
  omega

section

variable (h : LogsInv l) (hv : l.made v = some m) (hw : l.made w = some m') (hlv : l.oldest ≤ v)
  (hlw : l.oldest ≤ w) {y : TransactionId}
include h hv hw hlv hlw

/-- Fewer than 2^32 slots are in use. -/
theorem LogsInv.slot_eq {i j : Nat} (hi : m.start + i ≤ m.stop) (hj : m'.start + j ≤ m'.stop)
    (heq : uint32 (m.start + i) = uint32 (m'.start + j)) : m.start + i = m'.start + j := by
  obtain ⟨-, -, -, hvs, -⟩ := h.made v m hv
  obtain ⟨-, -, -, hws, -⟩ := h.made w m' hw
  have hsv := h.live v m hv hlv
  have hsw := h.live w m' hw hlw
  have hwin := h.window.2
  exact uint32_inj heq (by omega) (by omega)

/-- Two live members in the same slot are the same member. -/
theorem LogsInv.slot_inj {j k : Nat} (hj : m.xids[j]? = some x)
    (hk : m'.xids[k]? = some y) (heq : uint32 (m.start + j) = uint32 (m'.start + k)) : x = y := by
  have hjs := Made.lt_stop hj
  have hks := Made.lt_stop hk
  have hslot := h.slot_eq hv hw hlv hlw hjs.le hks.le heq
  rcases Nat.lt_trichotomy v w with hlt | rfl | hlt
  · have := h.order v m w m' hv hw hlt
    have := le_skipZero m.stop
    omega
  · rw [hv] at hw
    cases hw
    obtain rfl : j = k := by omega
    rw [hj] at hk
    exact some.inj hk
  have := h.order w m' v m hw hv hlt
  have := le_skipZero m'.stop
  omega

/-- No member of a live set is in a slot that was left out. -/
theorem LogsInv.gap_ne (hgap : uint32 m.stop = 0) {k : Nat}
    (hk : m'.xids[k]? = some y) : uint32 (m'.start + k) ≠ 0 := by
  intro h0
  have hks := Made.lt_stop hk
  have hstart : m.start ≤ m.stop := Nat.le_add_right _ _
  have hslot : m'.start + k = m.stop :=
    h.slot_eq hw hv hlw hlv hks.le le_rfl (h0.trans hgap.symm)
  rcases Nat.lt_trichotomy v w with hlt | rfl | hlt
  · have := h.order v m w m' hv hw hlt
    rw [skipZero_of_eq hgap] at this
    omega
  · rw [hv] at hw
    cases hw
    omega
  have := h.order w m' v m hw hv hlt
  have := le_skipZero m'.stop
  omega

end

/-! ### What a step of one backend leaves to the others -/

/-- Nothing that was made is lost, and no member of a live set changes. -/
structure Grows (l l' : Logs) : Prop where
  made : ∀ v m, l.made v = some m → l'.made v = some m
  offsetDone : ∀ v, l.offsetDone v = true → l'.offsetDone v = true
  membersDone : ∀ v, l.membersDone v = true → l'.membersDone v = true
  vnext : l.vnext ≤ l'.vnext
  onext : l.onext ≤ l'.onext
  member : ∀ v m, l.made v = some m → l.oldest ≤ v → ∀ j x, m.xids[j]? = some x →
    l.members (uint32 (m.start + j)) = x → l'.members (uint32 (m.start + j)) = x

/-- Nothing is reserved, and the words ahead that are zero stay so. -/
structure Keeps (l l' : Logs) : Prop where
  vnext : l'.vnext = l.vnext
  onext : l'.onext = l.onext
  oldest : l.oldest ≤ l'.oldest
  oldestStart : l.oldestStart ≤ l'.oldestStart
  offsets : ∀ w, l.vnext ≤ w → w < l.vnext + 4096 → l.offsets (uint32 w) = 0 →
    l'.offsets (uint32 w) = 0
  members : uint32 l.onext = 0 → l.members 0 = 0#32 → l'.members 0 = 0#32

theorem Grows.refl : Grows l l :=
  ⟨fun _ _ => id, fun _ => id, fun _ => id, le_rfl, le_rfl, fun _ _ _ _ _ _ _ => id⟩

theorem Keeps.refl : Keeps l l := ⟨rfl, rfl, le_rfl, le_rfl, fun _ _ _ => id, fun _ => id⟩

/-! ### Extending the logs -/

/-- The words from `v` to the end of its page are zero. -/
def Fresh (l : Logs) (v : Nat) : Prop := ∀ w, v ≤ w → w / 2048 = v / 2048 → l.offsets (uint32 w) = 0

/-- What is known of the page of the newest id, while nobody is extending the logs. -/
def Rest (l : Logs) : Prop :=
  uint32 l.vnext ≠ 1 → ∀ w, l.vnext ≤ w → w / 2048 = (l.vnext - 1) / 2048 → l.offsets (uint32 w) = 0

/-- The page of the next id is zeroed unless that was done for an id before it. -/
theorem extendOffset_eq (l : Logs) (i : Nat) :
    extendMultiXactOffset l.offsets (uint32 (skipZero l.vnext)) i
      = if (skipZero l.vnext % 2048 = 0 ∨ uint32 (skipZero l.vnext) = 1) ∧
          i / entriesPerPage = uint32 (skipZero l.vnext) / entriesPerPage then 0
        else l.offsets i := by
  have hmod : uint32 (skipZero l.vnext) % entriesPerPage = skipZero l.vnext % 2048 := by
    unfold uint32 entriesPerPage
    omega
  unfold extendMultiXactOffset
  rw [hmod, firstMultiXactId]
  by_cases hfirst : skipZero l.vnext % 2048 = 0 ∨ uint32 (skipZero l.vnext) = 1
  · rw [if_neg (by tauto)]
    refine if_congr ?_ rfl rfl
    exact ⟨fun h => ⟨hfirst, h⟩, fun h => h.2⟩
  · rw [if_pos (by tauto), if_neg fun h => hfirst h.1]

theorem extendOffset_fresh (hrest : Rest l) :
    Fresh { l with offsets := extendMultiXactOffset l.offsets (uint32 (skipZero l.vnext)) }
      (skipZero l.vnext) := by
  intro w hw hpage
  change extendMultiXactOffset l.offsets (uint32 (skipZero l.vnext)) (uint32 w) = 0
  rw [extendOffset_eq]
  by_cases hfirst : skipZero l.vnext % 2048 = 0 ∨ uint32 (skipZero l.vnext) = 1
  · refine if_pos ⟨hfirst, ?_⟩
    unfold uint32 entriesPerPage
    omega
  rw [if_neg fun h => hfirst h.1]
  rw [not_or] at hfirst
  have hskip : skipZero l.vnext = l.vnext := by
    refine skipZero_of_ne fun h0 => hfirst.2 ?_
    rw [uint32_skipZero, if_pos h0]
  rw [hskip] at hw hpage hfirst
  refine hrest hfirst.2 w hw ?_
  omega

section

variable (h : LogsInv l) (hlt : skipZero l.vnext < l.oldest + 2147483648)
include h hlt

/-- Zeroing the page of the next id leaves the live ids alone. -/
theorem extendOffset_live (hv : l.made v = some m) (hlive : l.oldest ≤ v) :
    extendMultiXactOffset l.offsets (uint32 (skipZero l.vnext)) (uint32 v)
      = l.offsets (uint32 v) := by
  obtain ⟨hvn, hnz, -⟩ := h.made v m hv
  rw [extendOffset_eq]
  refine if_neg ?_
  rintro ⟨hfirst, hpage⟩
  have hle := le_skipZero l.vnext
  refine page_ne ?_ (by omega) hpage
  rcases hfirst with hfirst | hfirst
  · omega
  · unfold uint32 at hfirst hnz
    omega

theorem LogsInv.extendOffset :
    LogsInv { l with offsets := extendMultiXactOffset l.offsets (uint32 (skipZero l.vnext)) } := by
  refine { h with offset := fun v m hv hlive => ?_ }
  exact (extendOffset_live h hlt hv hlive).trans (h.offset v m hv hlive)

end

theorem zeroMember_live (hp : l.onext ≤ p) (hfirst : p % 2048 = 0)
    (hlt : p < l.oldestStart + 2147483648) {q : Nat} (hq : l.oldestStart ≤ q) (hqn : q < l.onext) :
    zeroPage 0#32 l.members (uint32 p / entriesPerPage) (uint32 q) = l.members (uint32 q) := by
  exact if_neg (page_ne (by omega) (by omega))

theorem zeroMember_zero (hz : l.members 0 = 0#32) :
    zeroPage 0#32 l.members (uint32 p / entriesPerPage) 0 = 0#32 := by
  unfold zeroPage
  split
  · rfl
  · exact hz

theorem LogsInv.zeroMember (h : LogsInv l) (hp : l.onext ≤ p) (hfirst : p % 2048 = 0)
    (hlt : p < l.oldestStart + 2147483648) :
    LogsInv { l with members := zeroPage 0#32 l.members (uint32 p / entriesPerPage) } ∧
      Grows l { l with members := zeroPage 0#32 l.members (uint32 p / entriesPerPage) } := by
  have hkeep : ∀ v m, l.made v = some m → l.oldest ≤ v → ∀ j x, m.xids[j]? = some x →
      zeroPage 0#32 l.members (uint32 p / entriesPerPage) (uint32 (m.start + j))
        = l.members (uint32 (m.start + j)) := by
    intro v m hv hlive j x hj
    obtain ⟨-, -, -, hstop, -⟩ := h.made v m hv
    have hlow := h.live v m hv hlive
    have hhigh := Made.lt_stop hj
    exact zeroMember_live hp hfirst hlt (by omega) (by omega)
  refine ⟨{ h with member := fun v m hv hlive hd j x hj => ?_, gap := fun v m hv hl hs hn => ?_ },
    ⟨fun _ _ => id, fun _ => id, fun _ => id, le_rfl, le_rfl, fun v m hv hlive j x hj hx => ?_⟩⟩
  · exact (hkeep v m hv hlive j x hj).trans (h.member v m hv hlive hd j x hj)
  · exact zeroMember_zero (h.gap v m hv hl hs hn)
  · exact (hkeep v m hv hlive j x hj).trans hx

/-! ### Reserving, writing and retiring -/

/-- The logs after the counters are advanced. -/
def Logs.reserve (l : Logs) (args : List TransactionId) : Logs :=
  { l with
    vnext := skipZero l.vnext + 1
    onext := skipZero l.onext + (sortXids args).length
    made := Function.update l.made (skipZero l.vnext) (some ⟨skipZero l.onext, args⟩) }

theorem LogsInv.made_ne (h : LogsInv l) (hv : l.made v = some m) : v ≠ skipZero l.vnext := by
  have hlt := (h.made v m hv).1
  have hle := le_skipZero l.vnext
  omega

theorem reserve_made_of_ne (args : List TransactionId) (hne : v ≠ skipZero l.vnext) :
    (l.reserve args).made v = l.made v := update_of_ne hne _ _

theorem reserve_made_self (args : List TransactionId) :
    (l.reserve args).made (skipZero l.vnext) = some ⟨skipZero l.onext, args⟩ :=
  update_self _ _ _

/-- A set that is there after a reservation was there before, or is the one reserved. -/
theorem reserve_made (args : List TransactionId) (hv : (l.reserve args).made v = some m) :
    (v = skipZero l.vnext ∧ m = ⟨skipZero l.onext, args⟩) ∨
      (v ≠ skipZero l.vnext ∧ l.made v = some m) := by
  by_cases hne : v = skipZero l.vnext
  · rw [hne, reserve_made_self] at hv
    exact .inl ⟨hne, (some.inj hv).symm⟩
  · rw [reserve_made_of_ne args hne] at hv
    exact .inr ⟨hne, hv⟩

theorem LogsInv.reserve_grows (h : LogsInv l) (args : List TransactionId) :
    Grows l (l.reserve args) := by
  refine ⟨fun v m hv => ?_, fun _ => id, fun _ => id, ?_, ?_, fun _ _ _ _ _ _ _ => id⟩
  · rw [reserve_made_of_ne args (h.made_ne hv)]
    exact hv
  · exact Nat.le_succ_of_le (le_skipZero _)
  · exact Nat.le_add_right_of_le (le_skipZero _)

theorem LogsInv.reserve_next (h : LogsInv l) (args : List TransactionId) (hv : l.made v = some m) :
    skipZero (v + 1) < (l.reserve args).vnext ∧
      ∃ m', (l.reserve args).made (skipZero (v + 1)) = some m' ∧ m'.start = skipZero m.stop := by
  rcases h.next v m hv with ⟨hnew, hstop⟩ | ⟨hlt, m', hm', hstart⟩
  · rw [← hnew, ← hstop]
    exact ⟨Nat.lt_succ_self _, _, reserve_made_self args, rfl⟩
  refine ⟨Nat.lt_succ_of_lt (lt_of_lt_of_le hlt (le_skipZero _)), m', ?_, hstart⟩
  rw [reserve_made_of_ne args (h.made_ne hm')]
  exact hm'

theorem LogsInv.reserve (h : LogsInv l)
    (hargs : ∀ x ∈ args, transactionIdIsValid x = true)
    (hid : skipZero l.vnext < l.oldest + 2147483648)
    (hslots : skipZero l.onext + (sortXids args).length < l.oldestStart + 2147483648)
    (hfresh : Fresh l (skipZero l.vnext)) (hzero : uint32 l.onext = 0 → l.members 0 = 0#32) :
    LogsInv (l.reserve args) := by
  have hvle := le_skipZero l.vnext
  have hole := le_skipZero l.onext
  have hgrow := h.reserve_grows args
  have hundone : l.offsetDone (skipZero l.vnext) = false := by
    refine Bool.eq_false_iff.2 fun hd => ?_
    obtain ⟨m, hm⟩ := isSome_iff_exists.1 ((h.done _).2 hd)
    exact h.made_ne hm rfl
  refine ⟨fun v m hv => ?_, fun v m v' m' hv hv' hlt => ?_, fun v m hv => ?_, ?_, ?_,
    fun v m hv hlive => ?_, fun v => ?_, fun v m hv hlive => ?_,
    fun v m hv hlive hd j x hj => ?_, fun v m hv hlive hstop hn => ?_⟩
  · rcases reserve_made args hv with ⟨rfl, rfl⟩ | ⟨-, hv⟩
    · exact ⟨Nat.lt_succ_self _, uint32_skipZero_ne _, uint32_skipZero_ne _, le_rfl, hargs⟩
    · obtain ⟨hlt, hnz, hsnz, hstop, hvalid⟩ := h.made v m hv
      exact ⟨lt_of_lt_of_le hlt hgrow.vnext, hnz, hsnz, le_trans hstop hgrow.onext, hvalid⟩
  · rcases reserve_made args hv with ⟨rfl, rfl⟩ | ⟨-, hv⟩
    · rcases reserve_made args hv' with ⟨rfl, rfl⟩ | ⟨-, hv'⟩
      · exact absurd hlt (lt_irrefl _)
      · have := (h.made v' m' hv').1
        omega
    rcases reserve_made args hv' with ⟨rfl, rfl⟩ | ⟨-, hv'⟩
    · obtain ⟨-, -, -, hstop, -⟩ := h.made v m hv
      exact skipZero_mono hstop
    · exact h.order v m v' m' hv hv' hlt
  · rcases reserve_made args hv with ⟨rfl, rfl⟩ | ⟨-, hv⟩
    · exact .inl ⟨rfl, rfl⟩
    · exact .inr (h.reserve_next args hv)
  · exact ⟨le_trans h.oldest.1 hgrow.vnext, le_trans h.oldest.2 hgrow.onext⟩
  · exact ⟨hid, hslots⟩
  · rcases reserve_made args hv with ⟨rfl, rfl⟩ | ⟨-, hv⟩
    · exact le_trans h.oldest.2 hole
    · exact h.live v m hv hlive
  · refine ⟨(h.done v).1, fun hd => ?_⟩
    obtain ⟨m, hm⟩ := isSome_iff_exists.1 ((h.done v).2 hd)
    rw [hgrow.made v m hm]
    rfl
  · rcases reserve_made args hv with ⟨rfl, rfl⟩ | ⟨-, hv⟩
    · -- the word of the new id was zeroed with its page
      change l.offsets _ = if l.offsetDone _ then _ else _
      rw [hundone, if_neg Bool.false_ne_true]
      exact hfresh _ (le_rfl) rfl
    · exact h.offset v m hv hlive
  · rcases reserve_made args hv with ⟨rfl, rfl⟩ | ⟨-, hv⟩
    · have hoff := (h.done _).1 hd
      rw [hundone] at hoff
      cases hoff
    · exact h.member v m hv hlive hd j x hj
  rcases reserve_made args hv with ⟨rfl, rfl⟩ | ⟨-, hv⟩
  · exact absurd hn (lt_irrefl _)
  by_cases hlast : m.stop < l.onext
  · exact h.gap v m hv hlive hstop hlast
  · obtain ⟨-, -, -, hle, -⟩ := h.made v m hv
    exact hzero ((Nat.le_antisymm hle (not_lt.1 hlast)) ▸ hstop)

theorem rest_reserve (hfresh : Fresh l (skipZero l.vnext)) :
    Rest (l.reserve args) := by
  intro _ w hw hpage
  have hw' : skipZero l.vnext + 1 ≤ w := hw
  have hpage' : w / 2048 = (skipZero l.vnext + 1 - 1) / 2048 := hpage
  exact hfresh w (by omega) (by omega)

def Logs.writeOffset (l : Logs) (v start : Nat) : Logs :=
  { l with
    offsets := Function.update l.offsets (uint32 v) (uint32 start)
    offsetDone := Function.update l.offsetDone v true }

theorem LogsInv.writeOffset (h : LogsInv l) (hv : l.made v = some m) (hlive : l.oldest ≤ v) :
    LogsInv (l.writeOffset v m.start) ∧ Grows l (l.writeOffset v m.start) ∧
      Keeps l (l.writeOffset v m.start) := by
  have hvn := (h.made v m hv).1
  have hmono : ∀ w, l.offsetDone w = true → (l.writeOffset v m.start).offsetDone w = true := by
    intro w hd
    change update l.offsetDone v true w = true
    by_cases hw : w = v
    · rw [hw, update_self]
    · rw [update_of_ne hw]
      exact hd
  refine ⟨{ h with done := fun w => ⟨fun hd => hmono w ((h.done w).1 hd), fun hd => ?_⟩,
                   offset := fun w m' hw hlw => ?_ }, ⟨fun _ _ => id, hmono, fun _ => id,
    le_rfl, le_rfl, fun _ _ _ _ _ _ _ => id⟩, ⟨rfl, rfl, le_rfl,
    le_rfl, fun w hw hw' hz => ?_, fun _ => id⟩⟩
  · by_cases hw : w = v
    · rw [hw]
      exact isSome_iff_exists.2 ⟨m, hv⟩
    change update l.offsetDone v true w = true at hd
    rw [update_of_ne hw] at hd
    exact (h.done w).2 hd
  · change update l.offsets (uint32 v) (uint32 m.start) (uint32 w)
      = if update l.offsetDone v true w then uint32 m'.start else 0
    by_cases hwv : w = v
    · have hmm : m = m' := some.inj (hv.symm.trans (hwv ▸ hw))
      rw [hwv, update_self, update_self, if_pos rfl, hmm]
    have hword : uint32 w ≠ uint32 v := fun heq =>
      hwv (h.word_inj (h.made w m' hw).1 hlw hvn hlive heq)
    rw [update_of_ne hwv, update_of_ne hword]
    exact h.offset w m' hw hlw
  have hwin := h.window.1
  have hword : uint32 w ≠ uint32 v := fun heq => by
    have := uint32_inj heq (by omega) (by omega)
    omega
  change update l.offsets (uint32 v) (uint32 m.start) (uint32 w) = 0
  rw [update_of_ne hword]
  exact hz

def Logs.writeMember (l : Logs) (slot : Nat) (x : TransactionId) : Logs :=
  { l with members := Function.update l.members (uint32 slot) x }

theorem LogsInv.writeMember (h : LogsInv l) (hv : l.made v = some m) (hlive : l.oldest ≤ v)
    {i : Nat} (hi : m.xids[i]? = some x) :
    LogsInv (l.writeMember (m.start + i) x) ∧ Grows l (l.writeMember (m.start + i) x) ∧
      Keeps l (l.writeMember (m.start + i) x) := by
  have hkeep : ∀ w m', l.made w = some m' → l.oldest ≤ w → ∀ j y, m'.xids[j]? = some y →
      l.members (uint32 (m'.start + j)) = y →
      update l.members (uint32 (m.start + i)) x (uint32 (m'.start + j)) = y := by
    intro w m' hw hlw j y hj hy
    by_cases heq : uint32 (m'.start + j) = uint32 (m.start + i)
    · rw [heq, update_self]
      exact h.slot_inj hv hw hlive hlw hi hj heq.symm
    · rw [update_of_ne heq]
      exact hy
  refine ⟨{ h with member := fun w m' hw hlw hd j y hj => ?_,
                   gap := fun w m' hw hlw hs hn => ?_ },
    ⟨fun _ _ => id, fun _ => id, fun _ => id, le_rfl, le_rfl, hkeep⟩,
    ⟨rfl, rfl, le_rfl, le_rfl, fun _ _ _ => id, fun h0 hz => ?_⟩⟩
  · exact hkeep w m' hw hlw j y hj (h.member w m' hw hlw hd j y hj)
  · change update l.members (uint32 (m.start + i)) x 0 = 0#32
    rw [update_of_ne (h.gap_ne hw hv hlw hlive hs hi).symm]
    exact h.gap w m' hw hlw hs hn
  change update l.members (uint32 (m.start + i)) x 0 = 0#32
  have hne : uint32 (m.start + i) ≠ 0 := fun h0' => by
    have hlt := Made.lt_stop hi
    have hlow := h.live v m hv hlive
    have hwin := h.window.2
    obtain ⟨-, -, -, hstop, -⟩ := h.made v m hv
    have := uint32_inj (h0'.trans h0.symm) (by omega) (by omega)
    omega
  rw [update_of_ne hne.symm]
  exact hz

def Logs.finish (l : Logs) (v : Nat) : Logs :=
  { l with membersDone := Function.update l.membersDone v true }

theorem LogsInv.finish (h : LogsInv l) (hv : l.made v = some m) (hoff : l.offsetDone v = true)
    (hall : ∀ j x, m.xids[j]? = some x → l.members (uint32 (m.start + j)) = x) :
    LogsInv (l.finish v) ∧ Grows l (l.finish v) ∧ Keeps l (l.finish v) := by
  have hback : ∀ w, w ≠ v → (l.finish v).membersDone w = true → l.membersDone w = true := by
    intro w hw hd
    change update l.membersDone v true w = true at hd
    rwa [update_of_ne hw] at hd
  refine ⟨{ h with done := fun w => ⟨fun hd => ?_, (h.done w).2⟩,
                   member := fun w m' hw hlw hd => ?_ },
    ⟨fun _ _ => id, fun _ => id, fun w hd => ?_, le_rfl, le_rfl,
      fun _ _ _ _ _ _ _ => id⟩, ⟨rfl, rfl, le_rfl, le_rfl, fun _ _ _ => id,
      fun _ => id⟩⟩
  · by_cases hwv : w = v
    · exact hwv ▸ hoff
    · exact (h.done w).1 (hback w hwv hd)
  · by_cases hwv : w = v
    · have hmm : m = m' := some.inj (hv.symm.trans (hwv ▸ hw))
      exact hmm ▸ hall
    · exact h.member w m' hw hlw (hback w hwv hd)
  change update l.membersDone v true w = true
  by_cases hwv : w = v
  · rw [hwv, update_self]
  · rw [update_of_ne hwv]
    exact hd

/-- The oldest live id moves on, to the newest at most. -/
def Logs.retire (l : Logs) (oldest oldestStart : Nat) : Logs :=
  { l with oldest := oldest, oldestStart := oldestStart }

theorem LogsInv.retire (h : LogsInv l) {oldest oldestStart : Nat} (hle : l.oldest ≤ oldest)
    (hto : (oldest = l.vnext ∧ oldestStart = l.onext) ∨
      ∃ m, l.made oldest = some m ∧ oldestStart = m.start) :
    LogsInv (l.retire oldest oldestStart) ∧ Keeps l (l.retire oldest oldestStart) := by
  have hwin := h.window
  have hlow := h.oldest
  have hbounds : oldest ≤ l.vnext ∧ l.oldestStart ≤ oldestStart ∧ oldestStart ≤ l.onext := by
    rcases hto with ⟨rfl, rfl⟩ | ⟨m, hm, rfl⟩
    · exact ⟨le_rfl, hlow.2, le_rfl⟩
    obtain ⟨hlt, -, -, hstop, -⟩ := h.made oldest m hm
    exact ⟨le_of_lt hlt, h.live oldest m hm hle, le_trans (Nat.le_add_right _ _) hstop⟩
  have hlive : ∀ v m, l.made v = some m → oldest ≤ v → oldestStart ≤ m.start := by
    intro v m hv hov
    rcases hto with ⟨rfl, rfl⟩ | ⟨m₀, hm₀, rfl⟩
    · have := (h.made v m hv).1
      omega
    rcases Nat.lt_or_ge oldest v with hlt | hge
    · have hord := h.order oldest m₀ v m hm₀ hv hlt
      have hskip := le_skipZero m₀.stop
      have hstop : m₀.start ≤ m₀.stop := Nat.le_add_right _ _
      omega
    obtain rfl := Nat.le_antisymm hov hge
    rw [hv] at hm₀
    exact Nat.le_of_eq (congrArg Made.start (some.inj hm₀.symm))
  refine ⟨{ h with
    oldest := ⟨hbounds.1, hbounds.2.2⟩
    window := ⟨?_, ?_⟩
    live := hlive
    offset := fun v m hv hov => h.offset v m hv (le_trans hle hov)
    member := fun v m hv hov => h.member v m hv (le_trans hle hov)
    gap := fun v m hv hov => h.gap v m hv (le_trans hle hov) },
    ⟨rfl, rfl, hle, hbounds.2.1, fun _ _ _ => id, fun _ => id⟩⟩
  · exact le_trans hwin.1 (Nat.add_le_add_right hle _)
  · exact lt_of_lt_of_le hwin.2 (Nat.add_le_add_right hbounds.2.1 _)

end PrlPg.MultiXact
