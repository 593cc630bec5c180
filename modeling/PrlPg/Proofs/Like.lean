/-
LIKE matching is exact for every pattern but those that end in a percent sign, underscores and
percent signs.

Text and pattern are given by their characters.  Within a character the loop goes by bytes in
both (`matchLoop_lockstep`); between characters it goes by items of the pattern, and `Right`
says what its result tells.  After a percent sign the code passes over underscores as long as
there is text and then wants at least one more character, where a final percent sign would
have been content with none.
-/
import PrlPg.Utils.Like

namespace PrlPg.Like

open List

/-! ### Characters and patterns -/

def special : List UInt8 := [37, 95, 92]

/-- The characters of the encodings that an inclusion is for. -/
def Inclusion.IsChar : Inclusion → List UInt8 → Prop
  | _, [] => False
  | .singleByte, _ :: c | .caseFolded _, _ :: c => c = []
  | .utf8, a :: c => c.length + 1 = pgUtfMblen a ∧ isContinuation a = false ∧
      ∀ x ∈ c, isContinuation x = true
  | .multiByte wide, a :: c => c.length + 1 = mblen wide a ∧ ∀ x ∈ c, 128 ≤ x

/-- What the code relies on. -/
structure Charset (M : Macros) (IsChar : List UInt8 → Prop) : Prop where
  cons : ∀ {c}, IsChar c → ∃ a d, c = a :: d
  next : ∀ {a c} {ts : List (List UInt8)}, IsChar (a :: c) → (∀ x ∈ ts, IsChar x) →
    M.extra a (c ++ ts.flatten) = c.length
  same : ∀ {a b c d}, IsChar (a :: c) → IsChar (b :: d) → M.tchar a = M.tchar b →
    c.length = d.length
  plain : ∀ {a c}, IsChar (a :: c) → ∀ x ∈ c, x ∉ special
  letter : IsChar [97]

theorem takeWhile_continuation {c : List UInt8} {ts : List (List UInt8)}
    (hc : ∀ x ∈ c, isContinuation x = true) (hts : ∀ x ∈ ts, Inclusion.utf8.IsChar x) :
    (c ++ ts.flatten).takeWhile isContinuation = c := by
  rw [takeWhile_append_of_pos hc]
  rcases ts with - | ⟨- | ⟨a, d⟩, ts⟩
  · simp
  · exact absurd (hts [] (by simp)) id
  · simp [(hts (a :: d) (by simp)).2.1]

theorem charset (inc : Inclusion) : Charset inc.macros inc.IsChar := by
  have hcons : ∀ {c}, inc.IsChar c → ∃ a d, c = a :: d := by
    intro c hc
    cases c with
    | nil => cases inc <;> exact hc.elim
    | cons a d => exact ⟨a, d, rfl⟩
  cases inc with
  | singleByte | caseFolded f =>
    refine ⟨hcons, fun h _ => ?_, fun h h' _ => ?_, fun h => ?_, rfl⟩
    · rw [show _ = [] from h]
      rfl
    · rw [show _ = [] from h, show _ = [] from h']
    · rw [show _ = [] from h]
      exact forall_mem_nil _
  | utf8 =>
    refine ⟨hcons, fun h hts => congrArg length (takeWhile_continuation h.2.2 hts),
      fun {a b _ _} h h' hab => ?_, fun h x hx hs => ?_, rfl, rfl, forall_mem_nil _⟩
    · cases show a = b from hab
      exact Nat.succ.inj (h.1.trans h'.1.symm)
    have hno : ∀ x ∈ special, ¬ isContinuation x = true := by
      simp [special, isContinuation]
      decide
    exact hno x hs (h.2.2 x hx)
  | multiByte wide =>
    refine ⟨hcons, fun h _ => Nat.sub_eq_of_eq_add h.1.symm, fun {a b _ _} h h' hab => ?_,
      fun h x hx hs => ?_, rfl, forall_mem_nil _⟩
    · cases show a = b from hab
      exact Nat.succ.inj (h.1.trans h'.1.symm)
    · exact (show ∀ x ∈ special, ¬ 128 ≤ x by simp [special]) x hs (h.2 x hx)

/-- What a pattern is made of that does not end in an unpaired backslash. -/
inductive Item
  | percent
  | underscore
  | char (escaped : Bool) (c : List UInt8)
  deriving DecidableEq

namespace Item

def bytes : Item → List UInt8
  | percent => [37]
  | underscore => [95]
  | char true c => 92 :: c
  | char false c => c

/-- Without a backslash before it, a character does not begin with a special byte. -/
def Ok (IsChar : List UInt8 → Prop) : Item → Prop
  | percent | underscore => True
  | char e c => IsChar c ∧ (e = false → ∀ a ∈ c.head?, a ∉ special)

/-- A shortest text that an item takes. -/
def shortest : Item → List (List UInt8)
  | percent => []
  | underscore => [[97]]
  | char _ c => [c]

end Item

/-- The text can be split as the pattern says. -/
def Matches (M : Macros) : List Item → List (List UInt8) → Prop
  | [], ts => ts = []
  | .percent :: is, ts => ∃ taken rest, taken ++ rest = ts ∧ Matches M is rest
  | .underscore :: is, ts => ∃ d rest, ts = d :: rest ∧ Matches M is rest
  | .char _ c :: is, ts => ∃ d rest, ts = d :: rest ∧ c.map M.tchar = d.map M.tchar ∧
      Matches M is rest

/-- Percent signs, and at least one. -/
def percents (is : List Item) : Bool := is ≠ [] ∧ ∀ i ∈ is, i = .percent

/-- Underscores and then percent signs, at least one of each. -/
def wildTail : List Item → Bool
  | .underscore :: is => percents is || wildTail is
  | _ => false

/-- The pattern ends in a percent sign, underscores and percent signs. -/
def wildEnd : List Item → Bool
  | [] => false
  | .percent :: is => wildTail is || wildEnd is
  | _ :: is => wildEnd is

/-- How many characters a pattern takes at least. -/
def weight (is : List Item) : Nat := (is.flatMap Item.shortest).length

variable {M : Macros} {IsChar : List UInt8 → Prop} {is : List Item} {ts : List (List UInt8)}

theorem matches_percent : Matches M (.percent :: is) ts ↔ ∃ rest, rest <:+ ts ∧ Matches M is rest :=
  ⟨fun ⟨taken, rest, h, hm⟩ => ⟨rest, ⟨taken, h⟩, hm⟩,
    fun ⟨rest, ⟨taken, h⟩, hm⟩ => ⟨taken, rest, h, hm⟩⟩

theorem matches_nil_iff : Matches M is [] ↔ ∀ i ∈ is, i = .percent := by
  induction is with
  | nil => exact iff_of_true rfl (forall_mem_nil _)
  | cons i is ih =>
    cases i with
    | percent => simp [matches_percent, ih]
    | underscore | char e c => exact iff_of_false (fun ⟨_, _, h, _⟩ => by cases h) (by simp)

theorem wildEnd_of_percents (h : ∀ i ∈ is, i = .percent) : wildEnd is = false := by
  induction is with
  | nil => rfl
  | cons i is ih =>
    obtain ⟨rfl, his⟩ := forall_mem_cons.mp h
    have htail : wildTail is = false := by
      cases is with
      | nil => rfl
      | cons j is => rw [his j (by simp)]; rfl
    rw [wildEnd, htail, ih his, Bool.or_self]

theorem matches_shortest (hM : Charset M IsChar) (hok : ∀ i ∈ is, i.Ok IsChar) :
    Matches M is (is.flatMap Item.shortest) ∧ ∀ c ∈ is.flatMap Item.shortest, IsChar c := by
  induction is with
  | nil => exact ⟨rfl, forall_mem_nil _⟩
  | cons i is ih =>
    obtain ⟨hi, his⟩ := forall_mem_cons.mp hok
    obtain ⟨hm, hc⟩ := ih his
    cases i with
    | percent => exact ⟨⟨[], _, rfl, hm⟩, hc⟩
    | underscore => exact ⟨⟨_, _, rfl, hm⟩, forall_mem_cons.mpr ⟨hM.letter, hc⟩⟩
    | char e c => exact ⟨⟨_, _, rfl, rfl, hm⟩, forall_mem_cons.mpr ⟨hi.1, hc⟩⟩

theorem suffix_of_cons {a b : List UInt8} {s : List (List UInt8)} (h : a :: s <:+ b :: ts) :
    s <:+ ts := by
  rcases suffix_cons_iff.mp h with heq | hs
  · rw [(cons.inj heq).2]
  · exact (suffix_cons a s).trans hs

/-- An underscore after a percent sign can take the first character. -/
theorem matches_percent_underscore {d : List UInt8} :
    Matches M (.percent :: .underscore :: is) (d :: ts) ↔ Matches M (.percent :: is) ts := by
  constructor
  · rintro ⟨taken, rest, heq, a, s, rfl, hm⟩
    exact matches_percent.mpr ⟨s, suffix_of_cons ⟨taken, heq⟩, hm⟩
  rintro ⟨taken, rest, rfl, hm⟩
  obtain ⟨u, a, hu⟩ : ∃ u a, d :: taken = u ++ [a] :=
    ⟨_, _, (dropLast_append_getLast (cons_ne_nil d taken)).symm⟩
  refine ⟨u, a :: rest, ?_, a, rest, rfl, hm⟩
  rw [append_cons, ← hu]
  rfl

/-! ### What a result tells -/

/-- What a result of the code tells about a text. -/
structure Right (M : Macros) (is : List Item) (ts : List (List UInt8)) (r : Result) : Prop where
  sound : r = .likeTrue → Matches M is ts ∧ (wildEnd is = true → weight is < ts.length)
  complete : r = .likeFalse → ¬ Matches M is ts
  abort : wildEnd is = false → r = .likeAbort → ∀ s, s <:+ ts → ¬ Matches M is s

def Yields (M : Macros) (is : List Item) (ts : List (List UInt8))
    (res : Except LikeError Result) : Prop :=
  ∃ r, res = .ok r ∧ Right M is ts r

theorem yields_true (h : Matches M is ts) (hw : wildEnd is = false) :
    Yields M is ts (.ok .likeTrue) :=
  ⟨_, rfl, fun _ => ⟨h, fun h => by simp [hw] at h⟩, fun h => (by cases h), fun _ h => (by cases h)⟩

theorem yields_false (h : ¬ Matches M is ts) : Yields M is ts (.ok .likeFalse) :=
  ⟨_, rfl, fun h => (by cases h), fun _ => h, fun _ h => (by cases h)⟩

theorem yields_abort (h : wildEnd is = false → ∀ s, s <:+ ts → ¬ Matches M is s) :
    Yields M is ts (.ok .likeAbort) :=
  ⟨_, rfl, fun h => (by cases h), fun h => (by cases h), fun hw _ => h hw⟩

/-- A result for one pattern and text is one for another that means the same. -/
theorem Yields.lift {is' : List Item} {ts' : List (List UInt8)} {res : Except LikeError Result}
    (h : Yields M is ts res) (hw : wildEnd is' = false → wildEnd is = false)
    (hm : Matches M is' ts' ↔ Matches M is ts)
    (hweight : wildEnd is' = true → (wildEnd is = true → weight is < ts.length) →
      weight is' < ts'.length)
    (hs : ∀ s, s <:+ ts' → Matches M is' s → ∃ u, u <:+ ts ∧ Matches M is u) :
    Yields M is' ts' res := by
  obtain ⟨r, rfl, hr⟩ := h
  refine ⟨r, rfl, fun h => ?_, fun h => mt hm.mp (hr.complete h), fun hw' h s hsuf hm' => ?_⟩
  · obtain ⟨hm', hwild⟩ := hr.sound h
    exact ⟨hm.mpr hm', fun hw' => hweight hw' hwild⟩
  · obtain ⟨u, hu, hmu⟩ := hs s hsuf hm'
    exact hr.abort (hw hw') h u hu hmu

variable {res : Except LikeError Result} {d : List UInt8} {i : Item}

/-- An item that takes one character. -/
theorem Yields.cons (h : Yields M is ts res) (hw : wildEnd (i :: is) = wildEnd is)
    (hshort : i.shortest.length = 1) (htake : Matches M is ts → Matches M (i :: is) (d :: ts))
    (htaken : ∀ s, Matches M (i :: is) s → ∃ a rest, s = a :: rest ∧ Matches M is rest) :
    Yields M (i :: is) (d :: ts) res := by
  refine h.lift (hw ▸ id) ⟨fun hm => ?_, htake⟩ (fun hw' hlt => ?_) fun s hs hm => ?_
  · obtain ⟨a, rest, heq, hrest⟩ := htaken _ hm
    cases heq
    exact hrest
  · have := hlt (hw ▸ hw')
    simp only [weight, flatMap_cons, length_append, length_cons] at this ⊢
    omega
  · obtain ⟨a, rest, rfl, hrest⟩ := htaken _ hm
    exact ⟨rest, suffix_of_cons hs, hrest⟩

theorem Yields.percents (h : Yields M (.percent :: is) ts res) :
    Yields M (.percent :: .percent :: is) ts res := by
  have hiff : ∀ s, Matches M (.percent :: .percent :: is) s ↔ Matches M (.percent :: is) s := by
    intro s
    refine ⟨fun hs => ?_, fun hs => matches_percent.mpr ⟨s, suffix_refl _, hs⟩⟩
    obtain ⟨u, hu, hm⟩ := matches_percent.mp hs
    obtain ⟨v, hv, hm⟩ := matches_percent.mp hm
    exact matches_percent.mpr ⟨v, hv.trans hu, hm⟩
  exact h.lift id (hiff ts) (fun hw hlt => hlt hw) fun s hs hm => ⟨s, hs, (hiff s).mp hm⟩

theorem Yields.percent_underscore (hts : ts ≠ []) (h : Yields M (.percent :: is) ts res) :
    Yields M (.percent :: .underscore :: is) (d :: ts) res := by
  have hw : wildEnd (.percent :: .underscore :: is)
      = (Like.percents is || wildEnd (.percent :: is)) := Bool.or_assoc ..
  refine h.lift (fun h => ?_) matches_percent_underscore (fun h hlt => ?_) fun s hs hm => ?_
  · exact (Bool.or_eq_false_iff.mp (hw ▸ h)).2
  · have hlen := length_pos_iff.mpr hts
    have hweight : weight (.percent :: .underscore :: is) = weight is + 1 := rfl
    rw [hweight, length_cons]
    rcases Bool.or_eq_true_iff.mp (hw ▸ h) with hp | hwild
    · have hzero : weight is = 0 := by
        rw [weight, flatMap_eq_nil_iff.mpr, length_nil]
        intro i hi
        rw [(of_decide_eq_true hp).2 i hi]
        rfl
      omega
    · exact Nat.succ_lt_succ (hlt hwild)
  cases s with
  | nil => simpa using matches_nil_iff.mp hm
  | cons a s => exact ⟨s, suffix_of_cons hs, matches_percent_underscore.mp hm⟩

/-! ### Looking for the rest of the pattern -/

theorem matches_of_percents (hne : is ≠ []) (h : ∀ i ∈ is, i = .percent) : Matches M is ts := by
  cases is with
  | nil => cases hne rfl
  | cons i is =>
    rw [h i (by simp)]
    exact matches_percent.mpr ⟨[], nil_suffix, matches_nil_iff.mpr fun j hj => h j (by simp [hj])⟩

theorem scan_yields (hM : Charset M IsChar) {first : UInt8 → Bool}
    {f : List UInt8 → Except LikeError Result} (hi : i ≠ .underscore)
    (hf : ∀ s ≠ [], (∀ x ∈ s, IsChar x) → Yields M (i :: is) s (f s.flatten))
    (hfirst : ∀ a c s, first a = false → ¬ Matches M (i :: is) ((a :: c) :: s)) :
    ∀ ts ≠ [], (∀ x ∈ ts, IsChar x) →
      Yields M (.percent :: i :: is) ts (scan M first f ts.flatten) := by
  have hw : wildEnd (.percent :: i :: is) = wildEnd (i :: is) := by
    cases i <;> first | rfl | cases hi rfl
  intro ts
  induction ts with
  | nil => exact fun h => absurd rfl h
  | cons c ts ih =>
    intro _ hts
    obtain ⟨a, c, rfl⟩ := hM.cons (hts c (by simp))
    have hts' : ∀ x ∈ ts, IsChar x := fun x hx => hts x (by simp [hx])
    -- the rest does not match at the first place
    have hpass (hnot : ¬ Matches M (i :: is) ((a :: c) :: ts)) :
        Yields M (.percent :: i :: is) ((a :: c) :: ts) (scan M first f ts.flatten) := by
      have hrest : ∀ s, s <:+ (a :: c) :: ts → Matches M (.percent :: i :: is) s →
          Matches M (.percent :: i :: is) ts := by
        intro s hs hm
        obtain ⟨u, hu, hm⟩ := matches_percent.mp hm
        rcases suffix_cons_iff.mp (hu.trans hs) with rfl | hu
        · exact absurd hm hnot
        · exact matches_percent.mpr ⟨u, hu, hm⟩
      by_cases hne : ts = []
      · subst hne
        rw [flatten_nil, scan]
        refine yields_abort fun _ s hs hm => hnot ?_
        refine matches_of_percents (cons_ne_nil _ _) fun j hj => ?_
        exact matches_nil_iff.mp (hrest s hs hm) j (by simp [hj])
      refine (ih hne hts').lift id ⟨hrest _ (suffix_refl _), fun hm => ?_⟩
        (fun h hlt => Nat.lt_succ_of_lt (hlt h)) fun s hs hm => ⟨ts, suffix_refl _, hrest s hs hm⟩
      obtain ⟨u, hu, hm⟩ := matches_percent.mp hm
      exact matches_percent.mpr ⟨u, hu.trans (suffix_cons _ _), hm⟩
    rw [flatten_cons, cons_append, scan, hM.next (hts _ (by simp)) hts', drop_left]
    split_ifs with ha
    swap
    · exact hpass (hfirst a c ts (by simpa using ha))
    obtain ⟨r, hr, hright⟩ := hf ((a :: c) :: ts) (by simp) hts
    rw [flatten_cons, cons_append] at hr
    rw [hr]
    cases r with
    | likeFalse => exact hpass (hright.complete rfl)
    | likeTrue =>
      obtain ⟨hm, hwild⟩ := hright.sound rfl
      exact ⟨_, rfl, fun _ => ⟨matches_percent.mpr ⟨_, suffix_refl _, hm⟩,
        fun h => hwild (hw ▸ h)⟩, fun h => (by cases h), fun _ h => (by cases h)⟩
    | likeAbort =>
      refine yields_abort fun h s hs hm => ?_
      obtain ⟨u, hu, hm⟩ := matches_percent.mp hm
      exact hright.abort (hw ▸ h) rfl u (hu.trans hs) hm

/-! ### The loop -/

theorem matchText_eq (t p : List UInt8) : matchText M t p = matchLoop M t p := by
  unfold matchText
  split
  · next h =>
    subst h
    cases t <;> simp [matchLoop, skipPercents]
  · rfl

section Steps

variable {c d e : UInt8} {t p : List UInt8}

theorem matchLoop_plain (hd : d ∉ special) : matchLoop M (c :: t) (d :: p) =
    if M.tchar d = M.tchar c then matchLoop M t p else .ok .likeFalse := by
  simp only [special, mem_cons, not_mem_nil, or_false, not_or] at hd
  rw [matchLoop.eq_def]
  simp only [if_neg hd.1, if_neg hd.2.1, if_neg hd.2.2, ne_eq, ite_not]

theorem matchLoop_escaped : matchLoop M (c :: t) (92 :: e :: p) =
    if M.tchar e = M.tchar c then matchLoop M t p else .ok .likeFalse := by
  rw [matchLoop.eq_def]
  simp only [reduceIte, ne_eq, ite_not]

theorem matchLoop_underscore :
    matchLoop M (c :: t) (95 :: p) = matchLoop M (t.drop (M.extra c t)) p := by
  rw [matchLoop.eq_def]
  simp +decide only [reduceIte]

theorem matchLoop_percents :
    matchLoop M (c :: t) (37 :: 37 :: p) = matchLoop M (c :: t) (37 :: p) := by
  rw [matchLoop.eq_def, matchLoop.eq_def M (c :: t) (37 :: p)]
  simp +decide only [reduceIte]
  rw [show skipPercents (37 :: p) = skipPercents p from rfl]

theorem matchLoop_percent_first (h37 : d ≠ 37) (h95 : d ≠ 95) (h92 : d = 92 → p ≠ []) :
    matchLoop M (c :: t) (37 :: d :: p) =
      scan M (fun b => M.tchar b == M.tchar (if d = 92 then p.headD 0 else d))
        (fun t => matchLoop M t (d :: p)) (c :: t) := by
  have hskip : skipPercents (d :: p) = d :: p := by simp [skipPercents, h37]
  have h92' : ¬ (d = 92 ∧ p = []) := fun h => h92 h.1 h.2
  rw [matchLoop.eq_def]
  simp +decide only [reduceIte]
  rw [hskip]
  simp only [if_neg h95, if_neg h92']

theorem matchLoop_percent_underscore : matchLoop M (c :: t) (37 :: 95 :: p) =
      if (skipUnderscores M (c :: t) (95 :: p)).2 = [] then .ok .likeTrue
      else scan M (fun _ => true) (fun s => matchLoop M s (skipUnderscores M (c :: t) (95 :: p)).2)
        (skipUnderscores M (c :: t) (95 :: p)).1 := by
  rw [matchLoop.eq_def]
  simp +decide only [reduceIte]
  rw [show skipPercents (95 :: p) = 95 :: p from rfl]
  have hrest := funext fun s => matchText_eq (M := M) s (skipUnderscores M (c :: t) (95 :: p)).2
  simp only [matchText] at hrest
  simp only [reduceIte, hrest]

theorem matchLoop_underscores {c' : UInt8} {t' : List UInt8}
    (ht : t.drop (M.extra c t) = c' :: t') :
    matchLoop M (c :: t) (37 :: 95 :: 95 :: p) = matchLoop M (c' :: t') (37 :: 95 :: p) := by
  have hskip : skipUnderscores M (c :: t) (95 :: 95 :: p) =
      skipUnderscores M (c' :: t') (95 :: p) := by
    rw [skipUnderscores, Macros.nextChar, ht, if_pos ⟨cons_ne_nil _ _, rfl⟩]
  rw [matchLoop_percent_underscore, matchLoop_percent_underscore, hskip]

/-- The last underscore, or the end of the text. -/
theorem matchLoop_underscore_last (h : ¬ (t.drop (M.extra c t) ≠ [] ∧ p.head? = some 95)) :
    matchLoop M (c :: t) (37 :: 95 :: p) = if p = [] then .ok .likeTrue
      else scan M (fun _ => true) (fun s => matchLoop M s p) (t.drop (M.extra c t)) := by
  have hskip : skipUnderscores M (c :: t) (95 :: p) = (t.drop (M.extra c t), p) := if_neg h
  rw [matchLoop_percent_underscore, hskip]

end Steps

/-- Bytes of characters of one length, none of them special. -/
theorem matchLoop_lockstep (t p : List UInt8) : ∀ {c d : List UInt8}, c.length = d.length →
    (∀ x ∈ c, x ∉ special) → matchLoop M (d ++ t) (c ++ p) =
      if c.map M.tchar = d.map M.tchar then matchLoop M t p else .ok .likeFalse
  | [], [], _, _ => by simp
  | x :: c, y :: d, hlen, hc => by
    rw [cons_append, cons_append, matchLoop_plain (hc x (by simp)),
      matchLoop_lockstep t p (Nat.succ.inj hlen) fun z hz => hc z (by simp [hz])]
    by_cases hxy : M.tchar x = M.tchar y <;> simp [hxy]

/-- A character of the pattern against one of the text. -/
theorem matchLoop_char (hM : Charset M IsChar) {e : Bool} {x d : List UInt8}
    (hi : (Item.char e x).Ok IsChar) (hd : IsChar d) (t p : List UInt8) :
    matchLoop M (d ++ t) ((Item.char e x).bytes ++ p) =
      if x.map M.tchar = d.map M.tchar then matchLoop M t p else .ok .likeFalse := by
  obtain ⟨a, x, rfl⟩ := hM.cons hi.1
  obtain ⟨b, d, rfl⟩ := hM.cons hd
  have hstep : matchLoop M (b :: d ++ t) ((Item.char e (a :: x)).bytes ++ p) =
      if M.tchar a = M.tchar b then matchLoop M (d ++ t) (x ++ p) else .ok .likeFalse := by
    cases e with
    | true => exact matchLoop_escaped
    | false => exact matchLoop_plain (hi.2 rfl a rfl)
  rw [hstep]
  by_cases hab : M.tchar a = M.tchar b
  · rw [if_pos hab, matchLoop_lockstep t p (hM.same hi.1 hd hab) (hM.plain hi.1)]
    simp [hab]
  · simp [hab]

/-- The bytes of a character, and the one that `firstpat` is made of. -/
theorem Item.Ok.char_bytes {e : Bool} {b : UInt8} {x : List UInt8}
    (hi : (Item.char e (b :: x)).Ok IsChar) (p : List UInt8) :
    ∃ d q, (Item.char e (b :: x)).bytes ++ p = d :: q ∧ d ≠ 37 ∧ d ≠ 95 ∧ (d = 92 → q ≠ []) ∧
      (if d = 92 then q.headD 0 else d) = b := by
  cases e with
  | true => exact ⟨92, b :: x ++ p, rfl, by decide, by decide, by simp, by simp⟩
  | false =>
    have hb := hi.2 rfl b rfl
    simp only [special, mem_cons, not_mem_nil, or_false, not_or] at hb
    exact ⟨b, x ++ p, rfl, hb.1, hb.2.1, fun h => absurd h hb.2.2, if_neg hb.2.2⟩

theorem Item.Ok.bytes_cons (hM : Charset M IsChar) (hi : i.Ok IsChar) (p : List UInt8) :
    ∃ d q, i.bytes ++ p = d :: q ∧ (d = 37 → i = .percent) ∧ (d = 95 → i = .underscore) := by
  cases i with
  | percent => exact ⟨37, p, rfl, by simp, by simp⟩
  | underscore => exact ⟨95, p, rfl, by simp, by simp⟩
  | char e c =>
    obtain ⟨a, c, rfl⟩ := hM.cons hi.1
    obtain ⟨d, q, h, h37, h95, -⟩ := hi.char_bytes p
    exact ⟨d, q, h, fun h => absurd h h37, fun h => absurd h h95⟩

theorem matchLoop_nil (hM : Charset M IsChar) (hok : ∀ i ∈ is, i.Ok IsChar) :
    Yields M is [] (matchLoop M [] (is.flatMap Item.bytes)) := by
  have hiff : skipPercents (is.flatMap Item.bytes) = [] ↔ ∀ i ∈ is, i = .percent := by
    induction is with
    | nil => exact iff_of_true rfl (forall_mem_nil _)
    | cons i is ih =>
      obtain ⟨hi, his⟩ := forall_mem_cons.mp hok
      by_cases hp : i = .percent
      · subst hp
        rw [forall_mem_cons, ← ih his]
        exact ⟨fun h => ⟨rfl, h⟩, fun h => h.2⟩
      obtain ⟨d, q, hd, h37, -⟩ := hi.bytes_cons hM (is.flatMap Item.bytes)
      refine iff_of_false ?_ fun h => hp (h i (by simp))
      simp [hd, skipPercents, mt h37 hp]
  rw [matchLoop.eq_def]
  simp only
  split_ifs with h
  · exact yields_true (matches_nil_iff.mpr (hiff.mp h)) (wildEnd_of_percents (hiff.mp h))
  refine yields_abort fun _ s hs hm => h (hiff.mpr ?_)
  rw [suffix_nil.mp hs] at hm
  exact matches_nil_iff.mp hm

theorem matchLoop_yields (hM : Charset M IsChar) : ∀ is, (∀ i ∈ is, i.Ok IsChar) → ∀ ts,
    (∀ c ∈ ts, IsChar c) → Yields M is ts (matchLoop M ts.flatten (is.flatMap Item.bytes))
  | is, hok, [], _ => matchLoop_nil hM hok
  | is, hok, c :: ts, hts => by
    obtain ⟨hc, hts'⟩ := forall_mem_cons.mp hts
    obtain ⟨a, c, rfl⟩ := hM.cons hc
    have hnext : (c ++ ts.flatten).drop (M.extra a (c ++ ts.flatten)) = ts.flatten := by
      rw [hM.next hc hts', drop_left]
    match is, hok with
    | [], _ =>
      rw [flatten_cons, flatMap_nil, cons_append, matchLoop]
      exact yields_false fun h => by cases h
    | .underscore :: is, hok =>
      have ih := matchLoop_yields hM is (fun i hi => hok i (by simp [hi])) ts hts'
      rw [← hnext, ← matchLoop_underscore] at ih
      exact ih.cons rfl rfl (fun h => ⟨_, _, rfl, h⟩) fun _ h => h
    | .char e x :: is, hok =>
      have ih := matchLoop_yields hM is (fun i hi => hok i (by simp [hi])) ts hts'
      rw [flatten_cons, flatMap_cons, matchLoop_char hM (hok _ (by simp)) hc]
      split_ifs with hx
      · refine ih.cons rfl rfl (fun h => ⟨_, _, rfl, hx, h⟩) ?_
        rintro _ ⟨d, rest, h, -, hm⟩
        exact ⟨d, rest, h, hm⟩
      refine yields_false ?_
      rintro ⟨_, _, h, hd, -⟩
      cases h
      exact hx hd
    | [.percent], _ =>
      have htrue : matchLoop M (a :: (c ++ ts.flatten)) [37] = .ok .likeTrue := by
        simp [matchLoop, skipPercents]
      exact htrue ▸ yields_true ⟨_, [], append_nil _, rfl⟩ rfl
    | .percent :: .percent :: is, hok =>
      have ih := matchLoop_yields hM (.percent :: is) (fun i hi => hok i (by simp [hi])) _ hts
      have hskip : matchLoop M ((a :: c) :: ts).flatten
          ((Item.percent :: .percent :: is).flatMap Item.bytes) = _ := matchLoop_percents
      rw [hskip]
      exact ih.percents
    | .percent :: .char e x :: is, hok =>
      have hi := hok (.char e x) (by simp)
      have ih := fun s (_ : s ≠ []) => matchLoop_yields hM (.char e x :: is)
        (fun i hi => hok i (mem_cons_of_mem _ hi)) s
      obtain ⟨b, x, rfl⟩ := hM.cons hi.1
      obtain ⟨d, q, hdq, h37, h95, h92, hb⟩ := hi.char_bytes (is.flatMap Item.bytes)
      have hscan : matchLoop M ((a :: c) :: ts).flatten (37 :: d :: q) = _ :=
        matchLoop_percent_first h37 h95 h92
      simp only [flatMap_cons, hdq] at ih
      rw [flatMap_cons, flatMap_cons, hdq, Item.bytes, singleton_append, hscan, hb]
      refine scan_yields hM (by simp) ih (fun a c s ha hm => ?_) _ (by simp) hts
      obtain ⟨d, rest, h, hd, -⟩ := hm
      cases h
      simp [(cons.inj hd).1] at ha
    | .percent :: .underscore :: is, hok =>
      have hok' := fun i (hi : i ∈ is) => hok i (by simp [hi])
      by_cases hu : is.head? = some .underscore ∧ ts ≠ []
      · -- the next underscore
        obtain ⟨is, rfl⟩ := head?_eq_some_iff.mp hu.1
        obtain ⟨c', ts, rfl⟩ := exists_cons_of_ne_nil hu.2
        obtain ⟨a', c', rfl⟩ := hM.cons (hts' c' (by simp))
        have ih := matchLoop_yields hM (.percent :: .underscore :: is)
          (fun i hi => hok i (by simp at hi ⊢; tauto)) _ hts'
        have hpass : matchLoop M ((a :: c) :: (a' :: c') :: ts).flatten
            ((Item.percent :: .underscore :: .underscore :: is).flatMap Item.bytes) = _ :=
          matchLoop_underscores hnext
        rw [hpass]
        exact ih.percent_underscore (by simp)
      cases is with
      | nil =>
        have htrue : matchLoop M (a :: (c ++ ts.flatten)) [37, 95] = .ok .likeTrue :=
          (matchLoop_underscore_last (by simp)).trans (if_pos rfl)
        exact htrue ▸ yields_true (matches_percent_underscore.mpr ⟨_, [], append_nil _, rfl⟩) rfl
      | cons i is =>
        have ih := fun s (_ : s ≠ []) => matchLoop_yields hM (i :: is) hok' s
        obtain ⟨d, q, hd, -, h95⟩ := (hok' i (by simp)).bytes_cons hM (is.flatMap Item.bytes)
        have hscan : matchLoop M (a :: (c ++ ts.flatten)) (37 :: 95 :: d :: q) =
            scan M (fun _ => true) (fun s => matchLoop M s (d :: q)) ts.flatten := by
          rw [matchLoop_underscore_last, if_neg (cons_ne_nil _ _), hnext]
          rintro ⟨hne, heq⟩
          rw [hnext] at hne
          exact hu ⟨congrArg some (h95 (Option.some.inj heq)), fun h => hne (by rw [h]; rfl)⟩
        simp only [flatMap_cons, hd] at ih
        rw [flatten_cons, cons_append, flatMap_cons, flatMap_cons, flatMap_cons, hd, Item.bytes,
          Item.bytes, singleton_append, singleton_append, hscan]
        by_cases hne : ts = []
        swap
        · refine (scan_yields hM (fun h => ?_) ih (fun _ _ _ h => by cases h) ts hne
            hts').percent_underscore hne
          exact hu ⟨congrArg some h, hne⟩
        subst hne
        rw [flatten_nil, scan]
        refine yields_abort fun hw s hs hm => ?_
        cases s with
        | nil => simpa using matches_nil_iff.mp hm
        | cons b s =>
          rw [suffix_nil.mp (suffix_of_cons hs), matches_percent_underscore, matches_nil_iff] at hm
          have hp : Like.percents (i :: is) = true :=
            decide_eq_true ⟨cons_ne_nil _ _, fun j hj => hm j (by simp [hj])⟩
          simp [wildEnd, wildTail, hp] at hw
termination_by is => is.length

/-- The result of `MatchText` tells what the comment above it says. -/
def Exact (M : Macros) (is : List Item) (ts : List (List UInt8))
    (res : Except LikeError Result) : Prop :=
  ∃ r, res = .ok r ∧ (r = .likeTrue ↔ Matches M is ts) ∧
    (r = .likeAbort → ∀ s, s <:+ ts → ¬ Matches M is s)

/-- In every inclusion and for every pattern that does not end in an unpaired backslash, the
results are exact for all texts if and only if the pattern does not end in a percent sign,
underscores and percent signs. -/
theorem like_exact_iff (inc : Inclusion) {is : List Item} (hok : ∀ i ∈ is, i.Ok inc.IsChar) :
    (∀ ts, (∀ c ∈ ts, inc.IsChar c) →
      Exact inc.macros is ts (matchText inc.macros ts.flatten (is.flatMap Item.bytes))) ↔
    wildEnd is = false := by
  have hM := charset inc
  have hyields := matchLoop_yields hM is hok
  simp only [matchText_eq]
  constructor
  · intro hexact
    obtain ⟨hm, hchars⟩ := matches_shortest hM hok
    obtain ⟨r, hr, htrue, -⟩ := hexact _ hchars
    obtain ⟨r', hr', hright⟩ := hyields _ hchars
    cases hr.symm.trans hr'
    exact eq_false_of_ne_true fun hw => lt_irrefl _ ((hright.sound (htrue.mpr hm)).2 hw)
  intro hw ts hts
  obtain ⟨r, hr, hright⟩ := hyields ts hts
  refine ⟨r, hr, ⟨fun h => (hright.sound h).1, fun hm => ?_⟩, hright.abort hw⟩
  cases r with
  | likeTrue => rfl
  | likeFalse => exact absurd hm (hright.complete rfl)
  | likeAbort => exact absurd hm (hright.abort hw rfl ts (suffix_refl _))

theorem like_exact_iff_last_letter :
    Exact Inclusion.singleByte.macros [.percent, .char false [97]] [[98], [97]]
      (matchText Inclusion.singleByte.macros [98, 97] [37, 97]) := by
  refine (like_exact_iff .singleByte ?_).mpr rfl [[98], [97]] (by simp [Inclusion.IsChar])
  simp [Item.Ok, Inclusion.IsChar, special]

/-- One character and `%_%`, which matches every text that is not empty. -/
theorem percent_underscore_percent_aborts :
    matchText Inclusion.singleByte.macros [97] [37, 95, 37] = .ok .likeAbort ∧
      Matches Inclusion.singleByte.macros [.percent, .underscore, .percent] [[97]] := by
  refine ⟨?_, [], [[97]], rfl, [97], [], rfl, [], [], rfl, rfl⟩
  simp [matchText, matchLoop_percent_underscore, skipUnderscores, Macros.nextChar, scan]

end PrlPg.Like
