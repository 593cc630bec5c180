/-
LIKE matching (utils/adt/like.c and like_match.c).

like.c includes like_match.c four times; the inclusions differ in the macros `NextChar` and
`TCHAR`.  A string is the list of its bytes, so that `tlen > 0` is `t ≠ []`.
-/
import Mathlib.Data.UInt

namespace PrlPg.Like

/-- The macros of one inclusion. -/
structure Macros where
  /-- how many bytes `NextChar` passes over after the first -/
  extra : UInt8 → List UInt8 → Nat
  tchar : UInt8 → UInt8

def Macros.nextChar (M : Macros) : List UInt8 → List UInt8
  | [] => []
  | c :: t => t.drop (M.extra c t)

/-- The inclusions: `SB_MatchText`, `UTF8_MatchText`, `MB_MatchText` and `SB_IMatchText`.  What
`pg_mblen` gives for a byte that is not ASCII is up to the encoding. -/
inductive Inclusion
  | singleByte
  | utf8
  | multiByte (wide : UInt8 → Nat)
  | caseFolded (tolower : UInt8 → UInt8)

/-- `IS_HIGHBIT_SET` is not set for ASCII, where every encoding has one byte. -/
def mblen (wide : UInt8 → Nat) (c : UInt8) : Nat := if c < 128 then 1 else wide c

/-- `pg_utf_mblen`. -/
def pgUtfMblen (c : UInt8) : Nat :=
  if c &&& 0x80 = 0 then 1
  else if c &&& 0xE0 = 0xC0 then 2
  else if c &&& 0xF0 = 0xE0 then 3
  else if c &&& 0xF8 = 0xF0 then 4
  else 1

def isContinuation (c : UInt8) : Bool := c &&& 0xC0 == 0x80

def Inclusion.macros : Inclusion → Macros
  | singleByte => ⟨fun _ _ => 0, id⟩
  | utf8 => ⟨fun _ t => (t.takeWhile isContinuation).length, id⟩
  | multiByte wide => ⟨fun c _ => mblen wide c - 1, id⟩
  | caseFolded tolower => ⟨fun _ _ => 0, tolower⟩

inductive Result
  | likeTrue
  | likeFalse
  | likeAbort
  deriving DecidableEq, Repr

inductive LikeError
  /-- `ERRCODE_INVALID_ESCAPE_SEQUENCE`, "LIKE pattern must not end with escape character" -/
  | invalidEscapeSequence
  deriving DecidableEq, Repr

/-- `while (plen > 0 && *p == '%') NextByte(p, plen)`. -/
def skipPercents (p : List UInt8) : List UInt8 := p.dropWhile (· == 37)

/-- The `do` loop over the underscores after a percent sign. -/
def skipUnderscores (M : Macros) : List UInt8 → List UInt8 → List UInt8 × List UInt8
  | t, [] => (t, [])
  | t, _ :: p =>
    if M.nextChar t ≠ [] ∧ p.head? = some 95 then skipUnderscores M (M.nextChar t) p
    else (M.nextChar t, p)

/-- The loops that look for a place that matches the rest of the pattern, `LIKE_ABORT` at the
end of the text; `first` is the test of the first byte. -/
def scan (M : Macros) (first : UInt8 → Bool) (match_ : List UInt8 → Except LikeError Result) :
    List UInt8 → Except LikeError Result
  | [] => .ok .likeAbort
  | c :: t =>
    if first c then
      match match_ (c :: t) with
      | .ok .likeFalse => scan M first match_ (t.drop (M.extra c t))
      | r => r
    else scan M first match_ (t.drop (M.extra c t))
termination_by t => t.length
decreasing_by all_goals simp only [List.length_drop, List.length_cons]; omega

theorem length_skipPercents (p : List UInt8) : (skipPercents p).length ≤ p.length :=
  (List.dropWhile_suffix _).length_le

theorem length_skipUnderscores (M : Macros) (c : UInt8) (p : List UInt8) :
    ∀ t, (skipUnderscores M t (c :: p)).2.length ≤ p.length := by
  induction p generalizing c with
  | nil => intro t; simp [skipUnderscores]
  | cons d p ih =>
    intro t
    rw [skipUnderscores]
    split
    · exact (ih d _).trans (Nat.le_succ _)
    · exact le_rfl

/-- The loop of `MatchText` and what follows it. -/
def matchLoop (M : Macros) (t p : List UInt8) : Except LikeError Result :=
  match t, p with
  | [], p => .ok (if skipPercents p = [] then .likeTrue else .likeAbort)
  | _ :: _, [] => .ok .likeFalse
  | c :: t, d :: p =>
    if d = 92 then
      match p with
      | [] => .error .invalidEscapeSequence
      | e :: p => if M.tchar e ≠ M.tchar c then .ok .likeFalse else matchLoop M t p
    else if d = 37 then
      match _hp : skipPercents p with
      | [] => .ok .likeTrue
      | e :: q =>
        if e = 95 then
          let r := skipUnderscores M (c :: t) (e :: q)
          if r.2 = [] then .ok .likeTrue
          else
            scan M (fun _ => true)
              (fun t => if r.2 = [37] then .ok .likeTrue else matchLoop M t r.2) r.1
        else if e = 92 ∧ q = [] then .ok .likeFalse
        else
          let firstpat := M.tchar (if e = 92 then q.headD 0 else e)
          -- the rest is not a single percent sign
          scan M (fun b => M.tchar b == firstpat) (fun t => matchLoop M t (e :: q)) (c :: t)
    else if d = 95 then matchLoop M (t.drop (M.extra c t)) p
    else if M.tchar d ≠ M.tchar c then .ok .likeFalse
    else matchLoop M t p
termination_by p.length
decreasing_by
  all_goals simp only [List.length_cons]
  · omega
  · have hlen := congrArg List.length _hp ▸ length_skipPercents p
    simp only [List.length_cons] at hlen
    exact Nat.lt_succ_of_le ((length_skipUnderscores M e q _).trans (by omega))
  · have hlen := congrArg List.length _hp ▸ length_skipPercents p
    simp only [List.length_cons] at hlen
    omega
  · omega
  · omega

def matchText (M : Macros) (t p : List UInt8) : Except LikeError Result :=
  if p = [37] then .ok .likeTrue else matchLoop M t p

end PrlPg.Like
