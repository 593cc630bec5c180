/-
Sets of transactions that share a row lock (access/transam/multixact.c).

A MultiXactId names a set of transaction ids.  Two logs hold the sets: the offsets log says for
each MultiXactId where its members start, and the members log holds the transaction ids.  How
many members there are is not stored: it is the distance to the start of the next MultiXactId.
Ids and offsets are 32-bit counters that wrap around and skip zero.

A creator reserves an id and the space for its members while it holds `MultiXactGenLock`, and
writes the offset and the members afterwards.  Every access to a shared word is one step here,
which allows more interleavings than the page locks of the source do.

The state also carries what the code does not know: the counters as they would be if they never
wrapped around (`vnext`, `onext`), and every set reserved so far under its unwrapped id.
-/
import PrlPg.Access.Transam
import PrlPg.Lib.Run
import Mathlib.Data.List.Sort
import Mathlib.Data.Fintype.Basic

namespace PrlPg.MultiXact

open Mvcc Function

/-! ### Words -/

def uint32 (n : Nat) : Nat := n % 4294967296

/-- The difference of two words. -/
def uint32Sub (a b : Nat) : Nat := (a + 4294967296 - b) % 4294967296

/-- A word read as a signed number. -/
def int32 (n : Nat) : Int := if n < 2147483648 then n else (n : Int) - 4294967296

/-- `FirstMultiXactId`. -/
def firstMultiXactId : Nat := 1

def multiXactIdPrecedes (multi1 multi2 : Nat) : Bool := decide (int32 (uint32Sub multi1 multi2) < 0)

/-- `MULTIXACT_OFFSETS_PER_PAGE` and `MULTIXACT_MEMBERS_PER_PAGE`. -/
def entriesPerPage : Nat := 2048

/-- `ZeroMultiXactOffsetPage` and `ZeroMultiXactMemberPage`. -/
def zeroPage {α : Type} (zero : α) (log : Nat → α) (pageno : Nat) : Nat → α := fun i =>
  if i / entriesPerPage = pageno then zero else log i

/-- The offsets log after `ExtendMultiXactOffset`. -/
def extendMultiXactOffset (offsets : Nat → Nat) (multi : Nat) : Nat → Nat :=
  if multi % entriesPerPage ≠ 0 ∧ multi ≠ firstMultiXactId then offsets
  else zeroPage 0 offsets (multi / entriesPerPage)

/-! ### The cache of a backend -/

structure CacheEntry where
  multi : Nat
  xids : List TransactionId
  vid : Nat
deriving DecidableEq

/-- `qsort` with `xidComparator`. -/
def sortXids (xids : List TransactionId) : List TransactionId :=
  xids.insertionSort fun a b => a.toNat ≤ b.toNat

def mXactCacheGetBySet (cache : List CacheEntry) (xids : List TransactionId) : Option CacheEntry :=
  cache.find? fun entry => decide (entry.xids = xids)

def mXactCacheGetById (cache : List CacheEntry) (multi : Nat) : Option CacheEntry :=
  cache.find? fun entry => decide (entry.multi = multi)

def mXactCachePut (cache : List CacheEntry) (multi : Nat) (xids : List TransactionId)
    (vid : Nat) : List CacheEntry :=
  ⟨multi, sortXids xids, vid⟩ :: cache

/-! ### State -/

/-- A set whose id is reserved: where its members start, and what it was created from. -/
structure Made where
  start : Nat
  args : List TransactionId
deriving DecidableEq

def Made.xids (m : Made) : List TransactionId := sortXids m.args

/-- The slot after the last member. -/
def Made.stop (m : Made) : Nat := m.start + m.xids.length

/-- The local variables of a creator, and the unwrapped id and offset. -/
structure Creation where
  multi : Nat
  offset : Nat
  xids : List TransactionId
  vid : Nat
  start : Nat
  args : List TransactionId
deriving DecidableEq

/-- Where a backend is in `CreateMultiXactId` or in `GetMultiXactIdMembers`. -/
inductive Stage
  | idle
  /-- `GetNewMultiXactId`: the lock is held, and the offsets page is extended next -/
  | extendOffset (args : List TransactionId)
  /-- in the loop of `ExtendMultiXactMember`; `nxids` counts slot 0 if it is left out -/
  | extendMember (c : Creation) (offset : Nat) (nmembers : Int) (nxids : Nat)
  /-- `RecordNewMultiXact`: the offset is written next -/
  | recordOffset (c : Creation)
  /-- in its loop over the members -/
  | recordMember (c : Creation) (i : Nat)
  /-- `GetMultiXactIdMembers`: the counters are read next -/
  | readLimits (multi vid : Nat)
  | readOffset (multi nextMXact nextOffset vid : Nat)
  | readNextOffset (multi nextMXact nextOffset offset vid : Nat)
  /-- in its loop over the members -/
  | readMember (multi offset : Nat) (length : Int) (ptr : List TransactionId) (vid : Nat)
deriving DecidableEq

/-- The unwrapped id a backend is reading or recording. -/
def Stage.vid? : Stage → Option Nat
  | idle => none
  | extendOffset _ => none
  | extendMember _ _ _ _ => none
  | recordOffset c => some c.vid
  | recordMember c _ => some c.vid
  | readLimits _ vid => some vid
  | readOffset _ _ _ vid => some vid
  | readNextOffset _ _ _ _ vid => some vid
  | readMember _ _ _ _ vid => some vid

structure Backend where
  stage : Stage
  cache : List CacheEntry
  oldestVisibleMXactId : Nat
deriving DecidableEq

/-- What a call of `GetMultiXactIdMembers` returned; `none` stands for -1. -/
structure Answer where
  vid : Nat
  oldestVisibleMXactId : Nat
  result : Option (List TransactionId)
deriving DecidableEq

/-- The two logs, and the account of what was reserved and written that goes with them. -/
structure Logs where
  offsets : Nat → Nat
  members : Nat → TransactionId
  vnext : Nat
  onext : Nat
  made : Nat → Option Made
  /-- whose offset is written, and whose creation is finished -/
  offsetDone : Nat → Bool
  membersDone : Nat → Bool
  /-- the oldest id that is still live, and the oldest slot -/
  oldest : Nat
  oldestStart : Nat

structure State (B : Type) where
  nextMXact : Nat
  nextOffset : Nat
  multiXactGenLock : Option B
  logs : Logs
  backend : B → Backend
  answers : List Answer

variable {B : Type} [DecidableEq B]

variable (s : State B)

namespace State

def setStage (b : B) (stage : Stage) : State B :=
  { s with backend := update s.backend b { s.backend b with stage := stage } }

def cachePut (b : B) (multi : Nat) (xids : List TransactionId) (vid : Nat) :
    State B :=
  { s with
    backend := update s.backend b
      { s.backend b with cache := mXactCachePut (s.backend b).cache multi xids vid } }

/-- `GetMultiXactIdMembers` returns. -/
def answer (b : B) (vid : Nat) (result : Option (List TransactionId)) : State B :=
  { s.setStage b .idle with
    answers := ⟨vid, (s.backend b).oldestVisibleMXactId, result⟩ :: s.answers }

end State

/-- The next value of a counter that skips the words that are zero. -/
def skipZero (n : Nat) : Nat := if n % 4294967296 = 0 then n + 1 else n

/-! ### Creating -/

/-- The start of `GetNewMultiXactId`: the lock is taken and the counter leaves out zero. -/
def beginCreate (b : B) (args : List TransactionId) : State B :=
  { s.setStage b (.extendOffset args) with
    multiXactGenLock := some b
    nextMXact := if s.nextMXact < firstMultiXactId then firstMultiXactId else s.nextMXact }

def extendOffsetStep (b : B) (args : List TransactionId) : State B :=
  let xids := sortXids args
  let offset := if s.nextOffset = 0 then 1 else s.nextOffset
  let nxids := if s.nextOffset = 0 then xids.length + 1 else xids.length
  let c : Creation :=
    ⟨s.nextMXact, offset, xids, skipZero s.logs.vnext, skipZero s.logs.onext, args⟩
  { s.setStage b (.extendMember c s.nextOffset nxids nxids) with
    logs := { s.logs with offsets := extendMultiXactOffset s.logs.offsets s.nextMXact } }

/-- One round of the loop of `ExtendMultiXactMember`. -/
def extendMemberStep (b : B) (c : Creation) (offset : Nat) (nmembers : Int)
    (nxids : Nat) : State B :=
  let entryno := offset % entriesPerPage
  { s.setStage b (.extendMember c (uint32 (offset + (entriesPerPage - entryno)))
      (nmembers - (entriesPerPage - entryno : Nat)) nxids) with
    logs :=
      { s.logs with
        members := if entryno = 0 then zeroPage 0#32 s.logs.members (offset / entriesPerPage)
          else s.logs.members } }

/-- The counters are advanced and the lock is released. -/
def endReserve (b : B) (c : Creation) (nxids : Nat) : State B :=
  { s.setStage b (.recordOffset c) with
    nextMXact := uint32 (s.nextMXact + 1)
    nextOffset := uint32 (s.nextOffset + nxids)
    multiXactGenLock := none
    logs :=
      { s.logs with
        vnext := c.vid + 1
        onext := c.start + c.xids.length
        made := update s.logs.made c.vid (some ⟨c.start, c.args⟩) } }

def recordOffsetStep (b : B) (c : Creation) : State B :=
  { s.setStage b (.recordMember c 0) with
    logs :=
      { s.logs with
        offsets := update s.logs.offsets c.multi c.offset
        offsetDone := update s.logs.offsetDone c.vid true } }

def recordMemberStep (b : B) (c : Creation) (i : Nat) (xid : TransactionId) :
    State B :=
  { s.setStage b (.recordMember c (i + 1)) with
    logs := { s.logs with members := update s.logs.members (uint32 (c.offset + i)) xid } }

/-- `CreateMultiXactId` is done: the set goes to the cache of its creator. -/
def endCreate (b : B) (c : Creation) : State B :=
  { (s.setStage b .idle).cachePut b c.multi c.xids c.vid with
    logs := { s.logs with membersDone := update s.logs.membersDone c.vid true } }

/-! ### Reading -/

def readLimitsStep (b : B) (multi vid : Nat) : State B :=
  if !multiXactIdPrecedes multi s.nextMXact then s.answer b vid none
  else s.setStage b (.readOffset multi s.nextMXact s.nextOffset vid)

def readNextOffsetStep (b : B) (multi nextMXact nextOffset offset vid : Nat) :
    State B :=
  let tmpMXact := uint32 (multi + 1)
  if nextMXact = tmpMXact then
    -- there is no next one
    s.setStage b (.readMember multi offset (int32 (uint32Sub nextOffset offset)) [] vid)
  else
    let tmpMXact := if tmpMXact < firstMultiXactId then firstMultiXactId else tmpMXact
    let nextMXOffset := s.logs.offsets tmpMXact
    -- zero: the next one is still being filled in
    if nextMXOffset = 0 then s.setStage b (.readOffset multi nextMXact nextOffset vid)
    else s.setStage b (.readMember multi offset (int32 (uint32Sub nextMXOffset offset)) [] vid)

def readMemberStep (b : B) (multi offset : Nat) (length : Int)
    (ptr : List TransactionId) (vid : Nat) : State B :=
  if 0 < length then
    let xact := s.logs.members offset
    -- an invalid one is the unused slot zero
    let ptr := if !transactionIdIsValid xact then ptr else ptr ++ [xact]
    s.setStage b (.readMember multi (uint32 (offset + 1)) (length - 1) ptr vid)
  else (s.cachePut b multi ptr vid).answer b vid (some ptr)

/-! ### The system -/

inductive Event (B : Type)
  | create (b : B) (args : List TransactionId)
  | ask (b : B) (vid : Nat)
  /-- the next step of the call a backend is in -/
  | go (b : B)
  | setOldestVisible (b : B) (multi : Nat)
  | endTransaction (b : B)
  /-- ids before this one are no longer of interest to anybody; the logs stay as they are -/
  | retire (oldest : Nat)
deriving DecidableEq

/-- The step a backend takes next. -/
def go (b : B) : Option (State B) :=
  match (s.backend b).stage with
  | .idle => none
  | .extendOffset args => some (extendOffsetStep s b args)
  | .extendMember c offset nmembers nxids =>
    some (if 0 < nmembers then extendMemberStep s b c offset nmembers nxids
      else endReserve s b c nxids)
  | .recordOffset c => some (recordOffsetStep s b c)
  | .recordMember c i =>
    match c.xids[i]? with
    | some xid => some (recordMemberStep s b c i xid)
    | none => some (endCreate s b c)
  | .readLimits multi vid =>
    if s.multiXactGenLock.isSome then none else some (readLimitsStep s b multi vid)
  | .readOffset multi nextMXact nextOffset vid =>
    some (s.setStage b (.readNextOffset multi nextMXact nextOffset (s.logs.offsets multi) vid))
  | .readNextOffset multi nextMXact nextOffset offset vid =>
    some (readNextOffsetStep s b multi nextMXact nextOffset offset vid)
  | .readMember multi offset length ptr vid => some (readMemberStep s b multi offset length ptr vid)

/-- `CreateMultiXactId`, up to taking the lock. -/
def create (b : B) (args : List TransactionId) : Option (State B) :=
  if (s.backend b).stage ≠ .idle ∨ !args.all transactionIdIsValid then none
  else if (mXactCacheGetBySet (s.backend b).cache (sortXids args)).isSome then some s
  else if s.multiXactGenLock.isSome then none
  -- fewer than 2^31 ids, and fewer than 2^31 slots, from the oldest to the newest
  else if s.logs.oldest + 2147483648 ≤ skipZero s.logs.vnext ∨
      s.logs.oldestStart + 2147483648 ≤ skipZero s.logs.onext + args.length then none
  else some (beginCreate s b args)

/-- `GetMultiXactIdMembers` is called for a live id whose creator is done. -/
def ask (b : B) (vid : Nat) : Option (State B) :=
  if (s.backend b).stage ≠ .idle ∨ vid < s.logs.oldest then none
  else if !s.logs.membersDone vid then none
  else
    match mXactCacheGetById (s.backend b).cache (uint32 vid) with
    | some entry => some (s.answer b vid (some entry.xids))
    | none =>
      if multiXactIdPrecedes (uint32 vid) (s.backend b).oldestVisibleMXactId then
        some (s.answer b vid none)
      else some (s.setStage b (.readLimits (uint32 vid) vid))

/-- No backend is busy with an id before `oldest`, or has one in its cache. -/
def Unused (oldest : Nat) : Prop :=
  ∀ b, (∀ v ∈ (s.backend b).stage.vid?, oldest ≤ v) ∧ ∀ e ∈ (s.backend b).cache, oldest ≤ e.vid

instance [Fintype B] (s : State B) (oldest : Nat) : Decidable (Unused s oldest) := by
  unfold Unused
  infer_instance

def retire [Fintype B] (s : State B) (oldest : Nat) : Option (State B) :=
  if oldest < s.logs.oldest ∨ ¬ Unused s oldest then none
  else if oldest = s.logs.vnext then
    some { s with logs := { s.logs with oldest := oldest, oldestStart := s.logs.onext } }
  else
    match s.logs.made oldest with
    | none => none
    | some m => some { s with logs := { s.logs with oldest := oldest, oldestStart := m.start } }

def step [Fintype B] (s : State B) : Event B → Option (State B)
  | .create b args => create s b args
  | .ask b vid => ask s b vid
  | .go b => go s b
  | .setOldestVisible b multi =>
    if (s.backend b).stage ≠ .idle then none
    else
      some { s with
        backend := update s.backend b
          { s.backend b with oldestVisibleMXactId := multi } }
  | .endTransaction b =>
    if (s.backend b).stage ≠ .idle then none
    else some { s with backend := update s.backend b { s.backend b with cache := [] } }
  | .retire oldest => retire s oldest

/-- No id was given out, and the logs hold anything at all. -/
structure Start (s : State B) : Prop where
  nextMXact : s.nextMXact = firstMultiXactId
  nextOffset : s.nextOffset = 0
  genLock : s.multiXactGenLock = none
  stage : ∀ b, (s.backend b).stage = .idle
  cache : ∀ b, (s.backend b).cache = []
  answers : s.answers = []
  vnext : s.logs.vnext = 1
  onext : s.logs.onext = 0
  made : ∀ v, s.logs.made v = none
  offsetDone : ∀ v, s.logs.offsetDone v = false
  membersDone : ∀ v, s.logs.membersDone v = false
  oldest : s.logs.oldest = 1
  oldestStart : s.logs.oldestStart = 0

end PrlPg.MultiXact
