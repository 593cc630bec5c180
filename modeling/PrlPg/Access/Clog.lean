/-
The commit log (access/transam/clog.c) and the questions asked of it (transam.c).

A page of the log holds two bits for each of 32768 consecutive transaction ids.  All the ids of
one page are marked under one exclusive hold of `CLogControlLock`, and one id is read under one
shared hold, so a page's marking is one step and a read is one step.  A transaction tree that
lies on several pages is marked in several steps, and a question about a subtransaction may take
several reads: one for each level of the tree it climbs.

The system below has one backend that marks its tree committed, and any number of others that
ask `TransactionIdDidCommit` and `TransactionIdDidAbort`, each through its own one-entry cache.
-/
import PrlPg.Access.Transam
import PrlPg.Lib.Run

namespace PrlPg.CommitLog

open Mvcc

inductive XidStatus
  | inProgress | committed | aborted | subCommitted
deriving DecidableEq, Repr

namespace XidStatus

/-- The two bits that stand for a status. -/
def bits : XidStatus → BitVec 8
  | inProgress => 0x00#8
  | committed => 0x01#8
  | aborted => 0x02#8
  | subCommitted => 0x03#8

def ofBits (b : BitVec 8) : XidStatus :=
  if b = 0x01#8 then committed
  else if b = 0x02#8 then aborted
  else if b = 0x03#8 then subCommitted
  else inProgress

end XidStatus

/-! ### Pages -/

/-- `CLOG_XACTS_PER_PAGE`. -/
def clogXactsPerPage : Nat := 32768

/-- `CLOG_XACTS_PER_BYTE`. -/
def clogXactsPerByte : Nat := 4

def transactionIdToPage (xid : TransactionId) : Nat := xid.toNat / clogXactsPerPage

def transactionIdToByte (xid : TransactionId) : Nat :=
  xid.toNat % clogXactsPerPage / clogXactsPerByte

def transactionIdToBIndex (xid : TransactionId) : Nat := xid.toNat % clogXactsPerByte

/-- The bytes of the log, by page and by position in the page. -/
abbrev Pages := Nat → Nat → BitVec 8

/-- The byte with the status of the id in position `bIndex` replaced. -/
def setBits (byteval : BitVec 8) (bIndex : Nat) (status : XidStatus) : BitVec 8 :=
  (byteval &&& ~~~ (0x03#8 <<< (bIndex * 2))) ||| (status.bits <<< (bIndex * 2))

def getBits (byteval : BitVec 8) (bIndex : Nat) : XidStatus :=
  XidStatus.ofBits ((byteval >>> (bIndex * 2)) &&& 0x03#8)

def transactionIdSetStatusBit (pages : Pages) (xid : TransactionId) (status : XidStatus) :
    Pages := fun page byte =>
  if page = transactionIdToPage xid ∧ byte = transactionIdToByte xid then
    setBits (pages page byte) (transactionIdToBIndex xid) status
  else pages page byte

def transactionIdGetStatus (pages : Pages) (xid : TransactionId) : XidStatus :=
  getBits (pages (transactionIdToPage xid) (transactionIdToByte xid)) (transactionIdToBIndex xid)

/-! ### Marking a tree -/

/-- The arguments of one call of `TransactionIdSetPageStatus`. -/
structure PageUpdate where
  xid : TransactionId
  subxids : List TransactionId
  status : XidStatus
deriving DecidableEq, Repr

def setStatusBits (pages : Pages) (xids : List TransactionId) (status : XidStatus) : Pages :=
  xids.foldl (fun pages xid => transactionIdSetStatusBit pages xid status) pages

def transactionIdSetPageStatus (pages : Pages) (u : PageUpdate) : Pages :=
  let pages :=
    if transactionIdIsValid u.xid then
      let pages :=
        if u.status = .committed then setStatusBits pages u.subxids .subCommitted else pages
      transactionIdSetStatusBit pages u.xid u.status
    else pages
  setStatusBits pages u.subxids u.status

/-- The calls `set_status_by_pages` makes: one for each stretch of ids on one page. -/
def setStatusByPages (subxids : List TransactionId) (status : XidStatus) : List PageUpdate :=
  (subxids.splitBy fun a b => transactionIdToPage a == transactionIdToPage b).map fun chunk =>
    ⟨invalidTransactionId, chunk, status⟩

/-- The subtransactions before the first that is not on the page of the parent. -/
def onFirstPage (xid : TransactionId) (subxids : List TransactionId) : List TransactionId :=
  subxids.takeWhile fun sub => transactionIdToPage sub == transactionIdToPage xid

def onOtherPages (xid : TransactionId) (subxids : List TransactionId) : List TransactionId :=
  subxids.dropWhile fun sub => transactionIdToPage sub == transactionIdToPage xid

/-- The calls of `TransactionIdSetPageStatus` that `TransactionIdSetTreeStatus` makes, in order. -/
def transactionIdSetTreeStatus (xid : TransactionId) (subxids : List TransactionId)
    (status : XidStatus) : List PageUpdate :=
  if (onOtherPages xid subxids).isEmpty then [⟨xid, subxids, status⟩]
  else
    (if status = .committed then setStatusByPages (onOtherPages xid subxids) .subCommitted
      else []) ++
    ⟨xid, onFirstPage xid subxids, status⟩ :: setStatusByPages (onOtherPages xid subxids) status

/-! ### Asking for a status -/

/-- The two questions of transam.c. -/
inductive Question
  | didCommit | didAbort
deriving DecidableEq, Repr

/-- A question under way: the id asked about, the one reached, and when it was asked. -/
structure Call where
  question : Question
  xid : TransactionId
  current : TransactionId
  -- the status of `current` was sub-committed, and its parent is looked up next
  climbing : Bool
  started : Nat
deriving DecidableEq, Repr

/-- A question that was answered. -/
structure Answer where
  question : Question
  xid : TransactionId
  started : Nat
  ended : Nat
  value : Bool
deriving DecidableEq, Repr

/-- What a backend that asks keeps in its own memory. -/
structure Reader where
  cachedFetchXid : TransactionId
  cachedFetchXidStatus : XidStatus
  transactionXmin : TransactionId
  call : Option Call
deriving DecidableEq, Repr

def bootstrapTransactionId : TransactionId := 1#32

def frozenTransactionId : TransactionId := 2#32

/-- `TransactionLogFetch`: the status, and the cache afterwards. -/
def transactionLogFetch (pages : Pages) (r : Reader) (xid : TransactionId) : XidStatus × Reader :=
  if xid = r.cachedFetchXid then (r.cachedFetchXidStatus, r)
  else if !transactionIdIsNormal xid then
    if xid = bootstrapTransactionId then (.committed, r)
    else if xid = frozenTransactionId then (.committed, r)
    else (.aborted, r)
  else
    let xidstatus := transactionIdGetStatus pages xid
    if xidstatus ≠ .inProgress ∧ xidstatus ≠ .subCommitted then
      (xidstatus, { r with cachedFetchXid := xid, cachedFetchXidStatus := xidstatus })
    else (xidstatus, r)

/-- What a call returns for a transaction with this final status. -/
def Question.onFinal : Question → XidStatus → Bool
  | didCommit, status => decide (status = .committed)
  | didAbort, status => decide (status = .aborted)

/-- What a call returns for a sub-committed transaction whose parent is not to be found. -/
def Question.onLost : Question → Bool
  | didCommit => false
  | didAbort => true

/--
How far a call gets with the status it fetched: it returns a value, or (`none`) it goes on to
the parent of a sub-committed transaction.
-/
def afterFetch (question : Question) (status : XidStatus) (xid xmin : TransactionId) :
    Option Bool :=
  if status = .subCommitted then
    if transactionIdPrecedes xid xmin then some question.onLost else none
  else some (question.onFinal status)

/-! ### The system -/

/--
A transaction tree, with what pg_subtrans says about it.  The list is in the order in which the
subtransactions got their ids, so the parent of each stands before it.
-/
structure Tree where
  top : TransactionId
  subs : List TransactionId
  subTransGetParent : TransactionId → TransactionId
  normal : ∀ x ∈ top :: subs, transactionIdIsNormal x = true
  top_notMem : top ∉ subs
  parent_mem : ∀ before x after, subs = before ++ x :: after → subTransGetParent x ∈ top :: before

def Tree.members (t : Tree) : List TransactionId := t.top :: t.subs

structure State (R : Type) where
  pages : Pages
  /-- the pages the committing backend has still to mark -/
  todo : List PageUpdate
  reader : R → Reader
  /-- how many steps were taken -/
  clock : Nat
  answers : List Answer

inductive Event (R : Type)
  /-- the committing backend marks its next page -/
  | mark
  /-- somebody marks a transaction that is not in the tree -/
  | other (xid : TransactionId) (status : XidStatus)
  | ask (r : R) (question : Question) (xid : TransactionId)
  | fetch (r : R)
  | climb (r : R)
  /-- a backend takes a snapshot between two calls, which may move its `TransactionXmin` -/
  | snapshot (r : R) (xmin : TransactionId)
deriving DecidableEq, Repr

variable {R : Type} [DecidableEq R]

def State.setReader (s : State R) (r : R) (rd : Reader) : State R :=
  { s with reader := Function.update s.reader r rd }

/-- The call returns. -/
def State.answer (s : State R) (r : R) (rd : Reader) (c : Call) (value : Bool) : State R :=
  { s.setReader r { rd with call := none } with
    answers := ⟨c.question, c.xid, c.started, s.clock, value⟩ :: s.answers }

/-- One status is fetched and looked at. -/
def fetchStep (s : State R) (r : R) (c : Call) : State R :=
  let p := transactionLogFetch s.pages (s.reader r) c.current
  match afterFetch c.question p.1 c.current p.2.transactionXmin with
  | some value => s.answer r p.2 c value
  | none => s.setReader r { p.2 with call := some { c with climbing := true } }

/-- The parent of a sub-committed transaction is looked up, and the question is asked of it. -/
def climbStep (t : Tree) (s : State R) (r : R) (c : Call) : State R :=
  let parentXid := t.subTransGetParent c.current
  if !transactionIdIsValid parentXid then s.answer r (s.reader r) c c.question.onLost
  else
    s.setReader r
      { s.reader r with call := some { c with current := parentXid, climbing := false } }

def act (t : Tree) (s : State R) : Event R → Option (State R)
  | .mark =>
    match s.todo with
    | [] => none
    | u :: us => some { s with pages := transactionIdSetPageStatus s.pages u, todo := us }
  | .other xid status =>
    if xid ∈ t.members then none
    else some { s with pages := transactionIdSetStatusBit s.pages xid status }
  | .ask r question xid =>
    if (s.reader r).call.isSome then none
    else
      some (s.setReader r { s.reader r with call := some ⟨question, xid, xid, false, s.clock⟩ })
  | .fetch r =>
    match (s.reader r).call with
    | none => none
    | some c => if c.climbing then none else some (fetchStep s r c)
  | .climb r =>
    match (s.reader r).call with
    | none => none
    | some c => if c.climbing then some (climbStep t s r c) else none
  | .snapshot r xmin =>
    if (s.reader r).call.isSome then none
    -- the tree leaves the process array only after it is marked, and until then no snapshot has
    -- an xmin that is after one of its ids
    else if s.todo ≠ [] ∧ t.members.any (fun x => transactionIdPrecedes x xmin) then none
    else some (s.setReader r { s.reader r with transactionXmin := xmin })

def State.tick (s : State R) : State R := { s with clock := s.clock + 1 }

def step (t : Tree) (s : State R) (e : Event R) : Option (State R) := (act t s e).map State.tick

/--
The tree is about to be marked: it is in progress, in the process array (no `TransactionXmin` is
after any of its ids), and nobody has a status of it in its cache.
-/
structure Start (t : Tree) (s : State R) : Prop where
  pages : ∀ x ∈ t.members, transactionIdGetStatus s.pages x = .inProgress
  todo : s.todo = transactionIdSetTreeStatus t.top t.subs .committed
  cache : ∀ r, (s.reader r).cachedFetchXid ∉ t.members
  idle : ∀ r, (s.reader r).call = none
  xmin : ∀ r, ∀ x ∈ t.members, transactionIdPrecedes x (s.reader r).transactionXmin = false
  answers : s.answers = []

end PrlPg.CommitLog
