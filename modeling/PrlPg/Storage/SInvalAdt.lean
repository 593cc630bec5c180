/-
The shared cache-invalidation queue (storage/ipc/sinvaladt.c).

Messages go into a ring of `MAXNUMMESSAGES` cells and are read by every backend at its own
pace.  The counters are `int`s that run freely, and are lowered together when they get
large.  Two lightweight locks are used.  `SInvalWriteLock` is held by whoever inserts,
cleans up, registers or leaves; `SInvalReadLock` is held shared by the readers, each of
which changes its own `nextMsgNum`, and exclusively by `SICleanupQueue`.  A writer does not
take the read lock, so messages are written while others are being read.

What happens under both locks is one step.  What happens under one of them is cut into its
accesses to shared memory: a step of an inserting backend writes one cell or publishes
`maxMsgNum`, a step of a reading backend fetches `maxMsgNum` or takes one message.

`nextLXID` is kept in the same array but has nothing to do with the queue; it is left out.
-/
import PrlPg.Lib.Run

namespace PrlPg.SInval

variable {α : Type*}

def maxNumMessages : Nat := 4096

def msgNumWrapAround : Nat := maxNumMessages * 262144

def cleanupMin : Nat := maxNumMessages / 2

def cleanupQuantum : Nat := maxNumMessages / 16

def sigThreshold : Nat := maxNumMessages / 2

def writeQuantum : Nat := 64

/-- What the segment has about one backend; `procPid` is zero in an unused entry. -/
structure ProcState where
  procPid : Nat := 0
  nextMsgNum : Int := 0
  resetState : Bool := false
  signaled : Bool := false
  sendOnly : Bool := false
  deriving DecidableEq, Repr

/-- The shared segment.  A cell of the ring is `none` until it is first written. -/
structure SISeg (α : Type*) where
  minMsgNum : Int
  maxMsgNum : Int
  nextThreshold : Int
  lastBackend : Nat
  maxBackends : Nat
  buffer : Nat → Option α
  procState : Nat → ProcState

variable (segP : SISeg α)

namespace SISeg

/-- Change the entry of one backend. -/
def modifyProc (i : Nat) (f : ProcState → ProcState) : SISeg α :=
  { segP with procState := Function.update segP.procState i (f (segP.procState i)) }

/-- The cell a message number stands for. -/
def slot (msgNum : Int) : Nat := (msgNum % maxNumMessages).toNat

end SISeg

/-- The segment as it is set up, with `maxBackends` entries. -/
def createSharedInvalidationState (maxBackends : Nat) : SISeg α :=
  { minMsgNum := 0, maxMsgNum := 0, nextThreshold := cleanupMin, lastBackend := 0,
    maxBackends := maxBackends, buffer := fun _ => none, procState := fun _ => {} }

/-- Take the first unused entry, or a new one at the end.  `none` is the `FATAL` report
that there are too many clients. -/
def sharedInvalBackendInit (pid : Nat) (sendOnly : Bool) :
    Option (Nat × SISeg α) :=
  let register (segP : SISeg α) (i : Nat) : Nat × SISeg α :=
    (i, segP.modifyProc i fun _ =>
      { procPid := pid, nextMsgNum := segP.maxMsgNum, resetState := false, signaled := false,
        sendOnly := sendOnly })
  match (List.range segP.lastBackend).find? fun i => (segP.procState i).procPid = 0 with
  | some i => some (register segP i)
  | none =>
    if segP.lastBackend < segP.maxBackends then
      some (register { segP with lastBackend := segP.lastBackend + 1 } segP.lastBackend)
    else none

/-- The largest `i ≤ n` such that entry `i - 1` is in use; zero when there is none. -/
def lastActive (procState : Nat → ProcState) : Nat → Nat
  | 0 => 0
  | n + 1 => if (procState n).procPid ≠ 0 then n + 1 else lastActive procState n

/-- Give the entry back.  `sendOnly` keeps its value. -/
def cleanupInvalidationState (i : Nat) : SISeg α :=
  let segP := segP.modifyProc i fun stateP =>
    { stateP with procPid := 0, nextMsgNum := 0, resetState := false, signaled := false }
  { segP with lastBackend := lastActive segP.procState segP.lastBackend }

/-! ### Cleaning up -/

/-- The variables of the loop of `SICleanupQueue` over the backends. -/
structure Sweep where
  min : Int
  minsig : Int
  needSig : Option Nat
  procState : Nat → ProcState

/-- One turn of the loop. -/
def Sweep.visit (lowbound : Int) (sw : Sweep) (i : Nat) : Sweep :=
  let stateP := sw.procState i
  let n := stateP.nextMsgNum
  if stateP.procPid = 0 ∨ stateP.resetState ∨ stateP.sendOnly then sw
  else if n < lowbound then
    { sw with procState := Function.update sw.procState i { stateP with resetState := true } }
  else
    let sw := { sw with min := if n < sw.min then n else sw.min }
    if n < sw.minsig ∧ ¬ stateP.signaled then { sw with minsig := n, needSig := some i } else sw

/-- The loop, from the first entry to the last. -/
def sweep (minFree : Nat) : Sweep :=
  (List.range segP.lastBackend).foldl (Sweep.visit (segP.maxMsgNum - maxNumMessages + minFree))
    { min := segP.maxMsgNum, minsig := segP.maxMsgNum - sigThreshold, needSig := none,
      procState := segP.procState }

/-- Lower every counter once `minMsgNum` has got large, unused entries included. -/
def rebase : SISeg α :=
  if segP.minMsgNum ≥ msgNumWrapAround then
    { segP with
      minMsgNum := segP.minMsgNum - msgNumWrapAround
      maxMsgNum := segP.maxMsgNum - msgNumWrapAround
      procState := fun i =>
        if i < segP.lastBackend then
          { segP.procState i with
            nextMsgNum := (segP.procState i).nextMsgNum - msgNumWrapAround }
        else segP.procState i }
  else segP

/-- The fullness at which to clean up again. -/
def thresholdFor (numMsgs : Int) : Int :=
  if numMsgs < cleanupMin then cleanupMin else (numMsgs / cleanupQuantum + 1) * cleanupQuantum

/-- Remove what every backend has read, and reset those that are too far back to leave
`minFree` cells.  The second component is the backend to be signalled, if any: for that the
locks are given up. -/
def siCleanupQueue (minFree : Nat) : SISeg α × Option Nat :=
  let sw := sweep segP minFree
  let segP := rebase { segP with procState := sw.procState, minMsgNum := sw.min }
  let segP := { segP with nextThreshold := thresholdFor (segP.maxMsgNum - segP.minMsgNum) }
  match sw.needSig with
  | none => (segP, none)
  | some i => (segP.modifyProc i fun stateP => { stateP with signaled := true }, some i)

/-! ### The backends -/

/-- Where a backend stands. -/
inductive Pc (α : Type*)
  | idle
  /-- In `SIInsertDataEntries` with these messages to go, about to take the write lock. -/
  | insert (data : List α)
  /-- At the top of the inner loop, with the write lock. -/
  | inserting (chunk rest : List α)
  /-- In `SICleanupQueue` after a signal, about to take the write lock back. -/
  | signaling (chunk rest : List α)
  /-- Part of the group is in the ring, not yet published. -/
  | writing (done todo rest : List α)
  /-- In `SIGetDataEntries` with the read lock, `maxMsgNum` fetched. -/
  | fetched (max : Int) (datasize : Nat)
  /-- In the loop over the messages, `n` of them taken. -/
  | reading (max : Int) (datasize n : Nat)
  deriving DecidableEq, Repr

namespace Pc

def isIdle : Pc α → Bool
  | idle => true
  | _ => false

def holdsRead : Pc α → Bool
  | fetched _ _ | reading _ _ _ => true
  | _ => false

def holdsWrite : Pc α → Bool
  | inserting _ _ | writing _ _ _ => true
  | _ => false

end Pc

/-- What a backend has been handed: a message, or `-1`; with the latter goes the number of
messages that had been inserted by then. -/
inductive Got (α : Type*)
  | msg (m : Option α)
  | reset (inserted : Nat)
  deriving DecidableEq, Repr

/-- The segment, the backends and their locks.  The last four fields are not in the code:
every message ever inserted, by how much the counters have been lowered, how many messages
there were when a backend registered, and what it has been handed since. -/
structure Sys (α : Type*) where
  seg : SISeg α
  pc : Nat → Pc α
  writeLock : Option Nat
  sent : List α
  lowered : Nat
  since : Nat → Nat
  log : Nat → List (Got α)

def init (maxBackends : Nat) : Sys α :=
  { seg := createSharedInvalidationState maxBackends, pc := fun _ => .idle, writeLock := none,
    sent := [], lowered := 0, since := fun _ => 0, log := fun _ => [] }

inductive Event (α : Type*)
  | backendInit (pid : Nat) (sendOnly : Bool)
  | backendExit (i : Nat)
  | insertDataEntries (i : Nat) (data : List α)
  | getDataEntries (i : Nat) (datasize : Nat)
  /-- `SICleanupQueue(false, minFree)`. -/
  | cleanupQueue (i : Nat) (minFree : Nat)
  /-- The next step of the routine that the backend is in. -/
  | tick (i : Nat)
  deriving DecidableEq, Repr

namespace Sys

def active (s : Sys α) (i : Nat) : Bool := (s.seg.procState i).procPid ≠ 0

/-- Nobody holds the read lock. -/
def readLockFree (s : Sys α) : Bool :=
  (List.range s.seg.maxBackends).all fun i => !(s.pc i).holdsRead

def setPc (s : Sys α) (i : Nat) (pc : Pc α) : Sys α := { s with pc := Function.update s.pc i pc }

/-- Hand something to a backend. -/
def give (s : Sys α) (i : Nat) (got : Got α) : Sys α :=
  { s with log := Function.update s.log i (s.log i ++ [got]) }

/-- `SICleanupQueue`, with what it has lowered the counters by. -/
def cleanup (s : Sys α) (minFree : Nat) : Sys α × Option Nat :=
  let (seg, needSig) := siCleanupQueue s.seg minFree
  ({ s with seg := seg, lowered := s.lowered + (s.seg.maxMsgNum - seg.maxMsgNum).toNat }, needSig)

end Sys

/-- The next step of the routine that backend `i` is in; `none` while it waits for a lock. -/
def tick (s : Sys α) (i : Nat) : Option (Sys α) :=
  match s.pc i with
  | .idle => none
  | .insert [] => some (s.setPc i .idle)
  | .insert (m :: data) =>
    if s.writeLock = none then
      some { s.setPc i (.inserting ((m :: data).take writeQuantum) ((m :: data).drop writeQuantum))
             with writeLock := some i }
    else none
  | .inserting chunk rest =>
    let numMsgs := s.seg.maxMsgNum - s.seg.minMsgNum
    if numMsgs + chunk.length > maxNumMessages ∨ numMsgs ≥ s.seg.nextThreshold then
      if s.readLockFree then
        match s.cleanup chunk.length with
        | (s, none) => some s
        | (s, some _) => some { s.setPc i (.signaling chunk rest) with writeLock := none }
      else none
    else some (s.setPc i (.writing [] chunk rest))
  | .signaling chunk rest =>
    if s.writeLock = none then
      some { s.setPc i (.inserting chunk rest) with writeLock := some i }
    else none
  | .writing done (m :: todo) rest =>
    let slot := SISeg.slot (s.seg.maxMsgNum + done.length)
    some { s.setPc i (.writing (done ++ [m]) todo rest) with
           seg := { s.seg with buffer := Function.update s.seg.buffer slot (some m) } }
  | .writing done [] rest =>
    some { s.setPc i (.insert rest) with
           seg := { s.seg with maxMsgNum := s.seg.maxMsgNum + done.length }
           sent := s.sent ++ done
           writeLock := none }
  | .fetched max datasize =>
    if (s.seg.procState i).resetState then
      some { (s.setPc i .idle).give i (.reset s.sent.length) with
             seg := s.seg.modifyProc i fun stateP =>
               { stateP with nextMsgNum := max, resetState := false, signaled := false } }
    else some (s.setPc i (.reading max datasize 0))
  | .reading max datasize n =>
    let stateP := s.seg.procState i
    if n < datasize ∧ stateP.nextMsgNum < max then
      some { (s.setPc i (.reading max datasize (n + 1))).give i
               (.msg (s.seg.buffer (SISeg.slot stateP.nextMsgNum))) with
             seg := s.seg.modifyProc i fun stateP =>
               { stateP with nextMsgNum := stateP.nextMsgNum + 1 } }
    else
      some { s.setPc i .idle with
             seg := s.seg.modifyProc i fun stateP =>
               { stateP with
                 signaled := if stateP.nextMsgNum ≥ max then false else stateP.signaled } }

/-- One step of the system; `none` where the event is not possible.  A backend that only
sends never calls `SIGetDataEntries`, and one that holds a lock does not exit. -/
def step (s : Sys α) : Event α → Option (Sys α)
  | .backendInit pid sendOnly =>
    if s.writeLock = none ∧ pid ≠ 0 then
      match sharedInvalBackendInit s.seg pid sendOnly with
      | none => none
      | some (i, seg) =>
        some { s with
               seg := seg
               pc := Function.update s.pc i .idle
               since := Function.update s.since i s.sent.length
               log := Function.update s.log i [] }
    else none
  | .backendExit i =>
    if s.active i ∧ s.writeLock = none ∧ (s.pc i).holdsRead = false then
      some { s.setPc i .idle with seg := cleanupInvalidationState s.seg i }
    else none
  | .insertDataEntries i data =>
    if s.active i ∧ (s.pc i).isIdle then some (s.setPc i (.insert data)) else none
  | .getDataEntries i datasize =>
    if s.active i ∧ (s.pc i).isIdle ∧ (s.seg.procState i).sendOnly = false then
      some (s.setPc i (.fetched s.seg.maxMsgNum datasize))
    else none
  | .cleanupQueue i minFree =>
    if s.active i ∧ (s.pc i).isIdle ∧ s.writeLock = none ∧ s.readLockFree then
      some (s.cleanup minFree).1
    else none
  | .tick i => if s.active i then tick s i else none

end PrlPg.SInval
