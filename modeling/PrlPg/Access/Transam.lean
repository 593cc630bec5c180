/-
Transaction ids (access/transam/transam.c, include/access/transam.h).

An id has 32 bits.  The ids 0, 1 and 2 are special and the others go round in a circle, so two
of them are compared by the sign of their difference.
-/
import Mathlib.Data.Nat.Basic

namespace PrlPg.Mvcc

abbrev TransactionId := BitVec 32

def invalidTransactionId : TransactionId := 0#32

def firstNormalTransactionId : TransactionId := 3#32

def transactionIdIsValid (xid : TransactionId) : Bool := xid != invalidTransactionId

def transactionIdIsNormal (xid : TransactionId) : Bool :=
  decide (firstNormalTransactionId.toNat ≤ xid.toNat)

def transactionIdPrecedes (id1 id2 : TransactionId) : Bool :=
  if !transactionIdIsNormal id1 || !transactionIdIsNormal id2 then decide (id1.toNat < id2.toNat)
  else decide ((id1 - id2).toInt < 0)

end PrlPg.Mvcc
