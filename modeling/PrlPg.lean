import PrlPg.Lib.Run
import PrlPg.Lib.Order
import PrlPg.Lib.Heap
import PrlPg.Lib.Count
import PrlPg.Lib.KWay
import PrlPg.Lib.RingBuffer
import PrlPg.Lib.HashChain
import PrlPg.Lib.Lz
import PrlPg.Lib.ThreeValued
import PrlPg.Lib.KeyedTable
import PrlPg.Lib.LinkedList
import PrlPg.Lib.Radix
import PrlPg.Lib.Rounding
import PrlPg.Lib.MachineInt
import PrlPg.Lib.LongDivision
import PrlPg.Utils.Numeric
import PrlPg.Utils.NumericDiv
import PrlPg.Utils.NumericConvert
import PrlPg.Utils.NumericIO
import PrlPg.Proofs.NumericVar
import PrlPg.Proofs.NumericAdd
import PrlPg.Proofs.NumericStored
import PrlPg.Proofs.NumericMul
import PrlPg.Proofs.NumericDiv
import PrlPg.Proofs.NumericMod
import PrlPg.Proofs.NumericInt
import PrlPg.Proofs.NumericBucket
import PrlPg.Proofs.NumericIO
import PrlPg.Nodes.Expr
import PrlPg.Nodes.TidBitmap
import PrlPg.Optimizer.PrepQual
import PrlPg.Optimizer.PredTest
import PrlPg.Storage.BufferQueue
import PrlPg.Storage.PrlSemas
import PrlPg.Storage.QueuePayload
import PrlPg.Storage.Parallel
import PrlPg.Storage.SInvalAdt
import PrlPg.Storage.LWLock
import PrlPg.Storage.BufMgr
import PrlPg.Postmaster.SlaveWorker
import PrlPg.Postmaster.StartWorkers
import PrlPg.Utils.TupleSort
import PrlPg.Utils.LzCompress
import PrlPg.Utils.Int8
import PrlPg.Utils.Like
import PrlPg.Executor.Job
import PrlPg.Executor.SortCursor
import PrlPg.Executor.SortLife
import PrlPg.Executor.AppendLife
import PrlPg.Proofs.BufferQueue
import PrlPg.Proofs.PrlSemas
import PrlPg.Proofs.QueuePayload
import PrlPg.Proofs.Stages
import PrlPg.Proofs.Handshake
import PrlPg.Proofs.Streams
import PrlPg.Proofs.Invariant
import PrlPg.Proofs.ControlFlow
import PrlPg.Proofs.LifeCycle
import PrlPg.Proofs.Work
import PrlPg.Proofs.SortData
import PrlPg.Proofs.Progress
import PrlPg.Proofs.ParallelSort
import PrlPg.Proofs.StateMoves
import PrlPg.Proofs.Shutdown
import PrlPg.Proofs.AppendData
import PrlPg.Proofs.ParallelAppend
import PrlPg.Proofs.WorkerFailure
import PrlPg.Proofs.Recovery
import PrlPg.Proofs.Quiescence
import PrlPg.Proofs.AbortWait
import PrlPg.Proofs.StartWorkers
import PrlPg.Proofs.SortCursor
import PrlPg.Proofs.Orphans
import PrlPg.Proofs.AppendLife
import PrlPg.Proofs.SInval
import PrlPg.Proofs.LWLockMoves
import PrlPg.Proofs.LWLockQueues
import PrlPg.Proofs.LWLock
import PrlPg.Proofs.BufMgr
import PrlPg.Proofs.LzHistory
import PrlPg.Proofs.LzCompress
import PrlPg.Proofs.LzBounds
import PrlPg.Proofs.PrepQual
import PrlPg.Proofs.PredTest
import PrlPg.Proofs.TidBitmap
import PrlPg.Proofs.TidBitmapOps
import PrlPg.Proofs.TidBitmapScan
import PrlPg.Storage.LockTable
import PrlPg.Proofs.LockEntry
import PrlPg.Proofs.LockWakeup
import PrlPg.Proofs.LockTable
import PrlPg.Proofs.LockSections
import PrlPg.Proofs.LockRelease
import PrlPg.Proofs.LockReleaseAll
import PrlPg.Proofs.LockAcquire
import PrlPg.Proofs.LockSteps
import PrlPg.Proofs.LockSafety
import PrlPg.Proofs.Int8
import PrlPg.Proofs.Like
import PrlPg.Access.Transam
import PrlPg.Access.Clog
import PrlPg.Proofs.Clog
import PrlPg.Access.MultiXact
import PrlPg.Proofs.MultiXactLogs
import PrlPg.Proofs.MultiXact
import PrlPg.Proofs.MultiXactSteps
import PrlPg.Proofs.MultiXactReads
import PrlPg.Utils.SortKeys
import PrlPg.Proofs.SortKeys
