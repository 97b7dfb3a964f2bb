import Lthread.Lib.Machine
import Lthread.Lib.Tailq
import Lthread.Proofs.Fifo
import Lthread.Spec.Chan
import Lthread.Spec.ChanRun
import Lthread.Proofs.ChanOps
import Lthread.Proofs.ChanReg
import Lthread.Proofs.ChanLink
import Lthread.Proofs.ChanServe
import Lthread.Proofs.ChanMeet
import Lthread.Proofs.ChanHist
import Lthread.Proofs.ChanInv
import Lthread.Proofs.ChanClose
import Lthread.Proofs.ChanRun
import Lthread.Proofs.ChanSafety
import Lthread.Proofs.ChanClosed
import Lthread.Proofs.IoWorker
import Lthread.Spec.Compute
import Lthread.Spec.Poller
import Lthread.Spec.World
import Lthread.Spec.Board
import Lthread.Lib.ActsAt
import Lthread.Proofs.Seat
import Lthread.Proofs.Place
import Lthread.Proofs.SeatOk
import Lthread.Proofs.SeatLeave
import Lthread.Proofs.Links
import Lthread.Proofs.Seated
import Lthread.Proofs.Turns
import Lthread.Proofs.WorldCalls
import Lthread.Proofs.WorldCancel
import Lthread.Proofs.WorldLoop
import Lthread.Proofs.WorldStep
import Lthread.Proofs.WorldFrame
import Lthread.Proofs.WorldInv
import Lthread.Spec.Runs
import Lthread.Proofs.Placement
import Lthread.Proofs.Dropped
import Lthread.Proofs.Deferred
import Lthread.Proofs.HandBack
import Lthread.Proofs.Sections
import Lthread.Proofs.HandOff
import Lthread.Proofs.CancelLocal
import Lthread.Proofs.Waits
import Lthread.Proofs.Interest
import Lthread.Proofs.Batch
import Lthread.Proofs.Poll
import Lthread.Proofs.CdnsNames
import Lthread.Proofs.Cdns
import Lthread.Proofs.CdnsLookup
import Lthread.Proofs.Lifetimes
import Lthread.Proofs.Detach
import Lthread.Proofs.Queues
import Lthread.Proofs.ReadyPass
import Lthread.Proofs.ExpiryPass
import Lthread.Proofs.ChanSelect
import Lthread.Proofs.ChanFeed
import Lthread.Proofs.Eof
import Lthread.Proofs.Sockets
import Lthread.Proofs.SockData
import Lthread.Proofs.CondStep
import Lthread.Proofs.Conds
import Lthread.Proofs.Mutexes
import Lthread.Proofs.Joins
import Lthread.Proofs.Sending
import Lthread.Proofs.Reading
import Lthread.Proofs.Stack
import Lthread.Proofs.Collect
import Lthread.Proofs.Deadlines
import Lthread.Proofs.Multi
import Lthread.Proofs.EventWaits
import Lthread.Proofs.SockWaits
import Lthread.Proofs.ChanWorld
import Lthread.Proofs.Faults
import Lthread.Proofs.Wakeups
import Lthread.Proofs.Drops
import Lthread.Proofs.JoinsAlone
import Lthread.Proofs.CancelClean
import Lthread.Proofs.Forgotten
import Lthread.Lib.Bytes
import Lthread.Proofs.Ringbuf
import Lthread.Lib.Occur
import Lthread.Spec.Kstring
import Lthread.Proofs.Replace
import Lthread.Proofs.ParseU
import Lthread.Proofs.Resolv
import Lthread.Lib.Wire
import Lthread.Proofs.CdnsQuery
import Lthread.Proofs.CdnsFirst
import Lthread.Proofs.ConnWrite
import Lthread.Proofs.JoinCells
import Lthread.Proofs.JoinResults
import Lthread.Proofs.RbInsert
import Lthread.Proofs.RbRemove
import Lthread.Proofs.RbLookup
import Lthread.Proofs.RbSet
import Lthread.Proofs.SchedTrees
import Lthread.Proofs.Switch
import Lthread.Proofs.LinkQueue
