import LibChan.Base.Wrap
import LibChan.Base.Reach
import LibChan.Base.Memory
import LibChan.Base.BoundedQueue
import LibChan.Base.LinkChain
import LibChan.Ring.Capacity
import LibChan.Ring.Machine
import LibChan.Ring.Layout
import LibChan.Ring.Safety
import LibChan.Ring.Fifo
import LibChan.Ring.Spsc
import LibChan.Ring.Sequential
import LibChan.Ring.Alone
import LibChan.Ring.Laps
import LibChan.Ring.Verdicts
import LibChan.Ring.Contents
import LibChan.Ring.Bytes
import LibChan.Chan.State
import LibChan.Chan.Direct
import LibChan.Chan.Select
import LibChan.Chan.System
import LibChan.Chan.Moves
import LibChan.Chan.SelectMoves
import LibChan.Chan.Steps
import LibChan.Chan.Calls
import LibChan.Chan.Queues
import LibChan.Chan.WaitQueue
import LibChan.Chan.LockOrder
import LibChan.Chan.Wakes
import LibChan.Chan.Flow
import LibChan.Chan.SelectFlow
import LibChan.Chan.History
import LibChan.Chan.Places
import LibChan.Chan.Stack
import LibChan.Chan.Reuse
import LibChan.Chan.Account
import LibChan.Chan.Stubs
import LibChan.Chan.RingUse
import LibChan.Chan.Selects
import LibChan.Chan.Waiters
import LibChan.Chan.Closed
import LibChan.Chan.Truth
import LibChan.Chan.Entries
import LibChan.Chan.Ledger
import LibChan.Chan.Shutdown
import LibChan.Chan.Claimed
import LibChan.Chan.SharedRing
import LibChan.Chan.Drained
import LibChan.Chan.Transfer
import LibChan.Chan.Counts
import LibChan.Chan.Rendezvous
import LibChan.Chan.TryOnly
import LibChan.Chan.Rotation
import LibChan.Chan.Executed
import LibChan.Chan.Reports
import LibChan.Chan.Meeting
import LibChan.Chan.Finality
import LibChan.Chan.Solo
import LibChan.Chan.ExactlyOnce
import LibChan.Chan.Order
import LibChan.Chan.Duo
import LibChan.Chan.Looks
import LibChan.Chan.SelectPair
import LibChan.Chan.Apart
import LibChan.Chan.Handshake
import LibChan.Chan.Attended
import LibChan.Chan.Stranded
import LibChan.Ring.Lanes
import LibChan.Ring.Cached
import LibChan.Chan.SpscUse
import LibChan.Chan.SpscCache
import LibChan.Chan.SpscPair
import LibChan.Chan.Length
import LibChan.Chan.FinalReceive
