import UdpQueue.Library.OrderedMap
import UdpQueue.Library.Machine
import UdpQueue.Fifo
import UdpQueue.Accounting
import UdpQueue.Rotation
import UdpQueue.Deadline
import UdpQueue.EarliestDue
import UdpQueue.Loop
import UdpQueue.RateLimit
import UdpQueue.Destination
import UdpQueue.Dispatch
import UdpQueue.Library.Mutex
import UdpQueue.Shutdown
import UdpQueue.Ledger
import UdpQueue.Items
import UdpQueue.Allocation
import UdpQueue.InRange
import UdpQueue.Isolation
import UdpQueue.Callers
import UdpQueue.InFlight
import UdpQueue.Oversleep
import UdpQueue.ForwardClock
import UdpQueue.SetBack
import UdpQueue.HashManager
import UdpQueue.HashRefinement
import UdpQueue.Answers
import UdpQueue.Aftermath
import UdpQueue.Quiescence
import UdpQueue.Reserved
import UdpQueue.Cadence
import UdpQueue.Native
import UdpQueue.Overflow
import UdpQueue.Datagrams
