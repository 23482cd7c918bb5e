import Cotamer.Mutex.Ownership
import Cotamer.Event.Threshold
import Cotamer.Event.Wakeup
import Cotamer.Event.Order
import Cotamer.Event.Collected
import Cotamer.Driver.Clock
import Cotamer.Driver.Guards
import Cotamer.Driver.Timeout
import Cotamer.Driver.Handshake
import Cotamer.TimerHeap.Queue
import Cotamer.Fd.Wakes
import Cotamer.Http.Chunks
import Cotamer.Http.Exchange
import Cotamer.Http.Tickets
import Cotamer.Http.Slices
import Cotamer.Http.Response
import Cotamer.Http.Stream
import Cotamer.Http.Params
import Cotamer.Http.Heads
import Cotamer.Fd.Notified
import Cotamer.Fd.Wellformed
import Cotamer.Fd.Displaced
import Cotamer.Io.Transfers
import Cotamer.Task.Outcome
import Cotamer.Task.Refused
import Cotamer.Task.Dangling
import Cotamer.Task.Interest
import Cotamer.Mutex.Attempts
import Cotamer.Consensus.Nancy
import Cotamer.Stream.Delivery
import Cotamer.Curl.Follow
import Cotamer.Task.Races
import Cotamer.SmallVector
import Cotamer.Netsim
import Cotamer.Notes
import Cotamer.Event.Sleepers
