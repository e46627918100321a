import Nlos.Fat.Dates
import Nlos.Heap.Isolation
import Nlos.Kernel.Delivery
import Nlos.Kernel.Escape
import Nlos.Kernel.Lifetime
import Nlos.Kernel.Notices
import Nlos.Kernel.Refusal
import Nlos.Kernel.Room
import Nlos.Kernel.RoundTrip
import Nlos.Kernel.Slots
import Nlos.Native.Exact
import Nlos.Native.Rfc8032
import Nlos.Ns.Handles
import Nlos.P9serve.Handles
import Nlos.P9serve.Replies
import Nlos.Smp.Requests
import Nlos.Smp.Teardown
import Nlos.Tcp.Ended
import Nlos.Tcp.Timers
import Nlos.Thread.Gather
import Nlos.Thread.MailOrder
import Nlos.Thread.Sleep
