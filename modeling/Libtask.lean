import Libtask.Lib.Lists
import Libtask.Lib.Ring
import Libtask.Chan.Chan
import Libtask.Chan.Moves
import Libtask.Chan.Waiting
import Libtask.Chan.Runs
import Libtask.Chan.Fifo
import Libtask.Lib.Dll
import Libtask.Sched.Lists
import Libtask.Sched.Prog
import Libtask.Sched.Locks
import Libtask.Sched.Fd
import Libtask.Lib.History
import Libtask.Lib.Alloc
import Libtask.Lib.Mutex
import Libtask.Lib.RwLock
import Libtask.Sched.Machine
import Libtask.Sched.Actions
import Libtask.Sched.Inv
import Libtask.Sched.Keep
import Libtask.Sched.Locking
import Libtask.Sched.Calls
import Libtask.Sched.Turns
import Libtask.Sched.Sleeping
import Libtask.Sched.Steps
import Libtask.Sched.Placement
import Libtask.Sched.Monitors
import Libtask.Sched.Frames
import Libtask.Sched.Runs
import Libtask.Sched.Poller
import Libtask.Sched.Ending
import Libtask.Sched.RoundRobin
import Libtask.Lib.Epoll
import Libtask.Sched.Epoll
import Libtask.Sched.Waits
import Libtask.Sched.Pollfd
import Libtask.Lib.Calls
import Libtask.Sched.Hooks
import Libtask.Sched.Wakeups
import Libtask.Sched.Hooked
import Libtask.Sched.Udata
import Libtask.Sched.Writes
import Libtask.Chan.Slots
import Libtask.Chan.Choice
import Libtask.Sched.Choice
import Libtask.Lib.Deadlines
import Libtask.Sched.Closed
import Libtask.Sched.Timers
import Libtask.Sched.Delays
import Libtask.Sched.Registry
import Libtask.Lib.Returns
import Libtask.Lib.Bytes
import Libtask.Print.Print
import Libtask.Lib.Words
import Libtask.Lib.Numerals
import Libtask.Lib.Strtoul
import Libtask.Net.Parseip
import Libtask.Net.Names
import Libtask.Sched.Start
import Libtask.Lib.Cells
import Libtask.Print.Items
import Libtask.Print.Inside
import Libtask.Print.Text
import Libtask.Print.Ends
import Libtask.Print.Relations
import Libtask.Print.Numbers
import Libtask.Lib.Sieve
import Libtask.Chan.Ops
import Libtask.Sched.Chans
import Libtask.Primes.Primes
import Libtask.Primes.Tasks
import Libtask.Primes.Calls
import Libtask.Primes.Steps
import Libtask.Primes.Sieve
import Libtask.Primes.Prints
import Libtask.Sched.Sweep
import Libtask.Context.Port
import Libtask.Sched.Again
import Libtask.Sched.Ids
import Libtask.Context.Intel
import Libtask.Context.Risc
import Libtask.Context.Switch
import Libtask.Primes.Stalls
import Libtask.Primes.Ends
import Libtask.Sched.Progress
import Libtask.Sched.Latency
import Libtask.Sched.Alarms
import Libtask.Sched.Misuse
import Libtask.Context.Starts
import Libtask.Context.Coroutines
import Libtask.Lib.Threads
import Libtask.Net.Sockets
import Libtask.Net.Opened
import Libtask.Net.Tasks
import Libtask.Print.Formats
import Libtask.Sched.Channels
import Libtask.Sched.Answers
