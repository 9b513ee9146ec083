import DsoFifo.Transition.LTS
import DsoFifo.Transition.Pool
import DsoFifo.Transition.Table
import DsoFifo.Transition.Execute
import DsoFifo.Transition.Clients
import DsoFifo.Transition.Processes
import DsoFifo.Monitor.CondQueue
import DsoFifo.Monitor.RwLock
import DsoFifo.Buffer.ByteQueue
import DsoFifo.Buffer.BoundedQueue
import DsoFifo.Store.BoundedMap
import DsoFifo.Store.Cursor
import DsoFifo.Store.Ledger
import DsoFifo.Store.Mailbox
import DsoFifo.C.Machine
import DsoFifo.C.Strings
import DsoFifo.C.Decimal
import DsoFifo.C.Integer
import DsoFifo.Buffer.Ring
import DsoFifo.Cbuffer.Basic
import DsoFifo.Cbuffer.Bulk
import DsoFifo.Cbuffer.Single
import DsoFifo.Cbuffer.Agree
import DsoFifo.Cbuffer.Pointers
import DsoFifo.Fifo.Driver
import DsoFifo.Fifo.Fires
import DsoFifo.Fifo.Mutex
import DsoFifo.Fifo.Queues
import DsoFifo.Fifo.Broadcast
import DsoFifo.Fifo.Handles
import DsoFifo.Fifo.Stream
import DsoFifo.Fifo.Delivery
import DsoFifo.Fifo.Records
import DsoFifo.Fifo.Session
import DsoFifo.Fifo.Wakeup
import DsoFifo.Fifo.Ends
import DsoFifo.Fifo.Rendezvous
import DsoFifo.Fifo.Standoff
import DsoFifo.Fifo.Pipe
import DsoFifo.Kifs.Basic
import DsoFifo.Kifs.Slots
import DsoFifo.Kifs.Registry
import DsoFifo.Kifs.Listing
import DsoFifo.Kifs.Dispatch
import DsoFifo.Kifs.Names
import DsoFifo.Kifs.Clipboard
import DsoFifo.Kifs.Torn
import DsoFifo.Kifs.Bytewise
import DsoFifo.Modlist.Basic
import DsoFifo.Modlist.Reading
import DsoFifo.Modlist.Commands
import DsoFifo.Modlist.Faults
import DsoFifo.Modlist.Shared
import DsoFifo.Modlist.Sections
import DsoFifo.Modlist.Concurrent
import DsoFifo.Prodcons.Basic
import DsoFifo.Prodcons.Version
import DsoFifo.Prodcons.First
import DsoFifo.Prodcons.Second
import DsoFifo.DumpUtmp.Programs
import DsoFifo.DumpUtmp.Clients
import DsoFifo.DumpUtmp.Delivery
import DsoFifo.DumpUtmp.Progress
