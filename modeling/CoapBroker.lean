import CoapBroker.Store.Refinement
import CoapBroker.Cpp.Monitor
import CoapBroker.System.Dispatch
import CoapBroker.System.Subtree
import CoapBroker.System.Echo
import CoapBroker.System.LastPublish
import CoapBroker.System.Ownership
import CoapBroker.Cpp.Nodes
import CoapBroker.Cpp.Bisimulation
import CoapBroker.Cpp.Conversions
import CoapBroker.Cpp.Reading
import CoapBroker.Cpp.Transparency
import CoapBroker.System.Publishing
import CoapBroker.System.Commutation
import CoapBroker.System.MainLoop
import CoapBroker.Lib.Interleave
import CoapBroker.Store.Threads
import CoapBroker.Store.Atomicity
import CoapBroker.Store.Linearizability
import CoapBroker.Cpp.Discovery
import CoapBroker.Cpp.Discoverable
import CoapBroker.Cpp.Grammars
import CoapBroker.Cpp.Lifetime
import CoapBroker.Cpp.MaxAge
import CoapBroker.System.Nesting
import CoapBroker.System.Refresh
import CoapBroker.Parser.Bounds
import CoapBroker.System.Formats
import CoapBroker.Broker.Allocation
import CoapBroker.Lib.Memory
import CoapBroker.Directory.ParseParam
import CoapBroker.Directory.Location
import CoapBroker.System.Shutdown
import CoapBroker.Cpp.Length
import CoapBroker.Cpp.Faithful
import CoapBroker.Lib.RwLock
import CoapBroker.Store.Locks
import CoapBroker.System.LockDiscipline
import CoapBroker.Broker.WellKnown
import CoapBroker.System.Failures
import CoapBroker.Cpp.Equivalence
import CoapBroker.System.Subscriptions
import CoapBroker.System.Delivery
import CoapBroker.Libcoap.SendQueue
