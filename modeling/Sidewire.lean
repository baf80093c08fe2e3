import Sidewire.Lib.PyDict
import Sidewire.Lib.BigEndian
import Sidewire.Lib.Machine
import Sidewire.Lib.Exec
import Sidewire.Lib.Ranks
import Sidewire.Lib.Framing
import Sidewire.Lib.LiveIter
import Sidewire.Mqtt.Defs
import Sidewire.Mqtt.AppPacket
import Sidewire.Mqtt.Client
import Sidewire.Mqtt.OrderedSend
import Sidewire.Mqtt.AppProto
import Sidewire.Mqtt.Dispatch
import Sidewire.Mqtt.Concrete
import Sidewire.Mqtt.Effects
import Sidewire.Mqtt.Operations
import Sidewire.Mqtt.Stream
import Sidewire.Mqtt.Alike
import Sidewire.Mqtt.Numbers
import Sidewire.Mqtt.AsyncSend
import Sidewire.Mqtt.Places
import Sidewire.Mqtt.Packet
import Sidewire.Mqtt.Reader
import Sidewire.Router.Basic
import Sidewire.Router.Turns
import Sidewire.Router.Steps
import Sidewire.Router.Survival
import Sidewire.Router.FanOut
import Sidewire.Router.Replay
import Sidewire.Router.Acks
import Sidewire.Router.Isolation
import Sidewire.Router.Calls
import Sidewire.Router.Dequeue
import Sidewire.Router.Delivery
import Sidewire.Network.Basic
import Sidewire.Network.Authenticity
import Sidewire.Network.AckSound
import Sidewire.Network.StopAndWait
import Sidewire.Discovery.Ranking
import Sidewire.Discovery.Walk
import Sidewire.Session.Handshake
import Sidewire.Session.Lifecycle
import Sidewire.Session.Running
import Sidewire.Session.Moves
import Sidewire.Session.Buffer
import Sidewire.Session.Subscription
import Sidewire.Session.IdleWindow
import Sidewire.Pool.Basic
import Sidewire.Mqtt.Publishing
import Sidewire.Mqtt.Layout
import Sidewire.Mqtt.PacketIds
import Sidewire.Pipes.Send
import Sidewire.Session.Closing
import Sidewire.Pool.Steps
import Sidewire.Pool.Passes
import Sidewire.Pool.Cache
import Sidewire.Session.Serving
import Sidewire.Pool.Held
import Sidewire.Lib.Fallible
import Sidewire.Discovery.Table
import Sidewire.Pipes.Hints
import Sidewire.Lib.KeySort
import Sidewire.Discovery.Ordering
import Sidewire.Discovery.Weights
import Sidewire.Discovery.CustomPool
import Sidewire.Discovery.Candidates
import Sidewire.Discovery.HintCost
import Sidewire.Mqtt.Addresses
import Sidewire.Mqtt.Probes
import Sidewire.Router.Schedule
import Sidewire.Discovery.Race
import Sidewire.Discovery.Postcondition
import Sidewire.Discovery.Outage
import Sidewire.Session.Exclusive
import Sidewire.Mqtt.Varint
import Sidewire.Lib.Ragged
import Sidewire.Discovery.Interleave
import Sidewire.Mqtt.Traces
import Sidewire.Session.HandOff
import Sidewire.Lib.Json
import Sidewire.Discovery.HintFile
import Sidewire.Discovery.HintNodes
import Sidewire.Mqtt.Handlers
import Sidewire.Router.Objects
import Sidewire.Router.Uniform
import Sidewire.Lib.Simulation
import Sidewire.Lib.Channel
import Sidewire.Lib.Reach
import Sidewire.Network.Refinement
import Sidewire.Router.Answer
import Sidewire.Network.Progress
import Sidewire.Pipes.EndToEnd
import Sidewire.Mqtt.Outgoing
import Sidewire.Mqtt.Line
import Sidewire.Network.Wire
import Sidewire.Discovery.ServerList
import Sidewire.Discovery.Restarts
import Sidewire.Discovery.WarmStart
import Sidewire.Pool.Protected
