import GhettoRedis.Mpmcq.Fifo
import GhettoRedis.Mpmcq.Delivery
import GhettoRedis.Protocol.Framing
import GhettoRedis.Server.Order
import GhettoRedis.Server.Lifetime
import GhettoRedis.Server.Queues
import GhettoRedis.Server.Partition
import GhettoRedis.Server.OneReply
import GhettoRedis.Server.Window
import GhettoRedis.Server.Once
import GhettoRedis.Server.Delivered
import GhettoRedis.Server.Overflow
import GhettoRedis.Server.Wakeups
import GhettoRedis.Server.Shutdown
import GhettoRedis.Server.Attended
import GhettoRedis.Server.FullWindow
import GhettoRedis.Server.Relay
import GhettoRedis.Protocol.Lines
import GhettoRedis.Protocol.Locality
import GhettoRedis.Protocol.Writers
import GhettoRedis.Server.RequestLoop
import GhettoRedis.Server.Flush
import GhettoRedis.Server.Freed
import GhettoRedis.Server.Pipeline
import GhettoRedis.Lib.Linearization
import GhettoRedis.Server.Linearizable
import GhettoRedis.Commands.Counting
import GhettoRedis.Commands.Select
import GhettoRedis.Server.Connections
import GhettoRedis.Containers.DequeList
import GhettoRedis.Containers.Spscq
import GhettoRedis.Protocol.Number
import GhettoRedis.Server.Notify
import GhettoRedis.Mpmcq.Refines
import GhettoRedis.Server.CbQueue
import GhettoRedis.Hashmap.Refines
import GhettoRedis.Hashmap.Iterate
import GhettoRedis.Hashmap.Entries
import GhettoRedis.Hashmap.Lookup
import GhettoRedis.Server.Tables
import GhettoRedis.Server.SharedNothing
import GhettoRedis.Memory.Runs
