import SqpKv.Protocol.Decode
import SqpKv.Protocol.Fresh
import SqpKv.Protocol.SizeLimits
import SqpKv.Protocol.ReadBuffer
import SqpKv.Protocol.ShortWrites
import SqpKv.Client.Exchange
import SqpKv.Client.Main
import SqpKv.Server.Routing
import SqpKv.Server.TablePrefixTransform
import SqpKv.Server.CreateProxy
import SqpKv.Server.Quiescence
import SqpKv.Server.GiveUp
import SqpKv.Server.ScanFailure
import SqpKv.Server.FanOut
import SqpKv.Server.RelayFraming
import SqpKv.Server.ResponseRoom
import SqpKv.Server.Startup
import SqpKv.Server.Restarts
import SqpKv.Server.Server
import SqpKv.Cluster.Linearizability
import SqpKv.Cluster.GetAll
import SqpKv.Cluster.Metadata
import SqpKv.Cluster.Progress
import SqpKv.Cluster.Returns
import SqpKv.Cluster.Durability
import SqpKv.Cluster.Atomic
import SqpKv.Cluster.Once
import SqpKv.Cluster.Turns
import SqpKv.Rdma.Messages
import SqpKv.Rdma.SendBuffer
import SqpKv.Rdma.Server
import SqpKv.Rdma.Lifetime
