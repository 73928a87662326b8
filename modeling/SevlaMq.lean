import SevlaMq.Lib.Bytes
import SevlaMq.Lib.Framing
import SevlaMq.Lib.Stream
import SevlaMq.Lib.Run
import SevlaMq.Lib.Text
import SevlaMq.Lib.Lineage
import SevlaMq.Lib.RoundRobin
import SevlaMq.Storage.Record
import SevlaMq.Storage.RecordLog
import SevlaMq.Storage.PartitionLog
import SevlaMq.Storage.Layout
import SevlaMq.Storage.Refinement
import SevlaMq.Storage.Recovery
import SevlaMq.Storage.Retention
import SevlaMq.Storage.Durability
import SevlaMq.Storage.Representation
import SevlaMq.Storage.Restart
import SevlaMq.Storage.Producers
import SevlaMq.Storage.Truncation
import SevlaMq.Storage.TruncationCrash
import SevlaMq.Storage.Scan
import SevlaMq.Storage.Faults
import SevlaMq.Protocol.Frame
import SevlaMq.Protocol.Replicate
import SevlaMq.Protocol.Messages
import SevlaMq.Protocol.Requests
import SevlaMq.Protocol.RequestRoundTrip
import SevlaMq.Protocol.Responses
import SevlaMq.Protocol.ResponseRoundTrip
import SevlaMq.Protocol.Connection
import SevlaMq.Common.Config
import SevlaMq.Cluster.Leadership
import SevlaMq.Cluster.Model
import SevlaMq.Cluster.Step
import SevlaMq.Cluster.Epochs
import SevlaMq.Cluster.Authentic
import SevlaMq.Cluster.Fencing
import SevlaMq.Cluster.Contents
import SevlaMq.Cluster.Replication
import SevlaMq.Cluster.Matching
import SevlaMq.Cluster.Watermark
import SevlaMq.Cluster.Failover
import SevlaMq.Cluster.Fetch
import SevlaMq.Cluster.Serving
import SevlaMq.Cluster.Completion
import SevlaMq.Cluster.Concurrent
import SevlaMq.Cluster.Retry
import SevlaMq.Cluster.Truncation
import SevlaMq.Broker.Replica
import SevlaMq.Broker.CatchUp
import SevlaMq.Group.Coordinator
import SevlaMq.Group.Assignment
import SevlaMq.Group.Generations
import SevlaMq.Group.PartitionCounts
import SevlaMq.Group.OffsetFiles
import SevlaMq.Group.Offsets
import SevlaMq.Group.Independence
import SevlaMq.Group.Calls
import SevlaMq.Consumer.Model
import SevlaMq.Consumer.AtLeastOnce
import SevlaMq.Consumer.AtMostOnce
import SevlaMq.Broker.Topics
import SevlaMq.Broker.Registries
import SevlaMq.Broker.Leader
import SevlaMq.Broker.FollowerRecovery
import SevlaMq.Broker.LeadershipFile
import SevlaMq.Broker.RegistryCalls
import SevlaMq.Broker.TopicDirs
import SevlaMq.Broker.TopicRecovery
import SevlaMq.Protocol.EncoderErrors
import SevlaMq.Protocol.DecoderBounds
import SevlaMq.Storage.Pieces
import SevlaMq.Broker.FetchAnswer
import SevlaMq.Storage.Retained
import SevlaMq.Broker.LeaderMonitor
import SevlaMq.Broker.WaitingFetch
import SevlaMq.Consumer.RetryEnvelope
import SevlaMq.Consumer.RetryProducer
import SevlaMq.Consumer.Transparency
import SevlaMq.Lib.Logs
import SevlaMq.Broker.Growth
import SevlaMq.Client.Produce
import SevlaMq.Consumer.RetryDedup
import SevlaMq.Broker.RoundRobin
import SevlaMq.Cluster.Placement
import SevlaMq.Lib.Loop
import SevlaMq.Storage.DecodeBounds
import SevlaMq.Lib.QueueServer
import SevlaMq.Broker.StorageHandle
import SevlaMq.Lib.Waiters
import SevlaMq.Broker.Wakeups
import SevlaMq.Group.Sessions
import SevlaMq.Broker.ExactlyOnce
import SevlaMq.Lib.Session
import SevlaMq.Protocol.Calls
import SevlaMq.Storage.Reopening
import SevlaMq.Broker.AutomaticFailover
import SevlaMq.Lib.Exposition
import SevlaMq.Broker.Observability
import SevlaMq.Broker.Metrics
import SevlaMq.Lib.Grammar
import SevlaMq.Protocol.Grammar
import SevlaMq.Protocol.RequestGrammar
import SevlaMq.Protocol.ResponseGrammar
