import Ekg.Lib.FirstWrite
import Ekg.Lib.IntType
import Ekg.Lib.LastWrite
import Ekg.Lib.ListSet
import Ekg.Lib.Mutex
import Ekg.Lib.Promise
import Ekg.Lib.SharedPtr
import Ekg.Lib.Split
import Ekg.Lib.Steps
import Ekg.Common.Broadcaster
import Ekg.Common.ProgramOptions
import Ekg.Common.Configuration
import Ekg.Common.ThreadPool
import Ekg.Common.PoolThreads
import Ekg.Common.PoolTasks
import Ekg.Common.PoolProgress
import Ekg.Common.PoolWait
import Ekg.Common.PoolInner
import Ekg.Common.PoolLoops
import Ekg.Common.PoolFutures
import Ekg.Command.Json
import Ekg.Command.MapToCommand
import Ekg.Command.CMDController
import Ekg.Command.ConsumeLoop
import Ekg.Command.CommitOffsets
import Ekg.Data.ChannelRepository
import Ekg.Data.RepositoryThreads
import Ekg.Epics.Channel
import Ekg.Epics.ServiceManager
import Ekg.Epics.Scan
import Ekg.Epics.Handlers
import Ekg.Epics.ManagerThreads
import Ekg.Pubsub.IPublisher
import Ekg.Pubsub.RDKafkaPublisher
import Ekg.Pubsub.Flush
import Ekg.Pubsub.PushMessages
import Ekg.Pubsub.MessageOwnership
import Ekg.Pubsub.DeliveryReports
import Ekg.Pubsub.RDKafkaSubscriber
import Ekg.Pubsub.Subscription
import Ekg.Pubsub.GetMsg
import Ekg.Pubsub.TimeBudget
import Ekg.Node.AcquireWorker
import Ekg.Node.NodeConfiguration
import Ekg.Node.NodeController
import Ekg.Node.WorkerResolver
import Ekg.Node.Serial
import Ekg.Node.Protocols
import Ekg.Node.Concurrent
import Ekg.Node.SubmissionOrder
import Ekg.Node.MonitorEvents
import Ekg.Node.Threads
import Ekg.Node.Progress
import Ekg.Node.TopicLists
import Ekg.Node.Redelivery
import Ekg.Node.Unsubscribed
import Ekg.Node.Delivery
import Ekg.Node.Activation
import Ekg.Node.WorkerLifetime
import Ekg.Gateway
import Ekg.Lifecycle.Stop
import Ekg.Lifecycle.Ownership
import Ekg.Lifecycle.Teardown
import Ekg.Lifecycle.Restart
