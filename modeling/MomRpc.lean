import MomRpc.Lib.Machine
import MomRpc.Domain.Transport
import MomRpc.Error
import MomRpc.Lib.Mailbox
import MomRpc.Transport.Memory
import MomRpc.Lib.History
import MomRpc.Transport.Theorems.Delivery
import MomRpc.Broker.Client
import MomRpc.Broker.Theorems.Client
import MomRpc.Broker.Theorems.Correlation
import MomRpc.Broker.Theorems.Response
import MomRpc.Broker.Theorems.Pending
import MomRpc.Broker.Theorems.Retrying
import MomRpc.Broker.Theorems.Attempts
import MomRpc.Broker.Budget
import MomRpc.Broker.Theorems.Budget
import MomRpc.Broker.Server
import MomRpc.Broker.Theorems.Dispatch
import MomRpc.Transport.Fanout
import MomRpc.Transport.Theorems.Eviction
import MomRpc.Transport.Mqtt
import MomRpc.Transport.Theorems.Mqtt
import MomRpc.Transport.Theorems.Wedge
import MomRpc.Transport.Theorems.MqttCalls
import MomRpc.Transport.Theorems.Restoration
import MomRpc.Transport.Theorems.Reconnect
import MomRpc.Broker.Network
import MomRpc.Broker.Theorems.Inbox
import MomRpc.Broker.Theorems.EndToEnd
import MomRpc.Broker.Theorems.Invocations
import MomRpc.Broker.Rpc
import MomRpc.Broker.Theorems.Rpc
import MomRpc.Broker.Theorems.Protocol
import MomRpc.Transport.Theorems.Blocking
import MomRpc.Broker.Theorems.Startup
import MomRpc.Broker.Theorems.Release
import MomRpc.Transport.Theorems.Suback
import MomRpc.Transport.Actor
import MomRpc.Transport.Amqp
import MomRpc.Transport.Dds
import MomRpc.Transport.Redis
import MomRpc.Transport.Theorems.Actor
import MomRpc.Transport.Calls
import MomRpc.Transport.Theorems.ActorCalls
import MomRpc.Transport.Service
import MomRpc.Transport.Theorems.Service
import MomRpc.Transport.Theorems.ActorService
import MomRpc.Transport.SubscriberMap
import MomRpc.Transport.Theorems.Live
import MomRpc.Transport.Theorems.MqttService
import MomRpc.Transport.Theorems.Callers
import MomRpc.Transport.Subscriptions
import MomRpc.Transport.MqttTransport
import MomRpc.Transport.Theorems.SubscriberMap
import MomRpc.Transport.Theorems.Removal
import MomRpc.Transport.Theorems.Closing
import MomRpc.Transport.Subscribing
import MomRpc.Transport.Theorems.Failing
import MomRpc.Transport.Theorems.Conservation
import MomRpc.Transport.Theorems.Ordering
import MomRpc.Transport.Theorems.Readers
import MomRpc.Transport.Theorems.ExactlyOnce
import MomRpc.Transport.Theorems.Answers
import MomRpc.Transport.Theorems.Reporting
import MomRpc.Transport.Theorems.Consumers
import MomRpc.Transport.Theorems.Consuming
import MomRpc.Broker.Builder
import MomRpc.Broker.Theorems.Queues
import MomRpc.Lib.Backoff
import MomRpc.Retry.Theorems.Loop
import MomRpc.Retry.Theorems.Completion
import MomRpc.Retry.Theorems.Safety
import MomRpc.Retry.Theorems.Schedule
import MomRpc.Broker.Publishing
import MomRpc.Broker.Theorems.Publishing
import MomRpc.Transport.PubSub
import MomRpc.Transport.Theorems.Recovery
import MomRpc.Transport.Broadcast
import MomRpc.Transport.Theorems.Refinement
import MomRpc.Lib.Json
import MomRpc.Lib.Json.Parser
import MomRpc.Transport.Wire
import MomRpc.Transport.Theorems.Wire
import MomRpc.Transport.Theorems.Isolation
import MomRpc.Broker.Shutdown
import MomRpc.Broker.Theorems.Shutdown
import MomRpc.Broker.Factories
import MomRpc.Broker.Theorems.Schemes
import MomRpc.Transport.Registry
import MomRpc.Transport.Theorems.Flushing
import MomRpc.Transport.Theorems.Unsubscribing
import MomRpc.Transport.Carrier
import MomRpc.Transport.Ordering
import MomRpc.Transport.Theorems.Carrier
import MomRpc.Transport.Theorems.Carriers
import MomRpc.Transport.Theorems.Receiving
import MomRpc.Transport.Theorems.Orderings
import MomRpc.Broker.Cluster
import MomRpc.Broker.Theorems.Cluster
import MomRpc.Broker.Theorems.Safety
import MomRpc.Broker.Theorems.Loops
import MomRpc.Broker.Theorems.Draining
import MomRpc.Broker.Theorems.Ending
import MomRpc.Broker.Theorems.Closing
import MomRpc.Broker.Theorems.Answering
import MomRpc.Broker.Theorems.Builder
import MomRpc.Broker.Theorems.Calls
import MomRpc.Broker.Theorems.Network
import MomRpc.Broker.Theorems.Server
import MomRpc.Lib.Binary
import MomRpc.Lib.Oneshot
import MomRpc.Lib.Text
import MomRpc.Retry
import MomRpc.Retry.Nanos
import MomRpc.Retry.Theorems.Exact
import MomRpc.Retry.Theorems.Lawful
import MomRpc.Transport.Theorems.Classification
import MomRpc.Transport.Theorems.Fanout
import MomRpc.Transport.Theorems.Memory
import MomRpc.Transport.Theorems.Turns
