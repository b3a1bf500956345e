import Toa.Lib.Run
import Toa.Lib.LastWriter
import Toa.Storage.Record
import Toa.Storage.Entity
import Toa.Storage.Collection
import Toa.Storage.OutboxImage
import Toa.Storage.Reruns
import Toa.Storage.PostImage
import Toa.Storage.GetOrCreate
import Toa.Storage.Entries
import Toa.Storage.Migrations
import Toa.Operation.Once
import Toa.Lib.Join
import Toa.Outbox.Rows
import Toa.Lib.Assoc
import Toa.Outbox.Process
import Toa.Outbox.Delivery
import Toa.Outbox.Closing
import Toa.Streams.Protocol
import Toa.Streams.Replica
import Toa.Lib.Sorted
import Toa.Streams.Windows
import Toa.Lib.Infix
import Toa.Exposition.Criteria
import Toa.RTD.Tree
import Toa.RTD.Merge
import Toa.RTD.Templates
import Toa.RTD.Takers
import Toa.Realtime.Stream
import Toa.Realtime.Hub
import Toa.Realtime.Reader
import Toa.Realtime.Recovery
import Toa.Realtime.Tokens
import Toa.Cadence.Dispatcher
import Toa.Cadence.Metronome
import Toa.Call.Trail
import Toa.Call.Safety
import Toa.Configuration.Values
import Toa.Configuration.Aspect
import Toa.Configuration.Latest
import Toa.Connector.Graph
import Toa.Connector.Lifecycle
import Toa.Connector.Teardown
import Toa.Convergence.Regions
import Toa.Convergence.Converged
import Toa.Convergence.Merge
import Toa.Identity.Otp
import Toa.Identity.Tokens
import Toa.Identity.Grants
import Toa.Lib.Scope
import Toa.Identity.Roles
import Toa.Exposition.Input
import Toa.Auth.Directive
import Toa.Auth.Authorization
import Toa.Auth.Asked
import Toa.Auth.Described
import Toa.Auth.Contained
import Toa.Cadence.Occurrence
import Toa.RPC.Names
import Toa.Exposition.Discovery
import Toa.MCP.Tools
import Toa.Exposition.Served
import Toa.Lib.Fork
import Toa.Continuity.Fingerprint
import Toa.Continuity.Key
import Toa.Continuity.Attempt
import Toa.Continuity.Answers
import Toa.Continuity.Uninterrupted
import Toa.Continuity.Expiry
import Toa.Chronicles.Contract
import Toa.Chronicles.Recorder
import Toa.Lib.Numeral
import Toa.Lib.Words
import Toa.Chronicles.Forms
import Toa.Chronicles.Address
import Toa.Identity.Keys
import Toa.Identity.Basic
import Toa.Throttle.Quotas
import Toa.Throttle.Sync
import Toa.Lib.Utf16
import Toa.Call.Identity
import Toa.Throttle.Keys
import Toa.Exposition.Grouping
import Toa.Storage.Transition
import Toa.Call.Restrict
import Toa.Contract.Component
import Toa.Storage.Match
import Toa.OpenSpan.Registry
import Toa.Conveyor.Batches
import Toa.Storages.Storage
import Toa.Storages.FileSystem
import Toa.Realtime.Positions
import Toa.Realtime.Opening
import Toa.Cadence.Pulse
import Toa.RTD.Factory
import Toa.Lib.Uri
import Toa.RTD.Live
import Toa.RPC.Forked
import Toa.Lib.JsonSchema
import Toa.Exposition.Introspection
import Toa.RPC.Params
import Toa.Call.Reply
import Toa.MCP.Schemas
import Toa.MCP.Replies
import Toa.OpenSpan.Collection
import Toa.OpenSpan.OtlpMetrics
import Toa.Generic.Merge
import Toa.Call.Receiver
import Toa.Introspection.Process
import Toa.Introspection.Fleet
import Toa.OpenSpan.Exporter
import Toa.Lib.Bucket
import Toa.Atomicity.Meter
import Toa.Lib.Utf8
import Toa.Lib.Lines
import Toa.Http.Reply
import Toa.Http.Envelope
import Toa.Generic.Convolve
import Toa.Generic.Shards
import Toa.Amqp.Serving
import Toa.Amqp.Closing
import Toa.Amqp.Resending
import Toa.Exposition.Branches
import Toa.Octets.Reports
import Toa.Octets.Executed
import Toa.Octets.Halting
