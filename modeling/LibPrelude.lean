import LibPrelude.Async.Jobs
import LibPrelude.Async.Thread
import LibPrelude.Common.Address
import LibPrelude.Common.Gets
import LibPrelude.Common.Hash
import LibPrelude.Common.HashRuns
import LibPrelude.Common.Lists
import LibPrelude.Common.LogicalLines
import LibPrelude.Common.Multiline
import LibPrelude.Common.Paths
import LibPrelude.Config.Calls
import LibPrelude.Config.Deletion
import LibPrelude.Config.Lines
import LibPrelude.Config.Store
import LibPrelude.Config.Strip
import LibPrelude.Config.Totality
import LibPrelude.Criteria.BrokenDownTime
import LibPrelude.Criteria.BtimeDates
import LibPrelude.Criteria.BtimeMatch
import LibPrelude.Criteria.BtimeText
import LibPrelude.Criteria.CloneRuns
import LibPrelude.Criteria.Clones
import LibPrelude.Criteria.Existence
import LibPrelude.Criteria.Expansion
import LibPrelude.Criteria.Forest
import LibPrelude.Criteria.Lexer
import LibPrelude.Criteria.Negation
import LibPrelude.Criteria.Parser
import LibPrelude.Criteria.Quoted
import LibPrelude.Criteria.Reading
import LibPrelude.Criteria.Session
import LibPrelude.Criteria.Storage
import LibPrelude.Criteria.Store
import LibPrelude.Criteria.Texts
import LibPrelude.Criteria.Value
import LibPrelude.Criteria.ValueList
import LibPrelude.Failover.Queue
import LibPrelude.Failover.Recovery
import LibPrelude.Failover.Rollback
import LibPrelude.Failover.Runs
import LibPrelude.Failover.Store
import LibPrelude.General.Base64
import LibPrelude.General.Blocks
import LibPrelude.General.Bytes
import LibPrelude.General.Compare
import LibPrelude.General.Decimal
import LibPrelude.General.Formula
import LibPrelude.General.Grouping
import LibPrelude.General.Keyed
import LibPrelude.General.Lexer
import LibPrelude.General.Memory
import LibPrelude.General.Progress
import LibPrelude.General.Ranked
import LibPrelude.General.Resolution
import LibPrelude.General.Resume
import LibPrelude.General.Ring
import LibPrelude.General.Slots
import LibPrelude.General.Split
import LibPrelude.Ident
import LibPrelude.Idmef.AdditionalData
import LibPrelude.Idmef.Calendar
import LibPrelude.Idmef.Cast
import LibPrelude.Idmef.Clone
import LibPrelude.Idmef.Copy
import LibPrelude.Idmef.DataOrder
import LibPrelude.Idmef.DataText
import LibPrelude.Idmef.Decoding
import LibPrelude.Idmef.DestroyChild
import LibPrelude.Idmef.Integers
import LibPrelude.Idmef.ListChild
import LibPrelude.Idmef.Literals
import LibPrelude.Idmef.Match
import LibPrelude.Idmef.MessageChunks
import LibPrelude.Idmef.MessageId
import LibPrelude.Idmef.MessageRead
import LibPrelude.Idmef.MessageReceived
import LibPrelude.Idmef.MessageRelay
import LibPrelude.Idmef.MessageRoundTrip
import LibPrelude.Idmef.MessageWrite
import LibPrelude.Idmef.NtpStamp
import LibPrelude.Idmef.NtpTables
import LibPrelude.Idmef.Object
import LibPrelude.Idmef.Operator
import LibPrelude.Idmef.Path
import LibPrelude.Idmef.PathFailure
import LibPrelude.Idmef.PathGrammar
import LibPrelude.Idmef.PathKeyRuns
import LibPrelude.Idmef.PathKeyed
import LibPrelude.Idmef.PathParse
import LibPrelude.Idmef.PathReading
import LibPrelude.Idmef.PathSet
import LibPrelude.Idmef.PathStep
import LibPrelude.Idmef.PathStore
import LibPrelude.Idmef.PathWalk
import LibPrelude.Idmef.Primitive
import LibPrelude.Idmef.Schema
import LibPrelude.Idmef.TimeOrder
import LibPrelude.Idmef.TimeText
import LibPrelude.Idmef.ValueCast
import LibPrelude.Idmef.ValueCopy
import LibPrelude.Idmef.ValueRead
import LibPrelude.Idmef.ValueType
import LibPrelude.Idmef.ValueWrite
import LibPrelude.Io.Delimited
import LibPrelude.Io.Forward
import LibPrelude.Json.Integers
import LibPrelude.Json.Strings
import LibPrelude.Message.Absorb
import LibPrelude.Message.Backends
import LibPrelude.Message.Basic
import LibPrelude.Message.Emit
import LibPrelude.Message.Frames
import LibPrelude.Message.Framing
import LibPrelude.Message.Get
import LibPrelude.Message.Read
import LibPrelude.Message.Resumption
import LibPrelude.Message.Retry
import LibPrelude.Message.Safety
import LibPrelude.Message.Send
import LibPrelude.Message.Write
import LibPrelude.Options.Arguments
import LibPrelude.Options.Permutation
import LibPrelude.Options.Queue
import LibPrelude.Options.RoundTrip
import LibPrelude.Options.Tree
import LibPrelude.Options.Wide
import LibPrelude.Pool.Attempts
import LibPrelude.Pool.Broadcast
import LibPrelude.Pool.Channels
import LibPrelude.Pool.ConnectionString
import LibPrelude.Pool.Counters
import LibPrelude.Pool.Deaths
import LibPrelude.Pool.Delivery
import LibPrelude.Pool.Descriptors
import LibPrelude.Pool.Flushes
import LibPrelude.Pool.Membership
import LibPrelude.Pool.Operations
import LibPrelude.Pool.Polling
import LibPrelude.Pool.Receiving
import LibPrelude.Pool.Sends
import LibPrelude.Pool.State
import LibPrelude.Pool.Traffic
import LibPrelude.Pool.Waiting
import LibPrelude.String.Append
import LibPrelude.String.Borrowed
import LibPrelude.String.Buffer
import LibPrelude.String.Calls
import LibPrelude.String.Contents
import LibPrelude.String.Invariant
import LibPrelude.String.Operations
import LibPrelude.String.Runs
import LibPrelude.String.Setters
import LibPrelude.String.Sharing
import LibPrelude.String.State
import LibPrelude.Timer.Order
import LibPrelude.Timer.State
import LibPrelude.Timer.WakeUp
import LibPrelude.Unicode
