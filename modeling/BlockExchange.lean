import BlockExchange.Authoriser
import BlockExchange.Batch
import BlockExchange.Bytes
import BlockExchange.Cid.Basic
import BlockExchange.Cid.Prefix
import BlockExchange.Connection
import BlockExchange.Counters
import BlockExchange.Delivery
import BlockExchange.Dispatch
import BlockExchange.Duration
import BlockExchange.Exchange.Basic
import BlockExchange.Exchange.Broadcast
import BlockExchange.Exchange.Drive
import BlockExchange.Exchange.Fetch
import BlockExchange.Exchange.Receive
import BlockExchange.FarEnd
import BlockExchange.Frame
import BlockExchange.HashedBlock
import BlockExchange.HaveTable
import BlockExchange.Journal
import BlockExchange.Message.Basic
import BlockExchange.Message.Decode
import BlockExchange.Message.Encode
import BlockExchange.Multihash
import BlockExchange.Network
import BlockExchange.Outbox
import BlockExchange.PeerId
import BlockExchange.PeerRegistry
import BlockExchange.Pipe
import BlockExchange.Proofs.Absorption
import BlockExchange.Proofs.Accounting
import BlockExchange.Proofs.ExchangeRun
import BlockExchange.Proofs.Identifiers
import BlockExchange.Proofs.Opacity
import BlockExchange.Proofs.Packing
import BlockExchange.Proofs.Serving
import BlockExchange.Proofs.Tickets
import BlockExchange.Proofs.WantHistory
import BlockExchange.Protobuf.Error
import BlockExchange.Protobuf.Key
import BlockExchange.Protobuf.Reader
import BlockExchange.Protobuf.Writer
import BlockExchange.Settings
import BlockExchange.Sha256
import BlockExchange.Store.AnyStore
import BlockExchange.Store.Basic
import BlockExchange.Store.BlockWrite
import BlockExchange.Store.Directory
import BlockExchange.Store.DirectoryStore
import BlockExchange.Store.Memory
import BlockExchange.Store.Scripted
import BlockExchange.Stream.GrowingBuffer
import BlockExchange.Stream.ReadAhead
import BlockExchange.Stream.Reader
import BlockExchange.Stream.WriteBehind
import BlockExchange.Stream.Writer
import BlockExchange.Table
import BlockExchange.Text.Base32
import BlockExchange.Text.Base58
import BlockExchange.Text.Hex
import BlockExchange.Text.Padding
import BlockExchange.Text.Utf8
import BlockExchange.Toml.Document
import BlockExchange.Toml.Number
import BlockExchange.Toml.Quoted
import BlockExchange.Toml.Value
import BlockExchange.Total
import BlockExchange.Trace.Event
import BlockExchange.Trace.Log
import BlockExchange.Trace.Timestamp
import BlockExchange.Varint
import BlockExchange.Want
import BlockExchange.WantTable
import BlockExchange.Proofs.CidBytes
import BlockExchange.Proofs.InboundCost
import BlockExchange.Proofs.PackedSizes
import BlockExchange.Proofs.FieldRuns
import BlockExchange.Proofs.ReplySizes
import BlockExchange.Proofs.RoundTrip
import BlockExchange.Proofs.Broadcasting
import BlockExchange.Proofs.StoreContent
import BlockExchange.Proofs.TwoNodes
import BlockExchange.Proofs.Chunking
import BlockExchange.Proofs.Truncation
import BlockExchange.Proofs.TextForms
import BlockExchange.Proofs.FileNames
import BlockExchange.Proofs.DirectoryWrites
import BlockExchange.Proofs.StoreRefinement
import BlockExchange.Proofs.HonestReplies
import BlockExchange.Proofs.WantChanges
import BlockExchange.Proofs.Telling
import BlockExchange.Proofs.Lookups
import BlockExchange.Proofs.Fetching
import BlockExchange.Proofs.Asking
import BlockExchange.Proofs.WantlistSizes
import BlockExchange.Proofs.WantsOnWire
import BlockExchange.Proofs.TraceFiles
import BlockExchange.Proofs.TraceLines
import BlockExchange.Proofs.DriveSteps
import BlockExchange.Proofs.RegistryHistory
import BlockExchange.Proofs.BytesInOrder
import BlockExchange.Proofs.DriverAccount
import BlockExchange.Proofs.DriverOutput
import BlockExchange.Proofs.Dispatching
import BlockExchange.Proofs.PayloadOrder
import BlockExchange.Proofs.WriteStages
import BlockExchange.Proofs.ConcurrentWrites
import BlockExchange.Proofs.FullPipes
import BlockExchange.Proofs.Standstill
import BlockExchange.Proofs.FewestMessages
import BlockExchange.Proofs.Cancelling
import BlockExchange.Proofs.WantAges
import BlockExchange.Proofs.Distribution
import BlockExchange.Proofs.FailedReplies
import BlockExchange.Proofs.Prefixes
import BlockExchange.Proofs.HaveHistory
import BlockExchange.Proofs.ReceivedBytes
import BlockExchange.Proofs.Requesters
import BlockExchange.Proofs.Rotation
import BlockExchange.Proofs.TomlStrings
import BlockExchange.Proofs.TomlSections
import BlockExchange.Proofs.SavedSettings
import BlockExchange.Proofs.PendingWants
