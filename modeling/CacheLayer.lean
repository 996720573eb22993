import CacheLayer.Aggregate
import CacheLayer.Compression.Algorithm
import CacheLayer.Compression.Bits
import CacheLayer.Compression.Codec
import CacheLayer.Compression.Crc32
import CacheLayer.Compression.Decoder
import CacheLayer.Compression.Feed
import CacheLayer.Compression.Deflate.Decode
import CacheLayer.Compression.Deflate.Encode
import CacheLayer.Compression.Deflate.PrefixCode
import CacheLayer.Compression.Deflate.Tables
import CacheLayer.Compression.Factoring
import CacheLayer.Compression.Gzip
import CacheLayer.Compression.Lz4.Decode
import CacheLayer.Compression.Lz4.Encode
import CacheLayer.Compression.XxHash
import CacheLayer.Compression.Zstd.BackwardBits
import CacheLayer.Compression.Zstd.Block
import CacheLayer.Compression.Zstd.Encode
import CacheLayer.Compression.Zstd.Frame
import CacheLayer.Compression.Zstd.Fse
import CacheLayer.Compression.Zstd.LiteralCode
import CacheLayer.Compression.Zstd.Literals
import CacheLayer.Compression.Zstd.Sequences
import CacheLayer.Config
import CacheLayer.Decimal.Shortest
import CacheLayer.Error
import CacheLayer.Json.Fault
import CacheLayer.Json.Form
import CacheLayer.Json.Printer
import CacheLayer.Json.Reader
import CacheLayer.Json.Token
import CacheLayer.Json.Value
import CacheLayer.Loading.Delegate
import CacheLayer.Loading.Flights
import CacheLayer.Loading.Loader
import CacheLayer.Loading.Refresh
import CacheLayer.Loading.Resolver
import CacheLayer.Local
import CacheLayer.Promise
import CacheLayer.Proofs.Loading.Guarded
import CacheLayer.Proofs.Loading.Chores
import CacheLayer.Proofs.Loading.Invariant
import CacheLayer.Proofs.Loading.Resolving
import CacheLayer.Proofs.Loading.Run
import CacheLayer.Remote.Cache
import CacheLayer.Remote.Key
import CacheLayer.Remote.Server
import CacheLayer.Remote.Transcoder
import CacheLayer.Scenario.Backing
import CacheLayer.Scenario.Clock
import CacheLayer.Scenario.Play
import CacheLayer.Scenario.Script
import CacheLayer.Scenario.Time
import CacheLayer.Scenario.World
import CacheLayer.Span
import CacheLayer.Stamped
import CacheLayer.Store.Basic
import CacheLayer.Store.Entry
import CacheLayer.Store.Recency
import CacheLayer.Store.Stats
import CacheLayer.Sweep
import CacheLayer.Text.Blank
import CacheLayer.Text.Decimal
import CacheLayer.Text.Quoted
import CacheLayer.Text.Unprintable
import CacheLayer.Update
import CacheLayer.Proofs.Loading.Settled
import CacheLayer.Proofs.Loading.SingleFlight
import CacheLayer.Proofs.Loading.Talk
import CacheLayer.Proofs.Loading.Departures
import CacheLayer.Proofs.Loading.Reading
import CacheLayer.Proofs.Loading.SingleRead
import CacheLayer.Proofs.Gathering
import CacheLayer.Proofs.Loading.BulkRead
import CacheLayer.Proofs.Loading.Reloading
import CacheLayer.Proofs.Loading.Overlap
import CacheLayer.Proofs.Loading.Sites
import CacheLayer.Proofs.Store.Lineup
import CacheLayer.Proofs.Store.Recency
import CacheLayer.Proofs.Store.Sweeping
import CacheLayer.Proofs.Store.Refinement
import CacheLayer.Proofs.Store.Versions
import CacheLayer.Proofs.Store.Inclusion
import CacheLayer.Proofs.Store.Roomy
import CacheLayer.Proofs.Store.Remembered
import CacheLayer.Proofs.Store.Consistency
import CacheLayer.Proofs.Store.Accounting
import CacheLayer.Proofs.Store.SweepsBetween
import CacheLayer.Proofs.Update.Traffic
import CacheLayer.Proofs.Update.Observed
import CacheLayer.Proofs.Update.NoLostUpdate
import CacheLayer.Proofs.Remote.Tokens
import CacheLayer.Proofs.Remote.Exchange
import CacheLayer.Proofs.Remote.WriteOnce
import CacheLayer.Proofs.Loading.Backed
import CacheLayer.Proofs.Loading.WriteBack
import CacheLayer.Proofs.Loading.Reloaded
import CacheLayer.Proofs.Loading.Clocked
import CacheLayer.Proofs.Loading.AtOnce
import CacheLayer.Proofs.Loading.Trigger
import CacheLayer.Proofs.Loading.Recast
import CacheLayer.Proofs.Store.Recast
import CacheLayer.Proofs.Loading.Layered
import CacheLayer.Proofs.Loading.Origin
import CacheLayer.Proofs.Loading.Transparent
import CacheLayer.Proofs.Loading.NoRedundantLoad
import CacheLayer.Proofs.Compression.Feeds
import CacheLayer.Proofs.Compression.Bounded
import CacheLayer.Proofs.Compression.DeflateStreams
import CacheLayer.Proofs.Compression.GzipMembers
import CacheLayer.Proofs.Compression.ZstdFrames
import CacheLayer.Proofs.Compression.RoundTrip
import CacheLayer.Proofs.Json.Strings
import CacheLayer.Proofs.Compression.Lz4
import CacheLayer.Proofs.Compression.QuotedRun
import CacheLayer.Proofs.Remote.BulkRead
import CacheLayer.Proofs.Remote.ReadBack
import CacheLayer.Proofs.Remote.Ledger
import CacheLayer.Proofs.Remote.Contract
import CacheLayer.Proofs.Promises.Annals
import CacheLayer.Proofs.Promises.FirstOutcome
import CacheLayer.Proofs.Remote.Wire
import CacheLayer.Proofs.Json.Integers
import CacheLayer.Proofs.Json.Values
import CacheLayer.Proofs.Compression.Factoring
import CacheLayer.Proofs.Compression.Lz4Blocks
import CacheLayer.Proofs.Remote.Transcoding
import CacheLayer.Proofs.Remote.Expiry
import CacheLayer.Proofs.Loading.Failing
import CacheLayer.Proofs.Loading.Aftermath
import CacheLayer.Proofs.Loading.FailedReload
import CacheLayer.Proofs.Aggregation
import CacheLayer.Proofs.Compression.Progress
import CacheLayer.Proofs.Compression.HostileInput
import CacheLayer.Proofs.Json.PlainText
import CacheLayer.Proofs.Remote.WrongCodec
import CacheLayer.Proofs.Store.Each
import CacheLayer.Proofs.Sweep.Timetable
import CacheLayer.Proofs.Sweep.Staleness
import CacheLayer.Proofs.Store.LastTouch
import CacheLayer.Proofs.Text.Trimming
import CacheLayer.Proofs.Text.Numerals
import CacheLayer.Proofs.Compression.Names
import CacheLayer.Proofs.Settings
