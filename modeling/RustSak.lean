import RustSak.Library.Machine
import RustSak.Library.BigEndian
import RustSak.Library.CommitLog
import RustSak.Memo.Store
import RustSak.Memo.DiskStore
import RustSak.Memo.MemoryStore
import RustSak.Memo.CompositeStore
import RustSak.Memo.Agreement
import RustSak.Memo.ReadYourWrites
import RustSak.Memo.Handles
import RustSak.Memo.Durability
import RustSak.Memo.Registry
import RustSak.Memo.Teardown
import RustSak.Memo.Flight
import RustSak.Memo.Overlap
import RustSak.Memo.FlightSafety
import RustSak.Memo.GetOrCompute
import RustSak.Memo.ComputeOnce
import RustSak.Memo.ComputeFails
import RustSak.Memo.ComputeEnds
import RustSak.Memo.ComputeRank
import RustSak.Memo.SingleCompute
import RustSak.Fetch.Partial
import RustSak.Fetch.Response
import RustSak.Fetch.Download
import RustSak.Fetch.Publish
import RustSak.Fetch.Digest
import RustSak.Fetch.Etag
import RustSak.O11y.Record
import RustSak.O11y.Spans
import RustSak.O11y.Export
import RustSak.Memo.Deadline
import RustSak.Fs.SafePath
import RustSak.Fs.Tree
import RustSak.Library.Word64
import RustSak.Fs.Extract
import RustSak.Fs.Ceilings
import RustSak.O11y.Pipeline
import RustSak.O11y.Drain
import RustSak.Ai.Hub
import RustSak.Ai.RuntimeLibrary
import RustSak.Ai.Marker
import RustSak.Ai.Unpack
import RustSak.Ai.Whole
import RustSak.Library.Attempt
import RustSak.Ai.Install
import RustSak.Ai.Present
import RustSak.Ai.Idempotent
import RustSak.Ai.Files
import RustSak.Ai.FilesKept
import RustSak.O11y.Fields
import RustSak.O11y.Tracing
import RustSak.O11y.SpanTree
import RustSak.O11y.Walks
import RustSak.O11y.Bridge
import RustSak.Memo.Records
import RustSak.Memo.Retain
import RustSak.Memo.Sweep
import RustSak.Memo.KeyBuilder
import RustSak.Fs.EntryName
import RustSak.Fs.UserDir
import RustSak.Fs.Archive
import RustSak.Fs.SkippedLinks
import RustSak.Fs.Adapters
import RustSak.Fs.ExtractRoot
import RustSak.Fs.Leftover
import RustSak.Library.FileTree
import RustSak.Fs.CopyMove
import RustSak.Fs.MovedAsCopied
import RustSak.Library.Hex
import RustSak.O11y.Metric.Tags
import RustSak.O11y.Metric.Instruments
import RustSak.O11y.Metric.ReadBack
import RustSak.O11y.Metric.Buckets
import RustSak.O11y.Metric.SeriesCap
import RustSak.O11y.Endpoint
import RustSak.O11y.Traceparent
import RustSak.O11y.Owned
import RustSak.O11y.Attributes
import RustSak.O11y.Batches
import RustSak.Fs.Progress
import RustSak.Library.StableSort
import RustSak.Fs.DirModes
import RustSak.Library.Words
import RustSak.Fetch.Links
import RustSak.Fetch.LinkGrammar
import RustSak.Fetch.LinkLookup
import RustSak.O11y.Metric.SeriesIdentity
import RustSak.O11y.Gate
import RustSak.Ai.FetchVerified
import RustSak.Ai.TrustedFiles
import RustSak.Ai.Progress
import RustSak.Ai.Session
import RustSak.Ai.Paged
import RustSak.O11y.Dropped
import RustSak.Library.Slice
import RustSak.Library.Unicode
import RustSak.Image.Icc
import RustSak.Image.Container
import RustSak.Image.Cut
import RustSak.Image.ProbeFile
import RustSak.Image.Boxes
import RustSak.Image.MetaBox
import RustSak.Library.Base64
import RustSak.Library.Checked
import RustSak.Library.SemVer
import RustSak.Library.Lines
import RustSak.Library.Beneath
import RustSak.O11y.Base64
import RustSak.O11y.Takes
import RustSak.Image.Fit
import RustSak.Image.Chunks
import RustSak.Image.IccBounded
import RustSak.Image.ContainerBounded
import RustSak.Github.Versions
import RustSak.Sysinfo.PciIds
import RustSak.Tui.CursorReply
import RustSak.Tui.Screen
import RustSak.Tui.Widgets
import RustSak.Fs.Recorded
import RustSak.Fs.CreatedDirs
import RustSak.Library.Grouping
import RustSak.O11y.Otlp
import RustSak.Fetch.Retry
import RustSak.Fetch.Send
import RustSak.Library.Watch
import RustSak.Fetch.Handle
import RustSak.O11y.Enrichment
import RustSak.O11y.Resource
import RustSak.O11y.Lifecycle
import RustSak.O11y.Metric.Registry
import RustSak.O11y.Lossless
import RustSak.O11y.Payloads
import RustSak.O11y.Ids
import RustSak.Tui.Live
import RustSak.Library.Distinct
import RustSak.Library.DepthFirst
import RustSak.Ai.Providers
import RustSak.Ai.Tuning
import RustSak.Ai.Fallback
import RustSak.Fs.Listing
import RustSak.Fetch.Client
import RustSak.Ai.Runtime
import RustSak.Fs.Trash
import RustSak.O11y.Instrument
import RustSak.Crypto.Streamed
import RustSak.Ai.Sources
import RustSak.Library.BufWriter
import RustSak.Image.Encode
import RustSak.Image.EncodeFile
import RustSak.Ai.Restart
