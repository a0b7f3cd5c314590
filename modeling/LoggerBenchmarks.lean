import LoggerBenchmarks.LabelledRuns
import LoggerBenchmarks.BacktrackingRegex
import LoggerBenchmarks.PythonText
import LoggerBenchmarks.PosixPaths
import LoggerBenchmarks.OrderStatistics
import LoggerBenchmarks.LatencyHarness
import LoggerBenchmarks.LatencyPercentiles
import LoggerBenchmarks.LatencyWork
import LoggerBenchmarks.LatencyStartBarrier
import LoggerBenchmarks.BinlogBackendDrain
import LoggerBenchmarks.FmtlogBackendDrain
import LoggerBenchmarks.BenchmarkRunner
import LoggerBenchmarks.ResultFileParser
import LoggerBenchmarks.LatencyPatterns
import LoggerBenchmarks.LatencyRoundTrip
import LoggerBenchmarks.LatencyAttribution
import LoggerBenchmarks.BinaryRounding
import LoggerBenchmarks.InsertionDict
import LoggerBenchmarks.LatencyTable
import LoggerBenchmarks.LatencyTableRows
import LoggerBenchmarks.LatencyMeans
import LoggerBenchmarks.RegexLocality
import LoggerBenchmarks.BackendTable
import LoggerBenchmarks.CheckoutRoot
import LoggerBenchmarks.CheckoutRootTriggers
import LoggerBenchmarks.FileTrees
import LoggerBenchmarks.GlobPatterns
import LoggerBenchmarks.StatefulPrograms
import LoggerBenchmarks.LineEndings
import LoggerBenchmarks.TextStreams
import LoggerBenchmarks.VendorManifest
import LoggerBenchmarks.VendorWorld
import LoggerBenchmarks.EolRestoring
import LoggerBenchmarks.EolContainment
import LoggerBenchmarks.VendorStaging
import LoggerBenchmarks.SyncContainment
import LoggerBenchmarks.VendorSync
import LoggerBenchmarks.CloneCaches
import LoggerBenchmarks.ManifestFrame
import LoggerBenchmarks.StagedTree
import LoggerBenchmarks.StagingRuns
import LoggerBenchmarks.PatchCapture
import LoggerBenchmarks.RecordedPatches
import LoggerBenchmarks.SyncRecovery
import LoggerBenchmarks.ResyncFixpoint
import LoggerBenchmarks.StableSorting
import LoggerBenchmarks.ThroughputTable
import LoggerBenchmarks.ReportNumbering
import LoggerBenchmarks.LineEndingAlgebra
import LoggerBenchmarks.MinimalDiffs
import LoggerBenchmarks.HeadLookups
import LoggerBenchmarks.CaptureRuns
import LoggerBenchmarks.CaptureRoundTrip
import LoggerBenchmarks.SurrogateEscape
import LoggerBenchmarks.IndexListing
import LoggerBenchmarks.ThroughputRoundTrip
import LoggerBenchmarks.BoostBootstrap
import LoggerBenchmarks.FailureAtomicity
import LoggerBenchmarks.BipBuffer
import LoggerBenchmarks.FmtlogRing
import LoggerBenchmarks.FmtlogRingProgress
import LoggerBenchmarks.FmtlogPoll
import LoggerBenchmarks.BinlogQueue
import LoggerBenchmarks.ListUpdates
import LoggerBenchmarks.BinlogSession
import LoggerBenchmarks.BinlogTransport
import LoggerBenchmarks.ByteReaders
import LoggerBenchmarks.BinlogEntries
import LoggerBenchmarks.BinlogSegmentedMap
import LoggerBenchmarks.BinlogEventStream
import LoggerBenchmarks.BinlogRecording
import LoggerBenchmarks.Monitors
import LoggerBenchmarks.SpdlogQueue
import LoggerBenchmarks.SpdlogPool
import LoggerBenchmarks.SpdlogShutdown
