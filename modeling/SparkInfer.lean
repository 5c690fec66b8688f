import SparkInfer.Alloc.Segments
import SparkInfer.Alloc.Swa
import SparkInfer.Alloc.Window
import SparkInfer.Radix.Isolation
import SparkInfer.Radix.Accounting
import SparkInfer.Radix.Events
import SparkInfer.Radix.PageOwners
import SparkInfer.Unified.SessionRefs
import SparkInfer.Unified.MatchBoundary
import SparkInfer.Unified.RequestLocks
import SparkInfer.Sched.IgnoreEos
import SparkInfer.Sched.Reserve
import SparkInfer.Sched.Mixed
import SparkInfer.Router.HashTreeMirror
import SparkInfer.Eplb.Elastic
import SparkInfer.Gateway.Runs
import SparkInfer.Gateway.Registry
import SparkInfer.Gateway.ManualPolicy
import SparkInfer.Mamba.Runs
import SparkInfer.Disagg.StagingRing
import SparkInfer.Streaming.Flight
import SparkInfer.Streaming.RequestTree
import SparkInfer.Streaming.Reuse
import SparkInfer.Beam.Runs
import SparkInfer.Server.Runs
import SparkInfer.Server.RegexLength
import SparkInfer.Indexer.Bridge
