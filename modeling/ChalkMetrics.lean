import ChalkMetrics.Lib.Bins
import ChalkMetrics.Lib.CeilLog
import ChalkMetrics.Lib.HashTable
import ChalkMetrics.Lib.Run
import ChalkMetrics.Float
import ChalkMetrics.Sketch.HashMap
import ChalkMetrics.Sketch.UddSketch
import ChalkMetrics.Sketch.Compaction
import ChalkMetrics.Sketch.Exact
import ChalkMetrics.Sketch.Represents
import ChalkMetrics.Sketch.Quantile
import ChalkMetrics.Sketch.Merge
import ChalkMetrics.Aggregator.Slots
import ChalkMetrics.Aggregator.StripedMap
import ChalkMetrics.Aggregator.Bags
import ChalkMetrics.Aggregator.PlainMap
import ChalkMetrics.Aggregator.Conserve
import ChalkMetrics.Aggregator.Separation
import ChalkMetrics.Lib.Delimited
import ChalkMetrics.Export.Display
import ChalkMetrics.Export.Prometheus
import ChalkMetrics.Export.LabelEncoding
import ChalkMetrics.Export.Statsd
import ChalkMetrics.Export.TagEncoding
import ChalkMetrics.Aggregator.Ledger
import ChalkMetrics.Export.Readings
import ChalkMetrics.Export.Cumulative
import ChalkMetrics.Client.Marks
import ChalkMetrics.Client.Worker
import ChalkMetrics.Client.Shutdown
import ChalkMetrics.Client.Global
import ChalkMetrics.Export.Uds
import ChalkMetrics.Client.RawPoints
import ChalkMetrics.Export.Families
import ChalkMetrics.Sketch.Reachable
import ChalkMetrics.Sketch.Termination
import ChalkMetrics.Lib.MidRank
import ChalkMetrics.Sketch.Rank
import ChalkMetrics.Sketch.MergeError
import ChalkMetrics.Export.Histogram
import ChalkMetrics.Export.Percentiles
import ChalkMetrics.Lib.Omission
import ChalkMetrics.Lib.PrefixCode
import ChalkMetrics.Lib.Tally
import ChalkMetrics.Export.LabelNames
import ChalkMetrics.Macros.HashStream
import ChalkMetrics.Aggregator.Identity
import ChalkMetrics.Sketch.Association
import ChalkMetrics.Client.FailedInit
import ChalkMetrics.Lib.Parsing
import ChalkMetrics.Macros.Syntax
import ChalkMetrics.Macros.Grammar
import ChalkMetrics.Macros.MetricsGrammar
import ChalkMetrics.Lib.OnceCells
import ChalkMetrics.Macros.Namespaces
import ChalkMetrics.Macros.FieldNames
import ChalkMetrics.Macros.Expand
import ChalkMetrics.Export.Generated
import ChalkMetrics.Aggregator.Linear
import ChalkMetrics.Aggregator.Room
import ChalkMetrics.Aggregator.Since
import ChalkMetrics.Client.Returns
import ChalkMetrics.Sketch.Summary
import ChalkMetrics.Client.Manual
import ChalkMetrics.Export.Receiver
import ChalkMetrics.Client.Wire
import ChalkMetrics.Export.Scraper
import ChalkMetrics.Client.GlobalReturns
