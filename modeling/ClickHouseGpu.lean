import ClickHouseGpu.Lib.Probe
import ClickHouseGpu.MergeTree.MarkRanges
import ClickHouseGpu.MergeTree.KeyRange
import ClickHouseGpu.MergeTree.PKCondition
import ClickHouseGpu.MergeTree.PKConditionSoundness
import ClickHouseGpu.AggregateFunctions.UniquesHashSet
import ClickHouseGpu.Cuda.HyperLogLog
import ClickHouseGpu.Cuda.HostPinnedMemPool
import ClickHouseGpu.HashTables.Table
import ClickHouseGpu.HashTables.Resize
import ClickHouseGpu.HashTables.SetSemantics
import ClickHouseGpu.Lib.Checked
import ClickHouseGpu.Common.DateLUT
import ClickHouseGpu.Functions.FunctionsDateTime
import ClickHouseGpu.Lib.BlockFilter
import ClickHouseGpu.Columns.FilterRows
import ClickHouseGpu.Lib.ByteBuffer
import ClickHouseGpu.Cuda.StringsHashTable
import ClickHouseGpu.Cuda.StringsHashTableInvariant
import ClickHouseGpu.Cuda.StringsAggregator
import ClickHouseGpu.Lib.ChunkedStream
import ClickHouseGpu.IO.VarInt
import ClickHouseGpu.MergeTree.PartInfo
import ClickHouseGpu.Lib.OrderedMap
import ClickHouseGpu.MergeTree.ActiveDataPartSet
import ClickHouseGpu.Cuda.HandOff
import ClickHouseGpu.Lib.EscapeCode
import ClickHouseGpu.IO.WriteHelpers
import ClickHouseGpu.IO.ReadHelpers
import ClickHouseGpu.Cuda.StringsHashTableErrors
import ClickHouseGpu.Lib.KMerge
import ClickHouseGpu.DataStreams.MergingSorted
import ClickHouseGpu.DataStreams.MergingQueue
import ClickHouseGpu.AggregateFunctions.SequenceMatch
import ClickHouseGpu.Lib.ConsistentScheme
import ClickHouseGpu.Functions.ConsistentHashing
import ClickHouseGpu.Lib.FlatRegex
import ClickHouseGpu.Common.OptimizedRegularExpression
import ClickHouseGpu.Functions.Like
import ClickHouseGpu.Lib.LexOrder
import ClickHouseGpu.MergeTree.PKConditionLike
import ClickHouseGpu.Common.CityHash
import ClickHouseGpu.Cuda.CityHash
import ClickHouseGpu.AggregateFunctions.QuantileTiming
import ClickHouseGpu.Lib.Interleaving
import ClickHouseGpu.Cuda.CudaSmallSet
import ClickHouseGpu.Cuda.CudaHyperLogLogCounter
import ClickHouseGpu.Common.CombinedCardinalityEstimator
import ClickHouseGpu.AggregateFunctions.QuantileTDigest
import ClickHouseGpu.DataStreams.SummingSorted
import ClickHouseGpu.Lib.LastMax
import ClickHouseGpu.DataStreams.ReplacingSorted
import ClickHouseGpu.HashTables.TwoLevel
import ClickHouseGpu.HashTables.Serialization
import ClickHouseGpu.DataStreams.CollapsingSorted
import ClickHouseGpu.IO.JSONString
import ClickHouseGpu.MergeTree.Parallelograms
import ClickHouseGpu.Columns.CudaColumnString
import ClickHouseGpu.Lib.AlignedWord
import ClickHouseGpu.Cuda.ReadUnaligned
import ClickHouseGpu.Cuda.SingleChunkCount
import ClickHouseGpu.Lib.EvenSplit
import ClickHouseGpu.Columns.ParallelMemcpy
import ClickHouseGpu.DataStreams.MergingSortedOutput
import ClickHouseGpu.Cuda.UniqAddBulk
