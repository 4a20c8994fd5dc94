import NpuCompiler.Memory.BestFit
import NpuCompiler.Memory.ReservedRanges
import NpuCompiler.Memory.PartitionerRuns
import NpuCompiler.Memory.FeasibilityQueries
import NpuCompiler.Memory.LinearScanAtomicity
import NpuCompiler.Control.ConflictOrder
import NpuCompiler.Control.ControlEdgeDeps
import NpuCompiler.Bitc.EncoderReuse
import NpuCompiler.Bitc.SparseRoundTrip
import NpuCompiler.Barrier.LinearExtension
import NpuCompiler.Barrier.SingleWaitTermination
import NpuCompiler.Barrier.MutatorRuns
import NpuCompiler.Barrier.LegalizationSlots
import NpuCompiler.Memory.LoopConflicts
import NpuCompiler.Schedule.StallExactness
import NpuCompiler.Schedule.PrefetchOrder
import NpuCompiler.Barrier.PageAssignment
import NpuCompiler.Const.MoveSubView
import NpuCompiler.Const.FusedLists
import NpuCompiler.Tiling.YuvPartition
import NpuCompiler.Tiling.TileEquivalence
import NpuCompiler.Const.SparseDecode
import NpuCompiler.Const.FuseSubView
import NpuCompiler.Bitc.BlockCost
import NpuCompiler.StorageElement.PaddingTiles
import NpuCompiler.Schedule.RollBack
import NpuCompiler.Barrier.SimplifySchedule
import NpuCompiler.Barrier.WlmReuse
import NpuCompiler.Barrier.SharedBarriers
import NpuCompiler.Const.DimsOrderCode
import NpuCompiler.Const.MemPermuteOptimized
import NpuCompiler.Const.SwizzleTransform
import NpuCompiler.Memory.DmaAddresses
import NpuCompiler.Const.PadWithZeroCopies
import NpuCompiler.Const.MoveReshape
import NpuCompiler.Const.AffineReshapeAxis
import NpuCompiler.Barrier.LinearizeBatches
import NpuCompiler.Tiling.ReduceTile
import NpuCompiler.Const.MemIndices
import NpuCompiler.Memory.AlignedBuffers
import NpuCompiler.Memory.StrideReqs
import NpuCompiler.Const.MergedPermutation
import NpuCompiler.Tiling.PadTiles
import NpuCompiler.StorageElement.DilatedConvAttr
import NpuCompiler.StorageElement.UpsamplingAttr
import NpuCompiler.Barrier.NonWlmLegalization
import NpuCompiler.Barrier.MergeBarriers
