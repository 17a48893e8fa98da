import PhpHll.Library.ByteMemory
import PhpHll.Library.PackedFields
import PhpHll.Library.RunLength
import PhpHll.Library.MaxSketch
import PhpHll.Library.CachedSketch
import PhpHll.Library.Machine
import PhpHll.Hash
import PhpHll.Sds
import PhpHll.Layout
import PhpHll.Dense
import PhpHll.RegisterSum
import PhpHll.SparseOpcodes
import PhpHll.SparseReaders
import PhpHll.SparseMeaning
import PhpHll.SparseAdd
import PhpHll.SparseEdit
import PhpHll.SparseBlocks
import PhpHll.SparseMergeLoop
import PhpHll.SparseAddAt
import PhpHll.SparseAddSpec
import PhpHll.Commands
import PhpHll.Representation
import PhpHll.Invariant
import PhpHll.CommandsSpec
import PhpHll.Operations
import PhpHll.Adding
import PhpHll.Encodings
import PhpHll.Reachability
import PhpHll.Merging
import PhpHll.CorruptReaders
import PhpHll.CorruptAdds
import PhpHll.Sums
import PhpHll.Promotion
import PhpHll.Failures
import PhpHll.NullHandles
import PhpHll.Library.MergePass
import PhpHll.NormalForm
import PhpHll.SparseNormal
import PhpHll.StaleAdds
import PhpHll.AddEffects
import PhpHll.Batches
import PhpHll.SparseSize
import PhpHll.PhpAdd
import PhpHll.BinarySafety
import PhpHll.UpdateFlags
import PhpHll.Library.Logged
import PhpHll.SparseAccess
import PhpHll.SparseBounds
import PhpHll.RegisterArray
import PhpHll.Library.BitMixing
import PhpHll.HashInjectivity
import PhpHll.Estimate
import PhpHll.LineReader
import PhpHll.HllCnt
import PhpHll.Library.Allocation
import PhpHll.SdsEdits
import PhpHll.SdsEditsSpec
import PhpHll.Library.Separated
import PhpHll.SdsSplit
import PhpHll.SdsRepr
import PhpHll.PhpCalls
import PhpHll.PhpSets
import PhpHll.HeldSets
import PhpHll.PhpRepresents
import PhpHll.PhpRefinement
import PhpHll.PhpSafety
import PhpHll.PhpChanges
import PhpHll.PhpSerialization
import PhpHll.Library.Numerals
import PhpHll.SdsNumbers
import PhpHll.SparseCapacity
import PhpHll.SelfTest
import PhpHll.DebugCommand
