import OmniCompiler.Arithmetic.Alignment
import OmniCompiler.Arithmetic.BlockCyclic
import OmniCompiler.Arithmetic.Chunking
import OmniCompiler.Arithmetic.FoldExcept
import OmniCompiler.Arithmetic.ForLoop
import OmniCompiler.Arithmetic.Indexing
import OmniCompiler.Arithmetic.MachineInt
import OmniCompiler.Arithmetic.MixedRadix
import OmniCompiler.Arithmetic.Progression
import OmniCompiler.Arithmetic.Box
import OmniCompiler.Arithmetic.Climb
import OmniCompiler.Arithmetic.Memo
import OmniCompiler.Arithmetic.OwnedCount
import OmniCompiler.Arithmetic.Odometer
import OmniCompiler.Arithmetic.Runs
import OmniCompiler.Arithmetic.RowMajor
import OmniCompiler.Arithmetic.SmallFin
import OmniCompiler.Memory.Blocks
import OmniCompiler.Memory.Section
import OmniCompiler.Memory.ElementOrder
import OmniCompiler.Memory.SortedArray
import OmniCompiler.Memory.ShareRounds
import OmniCompiler.Memory.RingQueue
import OmniCompiler.Memory.Rotation
import OmniCompiler.Memory.Datatype
import OmniCompiler.Memory.Packing
import OmniCompiler.Memory.FailFastSet
import OmniCompiler.Memory.Regions
import OmniCompiler.Memory.Buckets
import OmniCompiler.Xmp.MathFunction
import OmniCompiler.Xmp.Template
import OmniCompiler.Xmp.Distribution
import OmniCompiler.Xmp.Ownership
import OmniCompiler.Xmp.OwnerFlag
import OmniCompiler.Xmp.Align
import OmniCompiler.Xmp.ArrayLayout
import OmniCompiler.Xmp.Index
import OmniCompiler.Xmp.LoopSchedule
import OmniCompiler.Xmp.BlockSchedule
import OmniCompiler.Xmp.CyclicSchedule
import OmniCompiler.Xmp.BlockCyclicSchedule
import OmniCompiler.Xmp.SectionDesc
import OmniCompiler.Xmp.CommonSection
import OmniCompiler.Xmp.CommSet
import OmniCompiler.Xmp.NodesRank
import OmniCompiler.Xmp.OwnerSection
import OmniCompiler.Xmp.ScaledSection
import OmniCompiler.Xmp.OwnerRefSection
import OmniCompiler.Xmp.GmoveCommList
import OmniCompiler.Xmp.GmoveRows
import OmniCompiler.Xmp.GmovePack
import OmniCompiler.Xmp.GmoveAgreement
import OmniCompiler.Xmp.GmoveRanks
import OmniCompiler.Xmp.GmoveExchange
import OmniCompiler.Xmp.ArrayBuilt
import OmniCompiler.Xmp.AsyncTable
import OmniCompiler.Xmp.AsyncMap
import OmniCompiler.Xmp.AsyncRun
import OmniCompiler.Xmp.GmoveOpt
import OmniCompiler.Xmp.Shadow
import OmniCompiler.Xmp.LocalIdx
import OmniCompiler.Xmp.NodesNamed
import OmniCompiler.Xmp.NodesChain
import OmniCompiler.Xmp.NodesCoord
import OmniCompiler.Xmp.NodesHeap
import OmniCompiler.Xmp.TaskDesc
import OmniCompiler.Xmp.CoarraySection
import OmniCompiler.Xmp.CoarrayLocal
import OmniCompiler.Xmp.ArrayParts
import OmniCompiler.Xmp.ShadowFull
import OmniCompiler.Concurrency.Interleaving
import OmniCompiler.Xmp.PostWait
import OmniCompiler.Xmp.SyncImages
import OmniCompiler.Xmp.GasnetLock
import OmniCompiler.Xmp.SortMerge
import OmniCompiler.Xmp.Sort
import OmniCompiler.Xmp.CoarrayRemote
import OmniCompiler.Xmp.BasicSection
import OmniCompiler.Xmp.CommIntervals
import OmniCompiler.Xmp.AlignedParts
import OmniCompiler.Xmp.AlignedBlockCyclic
import OmniCompiler.Xmp.ArrayCells
import OmniCompiler.Xmp.ArrayAddr
import OmniCompiler.Xmp.TemplatePart
import OmniCompiler.Xmp.TemplateTask
import OmniCompiler.Xmp.GmoveTriplet
import OmniCompiler.Xmp.CoarrayContiguous
import OmniCompiler.Xmp.CoarrayStride
import OmniCompiler.Xmp.StrideMemcpy
import OmniCompiler.Xmp.NodesCount
import OmniCompiler.Xmp.NodesPart
import OmniCompiler.Xmp.NodesTranslate
import OmniCompiler.Xmp.ArrayOwner
import OmniCompiler.Xmp.GblockMap
import OmniCompiler.Xmp.Reflect
import OmniCompiler.Xmp.ShadowDim
import OmniCompiler.Xmp.SortPivot
import OmniCompiler.Xmp.SortAccess
import OmniCompiler.Xmp.GasnetHsl
import OmniCompiler.Xmp.LockObject
import OmniCompiler.Xmp.PostWaitNode
import OmniCompiler.Omp.StaticBlock
import OmniCompiler.Omp.StaticChunk
import OmniCompiler.Omp.Single
import OmniCompiler.Omp.Barrier
import OmniCompiler.Omp.NestLock
import OmniCompiler.Omp.DynamicSched
import OmniCompiler.Omp.DynamicTeam
import OmniCompiler.Omp.DynamicRelease
import OmniCompiler.Omp.Ordered
import OmniCompiler.Omp.Reduction
import OmniCompiler.Omp.StaticCyclic
import OmniCompiler.Concurrency.Holding
import OmniCompiler.Omp.ForkJoin
import OmniCompiler.Omp.ForkJoinOwner
import OmniCompiler.Omp.ForkJoinTeam
import OmniCompiler.Omp.ForkJoinRun
import OmniCompiler.Omp.ForkJoinLive
import OmniCompiler.Acc.DataTable
import OmniCompiler.Acc.Session
import OmniCompiler.Acc.PresentTable
import OmniCompiler.Acc.Lifetime
import OmniCompiler.Xmpf.CoarrayAxes
import OmniCompiler.Xmpf.CoarrayPut
import OmniCompiler.Xmpf.CoarrayGet
import OmniCompiler.Xmpf.CoarrayGetsub
import OmniCompiler.Xmpf.CoarrayAlloc
import OmniCompiler.Xmpf.ChunkTable
import OmniCompiler.Xmpf.MallocHistory
import OmniCompiler.FFront.PowerInt
import OmniCompiler.FFront.ExpvReduce
import OmniCompiler.Text.MaximalMunch
import OmniCompiler.CBack.Tokens
import OmniCompiler.CBack.Writer
import OmniCompiler.CBack.Types
import OmniCompiler.CBack.Statements
import OmniCompiler.CBack.StatementGrammar
import OmniCompiler.CBack.StatementText
import OmniCompiler.CBack.StatementRoundTrip
import OmniCompiler.Acc.CopyData
import OmniCompiler.Xmpf.CoarraySpread
import OmniCompiler.Xmpf.Cosubscripts
import OmniCompiler.Xmpf.InitialImages
import OmniCompiler.CFront.UnescChar
import OmniCompiler.CFront.LiteralBody
import OmniCompiler.CFront.UnescItems
import OmniCompiler.CFront.UnescExact
import OmniCompiler.CBack.ExternVar
import OmniCompiler.Acc.GpuPool
import OmniCompiler.Text.Parens
import OmniCompiler.CBack.AttrDecl
import OmniCompiler.CBack.AttrGuard
import OmniCompiler.CFront.ConstExpr
import OmniCompiler.CFront.HashTable
import OmniCompiler.CFront.EntryMap
import OmniCompiler.CFront.HashRun
import OmniCompiler.CFront.HashSearch
import OmniCompiler.Exc.XobjectIterator
import OmniCompiler.Xmpf.CoarrayChunk
