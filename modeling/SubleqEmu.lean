import SubleqEmu.PageAllocatorModel
import SubleqEmu.PageAllocatorBitmap
import SubleqEmu.PageAllocatorOperations
import SubleqEmu.PageAllocatorRuns
import SubleqEmu.PageTableModel
import SubleqEmu.PageTableEntries
import SubleqEmu.PageTableRefinement
import SubleqEmu.DawnPagemapModel
import SubleqEmu.DawnPagemapInvariant
import SubleqEmu.DawnPagemapIsolation
import SubleqEmu.CpuControlHandshake
import SubleqEmu.RingBuffer
import SubleqEmu.GracePeriodModel
import SubleqEmu.GracePeriodSafety
import SubleqEmu.KeyboardModel
import SubleqEmu.MouseModel
import SubleqEmu.ScreenModel
import SubleqEmu.ScreenCursor
import SubleqEmu.ByteMemory
import SubleqEmu.CopyLoopModel
import SubleqEmu.CopyLoopMatch
import SubleqEmu.CopyLoopIteration
import SubleqEmu.CopyLoopRun
import SubleqEmu.CopyLoopShortcut
import SubleqEmu.BitTable
import SubleqEmu.StaticMapModel
import SubleqEmu.StaticMapTests
import SubleqEmu.Emitter
import SubleqEmu.MachineModel
import SubleqEmu.TranslatorCache
import SubleqEmu.TranslatorModel
import SubleqEmu.TranslatorEntries
import SubleqEmu.TranslatorSound
import SubleqEmu.TranslatorRegisters
import SubleqEmu.TranslatorStores
import SubleqEmu.SpannedWords
import SubleqEmu.TranslatorLoads
import SubleqEmu.TranslatorFields
import SubleqEmu.TranslatorResults
import SubleqEmu.TranslatorHolding
import SubleqEmu.TranslatorSpanned
import SubleqEmu.TranslatorChecks
import SubleqEmu.TranslatorOperation
import SubleqEmu.TranslatorInstruction
import SubleqEmu.WriteBuffer
import SubleqEmu.TranslatorBlock
import SubleqEmu.TranslatorRuns
import SubleqEmu.TranslatorExits
import SubleqEmu.TranslatorSoundness
import SubleqEmu.TranslatorBranches
import SubleqEmu.PageAllocatorSearch
import SubleqEmu.KernelHeapModel
import SubleqEmu.PageAllocatorMemory
import SubleqEmu.KernelHeapRoundTrip
import SubleqEmu.KernelHeapBytes
import SubleqEmu.KernelHeapRuns
import SubleqEmu.MousePosition
import SubleqEmu.MouseButtons
import SubleqEmu.IoStackDelivery
import SubleqEmu.CopyRoutines
import SubleqEmu.RedrawAgreement
import SubleqEmu.ScreenRedraw
import SubleqEmu.BlockTableLive
import SubleqEmu.CopyGuard
import SubleqEmu.BoundedRanking
import SubleqEmu.TopSamples
import SubleqEmu.Madt
import SubleqEmu.KeyboardHistory
import SubleqEmu.StaticHash
import SubleqEmu.EmitterBytes
import SubleqEmu.EmitterDecoding
import SubleqEmu.X86Processor
import SubleqEmu.EmitterProcessor
import SubleqEmu.EmittedWeight
import SubleqEmu.TranslatorWeights
import SubleqEmu.EmitterStores
import SubleqEmu.EmitterSizes
import SubleqEmu.BlockBuffersModel
import SubleqEmu.BlockBuffers
import SubleqEmu.GeneratorReturns
import SubleqEmu.TranslatorPins
import SubleqEmu.TranslatorTakes
import SubleqEmu.TranslatorUnaligned
import SubleqEmu.TranslatorPressure
import SubleqEmu.TranslatorAllocation
import SubleqEmu.TranslatorDemand
import SubleqEmu.InvalidationModel
import SubleqEmu.InvalidationLocks
import SubleqEmu.InvalidationSafety
import SubleqEmu.InvalidationRuns
import SubleqEmu.DispatcherInvariant
import SubleqEmu.DispatcherStores
import SubleqEmu.DispatcherTranslation
import SubleqEmu.DispatcherBlocks
import SubleqEmu.DispatcherCopies
import SubleqEmu.BudgetSimulation
import SubleqEmu.DispatcherSteps
import SubleqEmu.DispatcherProgress
import SubleqEmu.DispatcherExecution
import SubleqEmu.DispatcherRuns
import SubleqEmu.DispatcherSlices
import SubleqEmu.X86Assembly
import SubleqEmu.X86Execution
import SubleqEmu.BlockCodeModel
import SubleqEmu.BlockCodeLayout
import SubleqEmu.BlockCodeSteps
import SubleqEmu.BlockCodeBody
import SubleqEmu.BlockCodeExits
import SubleqEmu.BlockCodeEntry
import SubleqEmu.BlockCodeRuns
import SubleqEmu.BlockCodeTranslation
