import Adacc.Foundation.ModularRange
import Adacc.Foundation.ByteOrder
import Adacc.Foundation.SmtValue
import Adacc.Foundation.SmtTerm
import Adacc.Foundation.AssertionStack
import Adacc.Foundation.TextFile
import Adacc.Foundation.ByteText
import Adacc.Foundation.Selection
import Adacc.Foundation.Binary64
import Adacc.Foundation.TraverseOption
import Adacc.Foundation.Machine
import Adacc.Foundation.PartialMachine
import Adacc.Foundation.ForkingTraces
import Adacc.Foundation.ReferenceCounting
import Adacc.Foundation.DigitStrings
import Adacc.Foundation.Words
import Adacc.Runtime.Backend
import Adacc.SimpleBackend.Builders
import Adacc.SimpleBackend.InputBytes
import Adacc.Runtime.InputByteSource
import Adacc.Runtime.Shadow
import Adacc.Runtime.ShadowAlgorithms
import Adacc.Runtime.IteratorWalks
import Adacc.Runtime.RuntimeCommon
import Adacc.Runtime.PageEntries
import Adacc.Runtime.LibcWrappers
import Adacc.Runtime.SeekOffsets
import Adacc.Runtime.InputDescriptor
import Adacc.Runtime.StreamReads
import Adacc.SimpleBackend.PathConstraint
import Adacc.SimpleBackend.Z3Context
import Adacc.SimpleBackend.BuilderTerms
import Adacc.SimpleBackend.ReferenceCounts
import Adacc.SimpleBackend.TermLifetimes
import Adacc.Runtime.FlatShadow
import Adacc.Runtime.MemoryEvents
import Adacc.Runtime.FreshMemory
import Adacc.Runtime.MemoryValues
import Adacc.Runtime.StringFunctions
import Adacc.Runtime.CopyingWrappers
import Adacc.Runtime.WrapperConstraints
import Adacc.Runtime.ConcretizedResults
import Adacc.Runtime.ByteExtraction
import Adacc.Runtime.ReturnExpressions
import Adacc.Runtime.ShadowBytes
import Adacc.Runtime.Configuration
import Adacc.FuzzingHelper.AflMap
import Adacc.FuzzingHelper.ProcessTestcase
import Adacc.FuzzingHelper.ArchivedTestcases
import Adacc.FuzzingHelper.Commands
import Adacc.FuzzingHelper.ChildEnvironment
import Adacc.FuzzingHelper.MainLoop
import Adacc.FuzzingHelper.Scheduling
import Adacc.FuzzingHelper.Statistics
import Adacc.QsymBackend.PureConcolic
import Adacc.QsymBackend.History
import Adacc.QsymBackend.Persistence
import Adacc.QsymBackend.HistoryFiles
import Adacc.QsymBackend.Replay
import Adacc.QsymBackend.Novelty
import Adacc.QsymBackend.MoreHistory
import Adacc.QsymBackend.Exhaustion
import Adacc.QsymBackend.GarbageCollection
import Adacc.QsymBackend.Runtime
import Adacc.Util.PureConcolicExecution
import Adacc.Util.ImportedInputs
import Adacc.Util.Campaign
import Adacc.Compiler.CallProtocol
import Adacc.Compiler.ParameterPassing
import Adacc.Compiler.IR
import Adacc.Compiler.Symbolizer
import Adacc.Compiler.SymbolicExpressions
import Adacc.Compiler.Execution
import Adacc.Compiler.Handlers
import Adacc.Compiler.DataLayout
import Adacc.Compiler.Scalars
import Adacc.Compiler.TypedMemory
import Adacc.Compiler.Aggregates
import Adacc.Compiler.Denotation
import Adacc.Compiler.Phis
import Adacc.Compiler.Simulation
import Adacc.Compiler.Soundness
import Adacc.Compiler.Completeness
import Adacc.Compiler.Divergence
import Adacc.Compiler.Exploration
import Adacc.Compiler.MemoryIntrinsics
import Adacc.Compiler.Programs
import Adacc.Compiler.ProgramCode
import Adacc.Compiler.ProgramRuns
import Adacc.Compiler.ProgramSoundness
import Adacc.Compiler.ProgramExploration
import Adacc.Compiler.SymbolicComputation
import Adacc.Compiler.ShortCircuiting
import Adacc.Compiler.ShortCircuitingSource
import Adacc.Compiler.ShortCircuitingSound
import Adacc.Compiler.GetElementPtr
import Adacc.Compiler.GetElementPtrLoop
import Adacc.Compiler.GetElementPtrSound
import Adacc.Compiler.ValueForwarding
import Adacc.Compiler.AttachedExpressions
import Adacc.Compiler.ForwardedExpressions
import Adacc.KleeLibc.Strtol
