import Vexa.MemoryTrace
import Vexa.SnapshotIsolation
import Vexa.PointerStore
import Vexa.PointerLoad
import Vexa.IndirectJump
import Vexa.MergeRecovery
import Vexa.PathRecovery
import Vexa.SymbolicExecution
import Vexa.PathConstraints
import Vexa.VirtualRecovery
import Vexa.ImageBase
import Vexa.InstructionFetch
import Vexa.LlvmAgreement
import Vexa.Simulation
import Vexa.MergeSimulation
import Vexa.RecoverySimulation
import Vexa.VirtualSimulation
import Vexa.VirtualTermination
import Vexa.Recompile
import Vexa.RecompiledRecovery
import Vexa.ConditionalMove
import Vexa.MultiAddress
import Vexa.ForkedState
import Vexa.SolvedRegisters
import Vexa.DispatchEvents
import Vexa.AddressAcceptance
import Vexa.Passes.MemoryScalarizer
import Vexa.Passes.StateCleanup
import Vexa.Passes.StateToAlloca
import Vexa.Passes.ByteSafety
import Vexa.Passes.PropagationRun
import Vexa.HyperCall
import Vexa.Intrinsics
import Vexa.ChoiceTerms
import Vexa.RemillIntrinsics
import Vexa.Passes.PassManager
import Vexa.Passes.ConstantPropagation
import Vexa.LastWriter
