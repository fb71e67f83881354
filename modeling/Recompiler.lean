import Recompiler.Arm.Listing
import Recompiler.Arm.Pattern
import Recompiler.Block.Agreement
import Recompiler.Main
import Recompiler.PowerPC.Assemble
import Recompiler.PowerPC.Mnemonic
import Recompiler.PowerPC.Scrambled
import Recompiler.Proofs.CacheCoherence
import Recompiler.Proofs.CacheHistory
import Recompiler.Proofs.CacheSteps
import Recompiler.Proofs.CodeRun
import Recompiler.Proofs.EmitLogic
import Recompiler.Proofs.RegisterPool
import Recompiler.Proofs.SlotCache
import Recompiler.Proofs.StateCells
import Recompiler.Proofs.GuestHomes
import Recompiler.Proofs.Simulation
import Recompiler.Proofs.Emission
import Recompiler.Proofs.CarrySteps
import Recompiler.Proofs.Operands
import Recompiler.Proofs.Lower.Add
import Recompiler.Proofs.Lower.Compare
import Recompiler.Proofs.Lower.Logical
import Recompiler.Proofs.BranchPiece
import Recompiler.Proofs.Lower.Multiply
import Recompiler.Proofs.Lower.AddExtended
import Recompiler.Proofs.FoldedValues
import Recompiler.Proofs.WordRotation
import Recompiler.Proofs.Lower.Rotate
import Recompiler.Proofs.Lower.Shift
import Recompiler.Proofs.Lower.Conversion
import Recompiler.Proofs.RoutineCall
import Recompiler.Proofs.VectorSlots
import Recompiler.Proofs.CallSteps
import Recompiler.Proofs.Lower.FloatArith
import Recompiler.Proofs.Lower.FloatMove
import Recompiler.Proofs.Lower.FloatCompare
import Recompiler.Proofs.Lower.Reciprocal
import Recompiler.Proofs.GuestStep
import Recompiler.Proofs.Liveness
import Recompiler.Proofs.SingleRounding
import Recompiler.Proofs.SingleKnowledge
import Recompiler.Proofs.CacheLocks
import Recompiler.Proofs.Lower.Family
import Recompiler.Proofs.HostUnit
import Recompiler.Proofs.Tracking
import Recompiler.Proofs.Boundary
import Recompiler.Proofs.BlockCode
import Recompiler.Proofs.BlockRun
import Recompiler.Proofs.BlockSafety
import Recompiler.Proofs.ReferenceRun
import Recompiler.Proofs.BlockEquivalence
import Recompiler.Proofs.DeferredState
import Recompiler.Proofs.SingleSoundness
import Recompiler.Proofs.ConstantFolding
import Recompiler.Proofs.EmittedCode
import Recompiler.Proofs.LoweringCode
import Recompiler.Proofs.BlockAccounts
import Recompiler.Proofs.SlotValues
import Recompiler.Proofs.IntegerResults
import Recompiler.Proofs.SingleMemory
import Recompiler.Proofs.ExactValues
import Recompiler.Proofs.LoadsAndStores
import Recompiler.Proofs.NanOperands
import Recompiler.Proofs.NativeConversion
import Recompiler.Proofs.QuietCode
import Recompiler.Proofs.ConversionBlock
import Recompiler.Proofs.CompilationTotal
import Recompiler.Proofs.FloatSimulation
import Recompiler.Proofs.HeldCarry
import Recompiler.Proofs.CodeSize
import Recompiler.Proofs.NegatedResults
import Recompiler.Proofs.CallFrame
import Recompiler.Proofs.PoolExhaustion
import Recompiler.Proofs.OperandRounding
import Recompiler.Proofs.LabelResolution
import Recompiler.Proofs.StepEffects
import Recompiler.Proofs.ConditionForm
import Recompiler.Proofs.ValidatedLayout
import Recompiler.Proofs.HostFootprint
import Recompiler.Proofs.WordFields
import Recompiler.Proofs.AssembledWords
