import RegisterCode.VersionCache
import RegisterCode.Compile
import RegisterCode.Prototype.Listing
import RegisterCode.Proofs.NameResolution
import RegisterCode.Proofs.ProgramMeaning
import RegisterCode.Proofs.BuilderChanges
import RegisterCode.Proofs.RegisterDiscipline
import RegisterCode.Proofs.TableReferences
import RegisterCode.Proofs.RegisterUse
import RegisterCode.Proofs.LoweredFunctions
import RegisterCode.Proofs.LoweredOperands
import RegisterCode.Proofs.LoweredConstructs
import RegisterCode.Proofs.OperandBounds
import RegisterCode.Proofs.OpenUpvalues
import RegisterCode.Proofs.ChunkReader
import RegisterCode.Proofs.WordCodec
import RegisterCode.Proofs.ChunkRoundTrip
import RegisterCode.Proofs.LineRenaming
import RegisterCode.Proofs.LocatedLowering
import RegisterCode.Proofs.SourceLines
import RegisterCode.Proofs.DefiniteWrites
import RegisterCode.Proofs.TrackedFunctions
import RegisterCode.Proofs.TrackedExpressions
import RegisterCode.Proofs.TrackedStatements
import RegisterCode.Proofs.TrackedPrograms
import RegisterCode.Proofs.ClosedFunctions
import RegisterCode.Proofs.EmissionOutcomes
import RegisterCode.Proofs.LoopExits
import RegisterCode.Proofs.FailedOperations
import RegisterCode.Proofs.LoopEffects
import RegisterCode.Proofs.ClosedLoops
import RegisterCode.Proofs.FunctionOutline
import RegisterCode.Proofs.NestingSteps
import RegisterCode.Proofs.NestedFunctions
import RegisterCode.Proofs.PoolHistory
import RegisterCode.Proofs.StrippedChunks
import RegisterCode.Proofs.LocalRanges
import RegisterCode.Proofs.LoweringRuns
import RegisterCode.Proofs.RegisterFrames
import RegisterCode.Proofs.ExpressionFrame
import RegisterCode.Proofs.JumpDistances
import RegisterCode.Proofs.NestedRegisters
import RegisterCode.Proofs.DeadBranches
import RegisterCode.Proofs.LeftOperands
import RegisterCode.Proofs.ShortOperands
import RegisterCode.Proofs.ScopeHistory
import RegisterCode.Proofs.ConstantText
import RegisterCode.Proofs.StampedLines
import RegisterCode.Proofs.LineRanges
import RegisterCode.Proofs.OpenSections
import RegisterCode.Proofs.LoweringContract
