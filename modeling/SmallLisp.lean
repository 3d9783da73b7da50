import SmallLisp.Main
import SmallLisp.IR.Machine
import SmallLisp.Proofs.LinearCode
import SmallLisp.Proofs.BuilderLayout
import SmallLisp.Proofs.DefinitionSites
import SmallLisp.Proofs.Emission
import SmallLisp.Proofs.LoweringSteps
import SmallLisp.Proofs.LoweringEmits
import SmallLisp.Proofs.CompiledModule
import SmallLisp.Proofs.EmissionShape
import SmallLisp.Proofs.CodeChecks
import SmallLisp.Proofs.EmissionChecks
import SmallLisp.Proofs.CompiledChecks
import SmallLisp.Proofs.ReadTrees
import SmallLisp.Proofs.CompiledSource
import SmallLisp.Proofs.Meaning
import SmallLisp.Proofs.Realization
import SmallLisp.Proofs.CodeSteps
import SmallLisp.Proofs.Simulation
import SmallLisp.Proofs.CallSimulation
import SmallLisp.Proofs.Safety
import SmallLisp.Proofs.Environment
import SmallLisp.Proofs.Interpretation
import SmallLisp.Proofs.SilentRuns
import SmallLisp.Proofs.Termination
import SmallLisp.Proofs.Depth
import SmallLisp.Proofs.MainProgram
import SmallLisp.Proofs.Correctness
import SmallLisp.Proofs.UndefinedDivision
import SmallLisp.Proofs.Reference
import SmallLisp.Proofs.AcceptedText
import SmallLisp.Proofs.Paths
import SmallLisp.Proofs.ControlFlow
import SmallLisp.Proofs.WellFormed
import SmallLisp.Proofs.FaultlessSteps
import SmallLisp.Proofs.Acceptance
import SmallLisp.Proofs.BareTrees
import SmallLisp.Proofs.Grammar
import SmallLisp.Proofs.LocatedGrammar
import SmallLisp.Proofs.GrammarSoundness
import SmallLisp.Proofs.GrammarCompleteness
import SmallLisp.Proofs.SpanFidelity
import SmallLisp.Proofs.PrintedTrees
import SmallLisp.Proofs.EmissionUnique
import SmallLisp.Proofs.Linkage
import SmallLisp.Proofs.NameReading
import SmallLisp.Proofs.PrintedLines
import SmallLisp.Proofs.LocalNames
import SmallLisp.Proofs.DefinitionOrder
import SmallLisp.Proofs.OwnCode
import SmallLisp.Proofs.Sessions
import SmallLisp.Proofs.Retargeting
import SmallLisp.Proofs.Recasting
import SmallLisp.Proofs.TargetIndependence
import SmallLisp.Proofs.SpanIndependence
import SmallLisp.Proofs.ReadingFaults
import SmallLisp.Proofs.ErrorSpans
import SmallLisp.Proofs.FunctionRules
import SmallLisp.Proofs.Concatenation
import SmallLisp.Proofs.PrintedInstructions
import SmallLisp.Proofs.PrintedModules
import SmallLisp.Proofs.CodeOrder
import SmallLisp.Proofs.SplitFold
import SmallLisp.Proofs.ArgumentCode
import SmallLisp.Proofs.SplitArithmetic
import SmallLisp.Proofs.BuilderScript
import SmallLisp.Proofs.BuilderRuns
import SmallLisp.Proofs.CallHeads
import SmallLisp.Proofs.ReadingPlaces
import SmallLisp.Proofs.ReaderCalls
import SmallLisp.Proofs.ByteCursors
import SmallLisp.Proofs.DefiniteFaults
import SmallLisp.Proofs.NameTokens
import SmallLisp.Proofs.LineStructure
import SmallLisp.Proofs.LabelReferences
import SmallLisp.Proofs.LineStarts
import SmallLisp.Proofs.Underlines
import SmallLisp.Proofs.LineScan
import SmallLisp.Proofs.OperandOrder
import SmallLisp.Proofs.ArithmeticCalls
import SmallLisp.Proofs.FrameEffects
import SmallLisp.Proofs.Declarations
import SmallLisp.Proofs.OutputPaths
import SmallLisp.Proofs.ScopeHistories
import SmallLisp.Proofs.BuilderGrowth
import SmallLisp.Proofs.LoweringContract
