import LamScope.Execution
import LamScope.FileTree
import LamScope.Main
import LamScope.Proofs.Reading.ProgramDerivation
import LamScope.Proofs.Reading.ProgramReadback
import LamScope.Proofs.Scope.Records
import LamScope.Proofs.Scope.Unused
import LamScope.Proofs.Scope.Congruence
import LamScope.Proofs.Reading.Gives
import LamScope.Proofs.Reading.Nesting
import LamScope.Proofs.Scope.Independence
import LamScope.Proofs.Scope.Limits
import LamScope.Proofs.Scope.Declarations
import LamScope.Proofs.Reading.RoughProgram
import LamScope.Proofs.Reading.Termination
import LamScope.Proofs.Scope.Distances
import LamScope.Proofs.Scope.Levels
import LamScope.Proofs.Scope.Chains
import LamScope.Proofs.Scope.Returns
import LamScope.Proofs.Reading.FaultLimit
import LamScope.Proofs.Analysis.Appended
import LamScope.Proofs.Analysis.Places
import LamScope.Proofs.Analysis.Execution
import LamScope.Proofs.Token.Tokenization
import LamScope.Proofs.Token.Strays
import LamScope.Proofs.Command.Agreement
import LamScope.Proofs.Reading.Onward
import LamScope.Proofs.Reading.Recovery
import LamScope.Proofs.Scope.Hygiene
import LamScope.Proofs.Diagnostic.Excerpts
import LamScope.Proofs.Scope.History
import LamScope.Proofs.Diagnostic.RowsAndReport
import LamScope.Proofs.Diagnostic.Alignment
import LamScope.Proofs.Diagnostic.Colours
import LamScope.Proofs.Suggest.Nearest
import LamScope.Proofs.Command.Arguments
import LamScope.Proofs.Command.FirstFaults
import LamScope.Proofs.Text.Positions
import LamScope.Proofs.Suggest.Metric
