import Octet.Main
import Octet.Source.Place
import Octet.Proofs.Tree.Shape
import Octet.Proofs.Result
import Octet.Proofs.Typing.Rules
import Octet.Proofs.Typing.Checks
import Octet.Proofs.Typing.Inference
import Octet.Proofs.Typing.Statements
import Octet.Proofs.Typing.Decision
import Octet.Proofs.Evaluation.Basic
import Octet.Proofs.Evaluation.Safety
import Octet.Proofs.Lowering.Emission
import Octet.Proofs.Lowering.Limits
import Octet.Proofs.Z80.Execution
import Octet.Proofs.Evaluation.Results
import Octet.Proofs.Lowering.Activation
import Octet.Proofs.Lowering.Simulation
import Octet.Proofs.Lowering.Execution
import Octet.Proofs.Lowering.Labels
import Octet.Proofs.Lowering.Preservation
import Octet.Proofs.Grammar.Rules
import Octet.Proofs.Grammar.Soundness
import Octet.Proofs.Grammar.Completeness
import Octet.Proofs.Grammar.Decision
import Octet.Proofs.Token.Lexemes
import Octet.Proofs.Token.Rows
import Octet.Proofs.Token.Neighbours
import Octet.Proofs.Token.Layout
import Octet.Proofs.Token.Tiling
import Octet.Proofs.Token.Patterns
import Octet.Proofs.Tree.WellFormed
import Octet.Proofs.Tree.Rendering
import Octet.Proofs.Tree.RoundTrip
import Octet.Proofs.Tree.Positions
import Octet.Proofs.Tree.Indentation
import Octet.Proofs.Typing.Order
import Octet.Proofs.Lowering.Linking
import Octet.Proofs.Grammar.Stopping
import Octet.Proofs.Diagnostic.Location
import Octet.Proofs.Diagnostic.Report
import Octet.Proofs.Tree.Renaming
import Octet.Proofs.Typing.Renaming
import Octet.Proofs.Lowering.Renaming
import Octet.Proofs.Token.Spacing
import Octet.Proofs.Typing.Modularity
import Octet.Proofs.Grammar.Likeness
import Octet.Proofs.Lowering.Spacing
import Octet.Proofs.Grammar.Hints
import Octet.Proofs.Grammar.Lockstep
import Octet.Proofs.Grammar.Viability
import Octet.Proofs.Shell.Path
import Octet.Proofs.Shell.FileTree
import Octet.Proofs.Shell.Command
import Octet.Proofs.Token.Offences
import Octet.Proofs.Typing.Scopes
import Octet.Proofs.Lowering.States
import Octet.Proofs.Lowering.Heights
import Octet.Proofs.Lowering.Balance
import Octet.Proofs.Lowering.Slots
import Octet.Proofs.Typing.Entries
import Octet.Proofs.Typing.Literals
import Octet.Proofs.Grammar.Iterations
import Octet.Proofs.Grammar.Progress
