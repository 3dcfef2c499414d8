import LambdaCalculus.Main
import LambdaCalculus.Proofs.Settling
import LambdaCalculus.Proofs.Term.Filling
import LambdaCalculus.Proofs.Term.Occurrences
import LambdaCalculus.Proofs.Term.Path
import LambdaCalculus.Proofs.Term.Nesting
import LambdaCalculus.Proofs.Term.Contraction
import LambdaCalculus.Proofs.Evaluation
import LambdaCalculus.Proofs.Scope
import LambdaCalculus.Proofs.Term.Lexical
import LambdaCalculus.Proofs.Program.Grammar
import LambdaCalculus.Proofs.Program.Reading
import LambdaCalculus.Proofs.Program.Recognition
import LambdaCalculus.Proofs.Program.Meaning
import LambdaCalculus.Proofs.Program.Loading
import LambdaCalculus.Proofs.Program.Spelling
import LambdaCalculus.Proofs.Rendering
import LambdaCalculus.Proofs.LetSequence
import LambdaCalculus.Proofs.Named
import LambdaCalculus.Proofs.Simulation
import LambdaCalculus.Proofs.Term.Combinator
import LambdaCalculus.Proofs.Counting
import LambdaCalculus.Proofs.Arithmetic
import LambdaCalculus.Proofs.Confluence
import LambdaCalculus.Proofs.Normalization
import LambdaCalculus.Proofs.Commutation
import LambdaCalculus.Proofs.Numerals
import LambdaCalculus.Proofs.Program.Cutting
import LambdaCalculus.Proofs.Program.FirstMistake
import LambdaCalculus.Proofs.Program.TokenPlaces
import LambdaCalculus.Proofs.Program.Unambiguity
import LambdaCalculus.Proofs.Term.Descent
import LambdaCalculus.Proofs.Program.Scoping
import LambdaCalculus.Proofs.Walking
import LambdaCalculus.Proofs.Budget
import LambdaCalculus.Proofs.Deepening
import LambdaCalculus.Proofs.Alpha
import LambdaCalculus.Proofs.Term.Anonymous
import LambdaCalculus.Proofs.DisplayNames
import LambdaCalculus.Proofs.Term.IndexedForm
import LambdaCalculus.Proofs.WellScoped
import LambdaCalculus.Proofs.Program.Faults
import LambdaCalculus.Proofs.Command.Reporting
import LambdaCalculus.Proofs.Command.Requests
import LambdaCalculus.Proofs.Command.Sources
import LambdaCalculus.Proofs.Command.Showing
import LambdaCalculus.Proofs.Program.Places
import LambdaCalculus.Proofs.Program.Relocation
import LambdaCalculus.Proofs.Program.Layout
import LambdaCalculus.Proofs.Term.Identity
import LambdaCalculus.Proofs.Term.Spine
import LambdaCalculus.Proofs.Program.Insertion
import LambdaCalculus.Proofs.Scope.Stranded
import LambdaCalculus.Proofs.Scope.History
import LambdaCalculus.Proofs.Term.Lowering
import LambdaCalculus.Proofs.Literals
import LambdaCalculus.Proofs.Program.StatementOrder
import LambdaCalculus.Proofs.Scope.FixedPoints
import LambdaCalculus.Proofs.Term.Interchange
import LambdaCalculus.Proofs.Text.Lines
