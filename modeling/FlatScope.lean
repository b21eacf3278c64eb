import FlatScope.Main
import FlatScope.Proofs.Analysis
import FlatScope.Proofs.Lowering.Hosting
import FlatScope.Proofs.Lowering.Total
import FlatScope.Proofs.Scope.WellScoped
import FlatScope.Proofs.Regional.Eval
import FlatScope.Proofs.Grammar.Complete
import FlatScope.Proofs.Grammar.Literals
import FlatScope.Proofs.Grammar.Parse
import FlatScope.Proofs.Grammar.Legible
import FlatScope.Proofs.Grammar.Refused
import FlatScope.Proofs.Number.Decimal
import FlatScope.Proofs.Printing.Derivable
import FlatScope.Proofs.Printing.Literals
import FlatScope.Proofs.Printing.Printed
import FlatScope.Proofs.Printing.RoundTrip
import FlatScope.Proofs.Printing.Strings
import FlatScope.Proofs.References
import FlatScope.Proofs.Scope.Agreement
import FlatScope.Proofs.Isolation
import FlatScope.Proofs.Scope.Sound
import FlatScope.Proofs.Scope.Total
import FlatScope.Proofs.Flat
import FlatScope.Proofs.Lowering.Identity
import FlatScope.Proofs.Lowering.Exits
import FlatScope.Proofs.Lowering.Flat
import FlatScope.Proofs.Lowering.Scoped
import FlatScope.Proofs.Fixpoint
import FlatScope.Proofs.Lowering.HandsBack
import FlatScope.Proofs.Globals
import FlatScope.Proofs.Run.Initialised
import FlatScope.Proofs.Lowering.Hoisted
import FlatScope.Proofs.Lowering.Raised
import FlatScope.Proofs.Traversal
import FlatScope.Proofs.Hoisting
import FlatScope.Proofs.Hygiene
import FlatScope.Proofs.Safety.Sound
import FlatScope.Proofs.Residence.Programs
