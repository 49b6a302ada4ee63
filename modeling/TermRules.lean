import TermRules.Application
import TermRules.Builtin.Change
import TermRules.Command.Run
import TermRules.Main
import TermRules.Registry.Catalogue
import TermRules.Sexp.Printer
import TermRules.Sexp.Reader
import TermRules.Term.Printer
import TermRules.Term.Reader
import TermRules.Term.Walk
import TermRules.Proofs.Outcome
import TermRules.Proofs.Sexp.Lexemes
import TermRules.Proofs.Sexp.Grammar
import TermRules.Proofs.Sexp.RoundTrip
import TermRules.Proofs.Term.Reading
import TermRules.Proofs.Term.RoundTrip
import TermRules.Proofs.Term.Address
import TermRules.Proofs.Term.Traversal
import TermRules.Proofs.Application.Coverage
import TermRules.Proofs.Ruleset.Compilation
import TermRules.Proofs.Application.Nodewise
import TermRules.Proofs.Builtin.Nodewise
import TermRules.Proofs.Sexp.Escapes
import TermRules.Proofs.Sexp.Nesting
import TermRules.Proofs.Sexp.Recognition
import TermRules.Proofs.Term.Grammar
import TermRules.Proofs.SortedMap
import TermRules.Proofs.Text.ByteOrder
import TermRules.Proofs.Term.Canonical
import TermRules.Proofs.Sexp.Lines
import TermRules.Proofs.Ruleset.RoundTrip
import TermRules.Proofs.Command.Modes
import TermRules.Proofs.Application.Succession
import TermRules.Proofs.Expr.Units
import TermRules.Proofs.Registry.Resolution
import TermRules.Proofs.Registry.Extension
import TermRules.Proofs.Ruleset.Diagnosis
import TermRules.Proofs.Ruleset.Extension
import TermRules.Proofs.Sexp.Placement
import TermRules.Proofs.Sexp.Layout
import TermRules.Proofs.Ruleset.Placement
import TermRules.Proofs.Ruleset.Sources
import TermRules.Proofs.Layout
import TermRules.Proofs.Command.Processing
import TermRules.Proofs.Command.Output
import TermRules.Proofs.Command.StandardInput
import TermRules.Proofs.Sexp.Regular
import TermRules.Proofs.Sexp.Tiling
import TermRules.Proofs.Sexp.Culprits
import TermRules.Proofs.Expr.Flattening
import TermRules.Proofs.Builtin.Locations
import TermRules.Proofs.Builtin.Idempotence
import TermRules.Proofs.Application.Encounters
import TermRules.Proofs.Builtin.Independence
import TermRules.Proofs.Application.Log
import TermRules.Proofs.Ruleset.Pieces
import TermRules.Proofs.Command.Rules
import TermRules.Proofs.Command.Failures
import TermRules.Proofs.Registry.History
import TermRules.Proofs.Ruleset.Progress
import TermRules.Proofs.Application.Inert
import TermRules.Proofs.Sexp.Finality
import TermRules.Proofs.Sexp.Bareness
import TermRules.Proofs.Term.Recursion
import TermRules.Proofs.Command.Pairing
import TermRules.Proofs.Command.Omission
import TermRules.Proofs.Registry.Catalogue
import TermRules.Proofs.Term.Surplus
import TermRules.Proofs.Term.Children
import TermRules.Proofs.Sexp.Unquoting
import TermRules.Proofs.Term.Enumeration
