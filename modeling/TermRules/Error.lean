import TermRules.Expr.Error
import TermRules.Term.Reader

/-!
# Errors in rules and terms
-/

namespace TermRules

/-- Errors in rules and terms. -/
inductive Error
  | compile (e : CompileError)
  | read (e : Term.ReadError)
  deriving DecidableEq

/-- The text of the error. -/
def Error.message : Error → String
  | compile e => e.message
  | read e => s!"malformed term: {e.message}"

end TermRules
