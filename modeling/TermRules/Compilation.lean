import TermRules.Expr.Error
import TermRules.Message

/-!
# Compilations

A compilation fails or succeeds, and keeps its log in both cases.
-/

namespace TermRules

/-- Computations with a log that may fail. -/
abbrev Compilation := ExceptT CompileError Logged

namespace Compilation

/-- The compilation without messages that has the given outcome. -/
def ofExcept {α : Type} (outcome : Except CompileError α) : Compilation α :=
  ExceptT.mk (pure outcome)

/-- The compilation that consists of one message. -/
def log (message : Message) : Compilation Unit := ExceptT.lift (Traced.emit message)

end Compilation

end TermRules
