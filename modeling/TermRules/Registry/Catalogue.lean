import TermRules.Registry.Basic
import TermRules.Text.Occurs

/-!
# The catalogue of a registry

One line for each name, with the documentation in a column of its own: predicates before actions,
and names without an argument before names with one.
-/

namespace TermRules

/-- The width of the column of expressions. -/
def catalogueWidth : Nat := 24

/-- The expression that is shown for a name; `arg` is what follows the name. -/
def catalogueExpr (arg name : String) : String := s!"({name}{arg})"

/-- The line of a name; `arg` is what follows the name. -/
def catalogueLine (arg name doc : String) : String :=
  let shown := Text.padTo catalogueWidth (catalogueExpr arg name)
  s!"  {shown} {doc}\n"

/-- The lines of a table; `arg` is what follows each name. -/
def Table.catalogue {κ : Type} (t : Table κ) (arg : String) : String :=
  String.join (t.docs.map fun entry => catalogueLine arg entry.1 entry.2)

/-- The lines of a namespace. -/
def Namespace.catalogue {φ : Type} (ns : Namespace φ) : String :=
  ns.nullary.catalogue "" ++ ns.unary.catalogue " ARG"

/-- The catalogue of a registry. -/
def Registry.catalogue (reg : Registry) : String :=
  "Predicates:\n" ++ reg.predicates.catalogue ++ "Actions:\n" ++ reg.actions.catalogue

end TermRules
