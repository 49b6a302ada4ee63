import TermRules.Registry.Namespace
import TermRules.Term.Walk

/-!
# Registries

A registry holds the predicates and the actions that rules may use. A predicate is meant by a test
of a term at a place, an action by an edit of a node, which keeps the class of the node.
-/

namespace TermRules

/-- Tests of a term, met at a place of a walk. -/
abbrev Test := Term → Visit → Bool

/-- Changes of a node, met at a place of a walk. -/
abbrev Edit := (c : TermClass) → Visit → NodeOf c → NodeOf c

/-- The predicates and actions that rules may use. -/
structure Registry where
  predicates : Namespace Test
  actions : Namespace Edit

namespace Registry

/-- The registry without predicates and actions. -/
def empty : Registry := ⟨.empty, .empty⟩

/-- Registers a predicate that takes no argument. -/
def withPredicate (reg : Registry) (name doc : String) (test : Test) : Logged Registry := do
  return { reg with predicates := ← reg.predicates.withNullary name doc test }

/-- Registers a predicate that takes an argument, which `read` reads. -/
def withPredicateOf {α : Type} (reg : Registry) (name doc : String)
    (read : String → Except String α) (test : α → Test) : Logged Registry := do
  let predicates ← reg.predicates.withUnary name doc fun arg => (read arg).map test
  return { reg with predicates }

/-- Registers an action that takes no argument. -/
def withAction (reg : Registry) (name doc : String) (edit : Edit) : Logged Registry := do
  return { reg with actions := ← reg.actions.withNullary name doc edit }

/-- Registers an action that takes an argument, which `read` reads. -/
def withActionOf {α : Type} (reg : Registry) (name doc : String)
    (read : String → Except String α) (edit : α → Edit) : Logged Registry := do
  let actions ← reg.actions.withUnary name doc fun arg => (read arg).map edit
  return { reg with actions }

end Registry

end TermRules
