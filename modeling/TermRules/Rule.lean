import TermRules.Registry.Basic

/-!
# Rules

A rule pairs predicates with actions and is written `(PREDICATES ACTIONS)`. Without predicates it
applies to every term, and without actions it changes none.
-/

namespace TermRules

/-- An expression with the test that it means. -/
abbrev Predicate := Bound Test

/-- An expression with the edit that it means. -/
abbrev Action := Bound Edit

/-- A conjunction of predicates, paired with a sequence of actions. -/
structure Rule where
  predicates : List Predicate
  actions : List Action

namespace Rule

/-- Whether all predicates hold of a term at the place `v`. -/
def holds (r : Rule) (t : Term) (v : Visit) : Bool := r.predicates.all fun p => p.meaning t v

/-- The node after all actions, each of which sees what those before it have done. -/
def apply (r : Rule) (c : TermClass) (v : Visit) (n : NodeOf c) : NodeOf c :=
  r.actions.foldl (fun n a => a.meaning c v n) n

/-- The rule as an S-expression. -/
def toSexp (r : Rule) : Sexp :=
  .list
    [.list (r.predicates.map fun p => p.expr.toSexp), .list (r.actions.map fun a => a.expr.toSexp)]

/-- The written form. -/
def print (r : Rule) : String := r.toSexp.print

instance : ToString Rule := ⟨print⟩

/-- The rule that an S-expression denotes. Predicates are compiled before actions. -/
def compile (reg : Registry) : Sexp → Compilation Rule
  | .list [predicates, actions] => do
    let predicates ← reg.predicates.compile predicates
    let actions ← reg.actions.compile actions
    return { predicates, actions }
  | found => throw (.shape .rule found)

/-- The rule that a text consists of. -/
def parse (reg : Registry) (text : String) : Compilation Rule := do
  compile reg (← Compilation.ofExcept ((Sexp.parse text).mapError .sexp))

end Rule

end TermRules
