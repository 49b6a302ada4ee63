import TermRules.Rule

/-!
# Rulesets

An ordered sequence of rules, compiled from any number of texts (`Ruleset.compile`). The rules
stand in the order of the texts and, within a text, in the order of their places.
-/

namespace TermRules

/-- An ordered sequence of rules. -/
structure Ruleset where
  rules : List Rule

namespace Ruleset

/-- The ruleset without rules, which changes no term. -/
def empty : Ruleset := ⟨[]⟩

/-- The rules of one ruleset, followed by those of another. -/
def append (R S : Ruleset) : Ruleset := ⟨R.rules ++ S.rules⟩

instance : Append Ruleset := ⟨append⟩

/-- The number of rules. -/
def size (R : Ruleset) : Nat := R.rules.length

/-- The written form, with one rule on each line. -/
def print (R : Ruleset) : String := String.join (R.rules.map fun r => r.print ++ "\n")

instance : ToString Ruleset := ⟨print⟩

/-- The rules that the items of a text denote; `index` rules were compiled before them. -/
def compileItems (reg : Registry) (index : Nat) :
    List (Except Sexp.ReadError Sexp) → Compilation (List Rule)
  | [] => pure []
  | item :: items => do
    let x ← Compilation.ofExcept (item.mapError .sexp)
    let rule ← Rule.compile reg x
    Compilation.log (.compiledRule index rule.toSexp)
    return rule :: (← compileItems reg (index + 1) items)

/-- The ruleset that a sequence of texts denotes. -/
def compile (reg : Registry) (sources : List String) : Compilation Ruleset := do
  return ⟨← compileItems reg 0 (sources.flatMap Sexp.items)⟩

/-- The ruleset that a text denotes. -/
def parse (reg : Registry) (text : String) : Compilation Ruleset := compile reg [text]

end Ruleset

end TermRules
