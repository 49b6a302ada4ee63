import TermRules.Ruleset

/-!
# Application of rules to terms

A ruleset is applied to every node of a tree, parents before children. At a node the rules are
tried in order, and a rule fires if all of its predicates hold, so that a rule sees what the rules
before it did to the node. Then the children of the changed node are visited.

An application counts its visits and the firings of rules, and logs every firing before the actions
of the rule are made.

* `Ruleset.transformLogged` gives the changed tree and the statistics, with the log.
* `Ruleset.transform` gives the tree alone, and `Ruleset.stats` the statistics.
-/

namespace TermRules

/-- How many nodes were visited, and how often rules fired. -/
@[ext]
structure Stats where
  visited : Nat
  fired : Nat
  deriving DecidableEq, Repr

namespace Stats

/-- Nothing was visited. -/
def zero : Stats := ⟨0, 0⟩

instance : Add Stats := ⟨fun s t => ⟨s.visited + t.visited, s.fired + t.fired⟩⟩

theorem zero_add (s : Stats) : zero + s = s := Stats.ext (Nat.zero_add _) (Nat.zero_add _)

theorem add_assoc (s t u : Stats) : s + t + u = s + (t + u) :=
  Stats.ext (Nat.add_assoc ..) (Nat.add_assoc ..)

end Stats

/-- A rule fires on a node, which has the given class and name before. -/
structure Firing where
  rule : Nat
  cls : TermClass
  name : String
  deriving DecidableEq

/-- The message about a firing. -/
def Firing.message (f : Firing) : Message := .fires f.rule f.cls f.name

/-- The node after the given rules, of which the first has the number `index`. Whenever a rule
fires, `fire` is told so before the actions of the rule are made. -/
def tryRules {m : Type → Type} [Monad m] (fire : Firing → m Unit) (index : Nat) {c : TermClass}
    (v : Visit) : List Rule → NodeOf c → m (NodeOf c)
  | [], n => pure n
  | r :: rs, n =>
    if r.holds ⟨c, n⟩ v then do
      fire ⟨index, c, n.name⟩
      tryRules fire (index + 1) v rs (r.apply c v n)
    else tryRules fire (index + 1) v rs n

/-- Applications of rules, which keep statistics and a log. -/
abbrev Application := StateT Stats Logged

namespace Application

/-- A node is visited. -/
def visit : Application Unit := modify fun s => { s with visited := s.visited + 1 }

/-- A rule fires. -/
def fire (f : Firing) : Application Unit := do
  StateT.lift (Traced.emit f.message)
  modify fun s => { s with fired := s.fired + 1 }

end Application

namespace Ruleset

/-- The visit of a node: all rules are tried on it. -/
def applyAt (R : Ruleset) : Term.Visitor Application := fun _ v n => do
  Application.visit
  tryRules Application.fire 0 v R.rules n

/-- The changed tree and the statistics, with the log. -/
def transformLogged (R : Ruleset) (t : Term) : Logged (Term × Stats) := do
  let (t, stats) ← (t.traverse R.applyAt).run .zero
  Traced.emit (.applied stats.visited stats.fired)
  return (t, stats)

/-- The changed tree. -/
def transform (R : Ruleset) (t : Term) : Term := (R.transformLogged t).value.1

/-- The statistics of the application to a tree. -/
def stats (R : Ruleset) (t : Term) : Stats := (R.transformLogged t).value.2

end Ruleset

end TermRules
