import TermRules.Proofs.Application.Record

/-!
# What the application of rules visits

Edits may give a node other children than it had, and it is the new children that are visited. So
neither the number nor the order of the visits can be read off the tree that the rules are applied
to. They are those of the tree that comes out: `run_visits_result`.
-/

namespace TermRules

namespace Ruleset

variable (R : Ruleset)

theorem map_events_visitor (v : Visit) (t : Term) :
    (R.visitor t.cls v t.node).events.map (fun r => (r.visit, r.term.label)) =
      [(v, (Term.visited R.visitor v t).label)] := rfl

/-- The visits from the place `v` on are those of a walk over the result. -/
theorem map_events_traverseFrom (v : Visit) (t : Term) :
    (t.traverseFrom R.visitor v).events.map (fun r => (r.visit, r.term.label)) =
      ((t.traverseFrom R.visitor v).value.walkFrom v).map fun e => (e.1, e.2.label) := by
  -- the children that are met are those of the node after its visit, not those of `t`
  induction v, t using Term.inductionOnVisits R.visitor with
  | step v t ih =>
    rw [Term.events_traverseFrom, Term.walkFrom_eq, Term.children_value_traverseFrom,
      List.map_append, map_events_visitor, List.map_cons, Term.label_value_traverseFrom,
      List.map_flatMap, List.flatMap_map, List.map_flatMap, List.flatMap_def, List.flatMap_def,
      List.map_congr_left ih]
    rfl

theorem map_events_run (t : Term) :
    (R.run t).events.map (fun r => (r.visit, r.term.label)) =
      ((R.transform t).walkFrom .root).map fun e => (e.1, e.2.label) := by
  rw [transform_eq_run]
  exact R.map_events_traverseFrom .root t

theorem visited_eq_size (t : Term) : (R.stats t).visited = (R.transform t).size := by
  have h := congrArg List.length (R.map_events_run t)
  rw [List.length_map, List.length_map] at h
  rw [visited_eq_length, Term.size, Term.walk, List.length_map]
  exact h

/-- **The visits are a walk over the result.** An application gives the tree of the run, and its
statistics are those of the recorded visits. Whatever the rules do, there are as many visits as
nodes in the result. The visited nodes are, in order, those that a walk over the result meets, each
with the class and with the name, the attributes, and the intent or code that it has in the result.
The places of the visits are the numbers of ancestors of these nodes: the walk meets the nodes at
the addresses in the result, of which there is one for each node, in ascending order. -/
theorem run_visits_result (t : Term) :
    (R.run t).value = R.transform t ∧
      R.stats t = .ofRecord (R.run t).events ∧
      (R.stats t).visited = (R.transform t).size ∧
      (R.run t).events.map (fun r => r.term.label) = (R.transform t).walk.map Term.label ∧
      (R.run t).events.map (fun r => r.visit.depth) =
        (R.transform t).addresses.map List.length ∧
      (R.transform t).walk.map some = (R.transform t).addresses.map (R.transform t).subterm? ∧
      (R.transform t).addresses.Pairwise (· < ·) ∧
      ∀ p, p ∈ (R.transform t).addresses ↔ ((R.transform t).subterm? p).isSome = true := by
  have hlabels : (R.run t).events.map (fun r => r.term.label) =
      (R.transform t).walk.map Term.label := by
    have h := congrArg (List.map Prod.snd) (R.map_events_run t)
    simpa [Term.walk, Function.comp_def] using h
  have hdepths : (R.run t).events.map (fun r => r.visit.depth) =
      (R.transform t).addresses.map List.length := by
    have h := congrArg (List.map fun e => e.1.depth) (R.map_events_run t)
    have haddresses := congrArg (List.map Prod.fst)
      (Term.walkFrom_eq_addresses .root (R.transform t))
    simp only [List.map_map, Function.comp_def] at h haddresses
    rw [h, haddresses]
    apply List.map_congr_left
    intro p _
    exact Nat.zero_add p.length
  exact ⟨(R.transform_eq_run t).symm, R.stats_eq_ofRecord t, R.visited_eq_size t, hlabels, hdepths,
    Term.map_walk_eq_addresses _, Term.pairwise_addresses _, fun p => Term.mem_addresses_iff⟩

end Ruleset

end TermRules
