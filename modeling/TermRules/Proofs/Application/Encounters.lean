import TermRules.Proofs.Application.Succession

/-!
# The nodes that rules meet

`Ruleset.encounters` lists the nodes that the rules are tried on, each as it is just before: the
root, and then those that are met from its children on. As the rules may change the children, these
are the children of the root as all rules leave it (`Ruleset.leftBy`).

A run records these nodes in this order (`events_traverseFrom_eq`), so that the statistics are sums
over them (`visited_eq_encounters`, `fired_eq_encounters`). And if one ruleset makes the same as
another of each node that the other meets, then it makes the same of the tree
(`encounters_congr`). If moreover rules fire as often on each node, then they do so on each tree:
`SameOnNodes.transform_eq`, `SameOnNodes.stats_eq`.
-/

namespace TermRules

namespace Ruleset

variable (R : Ruleset)

/-- The term with the root that the first `count` rules make of it at the place `v`. -/
def leftBy (count : Nat) (v : Visit) (t : Term) : Term :=
  ⟨t.cls, (R.rules.take count).foldl (fun n r => r.edit t.cls v n) t.node⟩

/-- The nodes that the rules are tried on, from a root at the place `v` on: each with its place, and
as it is before. -/
def encounters (v : Visit) (t : Term) : List (Visit × Term) :=
  (v, t) :: (R.leftBy R.size v t).children.attach.flatMap fun s => encounters v.enter s.1
termination_by t.cls.height
decreasing_by
  have hcontain := Term.mayContain_of_mem_children s.2
  exact TermClass.height_lt_of_mayContain hcontain

theorem encounters_eq (v : Visit) (t : Term) :
    R.encounters v t =
      (v, t) :: (R.leftBy R.size v t).children.flatMap (R.encounters v.enter) := by
  rw [encounters]
  have h := List.flatMap_map Subtype.val (R.encounters v.enter)
    (R.leftBy R.size v t).children.attach
  rw [← h, List.attach_map_subtype_val]

theorem leftBy_eq_visited (count : Nat) (v : Visit) (t : Term) :
    R.leftBy count v t = Term.visited (visitor ⟨R.rules.take count⟩) v t :=
  congrArg (Term.mk t.cls) (value_applyRules 0 v (R.rules.take count) t.node).symm

theorem leftBy_size (v : Visit) (t : Term) :
    R.leftBy R.size v t = Term.visited R.visitor v t := by
  rw [leftBy_eq_visited, size, List.take_length]

/-! ## The record of a run -/

/-- What is recorded of a node that the rules meet. -/
def recordOf (e : Visit × Term) : VisitRecord :=
  ⟨e.1, R.leftBy R.size e.1 e.2, (applyRules 0 e.1 R.rules e.2.node).events⟩

theorem events_visitor (v : Visit) (t : Term) :
    (R.visitor t.cls v t.node).events = [R.recordOf (v, t)] := by
  rw [recordOf, leftBy_size]
  rfl

/-- The record of a run is that of the nodes that the rules meet. -/
theorem events_traverseFrom_eq (v : Visit) (t : Term) :
    (t.traverseFrom R.visitor v).events = (R.encounters v t).map R.recordOf := by
  induction v, t using Term.inductionOnVisits R.visitor with
  | step v t ih =>
    rw [Term.events_traverseFrom, encounters_eq, leftBy_size, events_visitor, List.map_cons,
      List.map_flatMap, List.flatMap_def, List.flatMap_def, List.map_congr_left ih]
    rfl

theorem events_run_eq (t : Term) :
    (R.run t).events = (R.encounters .root t).map R.recordOf :=
  R.events_traverseFrom_eq .root t

theorem visited_eq_encounters (t : Term) :
    (R.stats t).visited = (R.encounters .root t).length := by
  rw [visited_eq_length, events_run_eq, List.length_map]

theorem fired_eq_encounters (t : Term) :
    (R.stats t).fired = ((R.encounters .root t).map fun e => R.firedAt e.1 e.2).sum := by
  rw [fired_eq_length, events_run_eq, firingsOf, List.flatMap_map, List.length_flatMap]
  rfl

/-! ## One ruleset after another on a node -/

theorem visited_append (R S : Ruleset) (v : Visit) (t : Term) :
    Term.visited (R ++ S).visitor v t = Term.visited S.visitor v (Term.visited R.visitor v t) :=
  congrArg (Term.mk t.cls) (value_visitor_append t.cls v t.node)

theorem visited_singleton (r : Rule) (v : Visit) (t : Term) :
    Term.visited (visitor ⟨[r]⟩) v t = ⟨t.cls, r.edit t.cls v t.node⟩ :=
  congrArg (Term.mk t.cls) (value_applyRules 0 v [r] t.node)

theorem firedAt_singleton (r : Rule) (v : Visit) (t : Term) :
    firedAt ⟨[r]⟩ v t = if r.holds t v then 1 else 0 := by
  have hfired : firedAt ⟨[r]⟩ v t = (applyRules 0 v [r] t.node).events.length := rfl
  rw [hfired, applyRules_cons]
  split <;> rfl

/-! ## Rulesets that do the same to the nodes they meet -/

section Congr

variable {R} {S : Ruleset} {v : Visit} {t : Term}

theorem mem_encounters_self : (v, t) ∈ R.encounters v t := by
  rw [encounters_eq]
  exact List.mem_cons_self

theorem mem_encounters_of_mem_children {s : Term} {e : Visit × Term}
    (hs : s ∈ (Term.visited R.visitor v t).children) (he : e ∈ R.encounters v.enter s) :
    e ∈ R.encounters v t := by
  rw [encounters_eq, leftBy_size]
  exact List.mem_cons_of_mem _ (List.mem_flatMap.mpr ⟨s, hs, he⟩)

/-- If a ruleset makes the same as another one of each node that the other meets, then it meets the
same nodes, and both make the same of the tree. -/
theorem encounters_congr (h : ∀ e ∈ R.encounters v t,
    Term.visited S.visitor e.1 e.2 = Term.visited R.visitor e.1 e.2) :
    S.encounters v t = R.encounters v t ∧
      (t.traverseFrom S.visitor v).value = (t.traverseFrom R.visitor v).value := by
  induction v, t using Term.inductionOnVisits R.visitor with
  | step v t ih =>
    have hroot := h (v, t) mem_encounters_self
    have hchildren : ∀ s ∈ (Term.visited R.visitor v t).children, _ := fun s hs =>
      ih s hs fun e he => h e (mem_encounters_of_mem_children hs he)
    constructor
    · rw [encounters_eq, encounters_eq, leftBy_size, leftBy_size, hroot, List.flatMap_def,
        List.flatMap_def, List.map_congr_left fun s hs => (hchildren s hs).1]
    · apply Term.eq_of_children
      · rw [Term.label_value_traverseFrom, Term.label_value_traverseFrom, hroot]
      · rw [Term.children_value_traverseFrom, Term.children_value_traverseFrom, hroot]
        exact List.map_congr_left fun s hs => (hchildren s hs).2

end Congr

/-- Both rulesets make the same of each node, with as many firings. -/
structure SameOnNodes (R S : Ruleset) : Prop where
  visited : ∀ v t, Term.visited R.visitor v t = Term.visited S.visitor v t
  fired : ∀ v t, R.firedAt v t = S.firedAt v t

namespace SameOnNodes

variable {R R' S S' : Ruleset}

theorem refl (R : Ruleset) : SameOnNodes R R := ⟨fun _ _ => rfl, fun _ _ => rfl⟩

theorem append (hR : SameOnNodes R R') (hS : SameOnNodes S S') :
    SameOnNodes (R ++ S) (R' ++ S') := by
  constructor
  · intro v t
    rw [visited_append, visited_append, hR.visited, hS.visited]
  · intro v t
    rw [firedAt_append, firedAt_append, hR.visited, hR.fired, hS.fired]

theorem encounters_eq (h : SameOnNodes R S) (v : Visit) (t : Term) :
    R.encounters v t = S.encounters v t :=
  (encounters_congr fun e _ => h.visited e.1 e.2).1

theorem traverseFrom_eq (h : SameOnNodes R S) (v : Visit) (t : Term) :
    (t.traverseFrom R.visitor v).value = (t.traverseFrom S.visitor v).value :=
  (encounters_congr fun e _ => h.visited e.1 e.2).2

theorem transform_eq (h : SameOnNodes R S) (t : Term) : R.transform t = S.transform t := by
  rw [transform_eq_run, transform_eq_run]
  exact h.traverseFrom_eq .root t

theorem stats_eq (h : SameOnNodes R S) (t : Term) : R.stats t = S.stats t := by
  have hvisited : (R.stats t).visited = (S.stats t).visited := by
    rw [visited_eq_encounters, visited_eq_encounters, h.encounters_eq]
  have hfired : (R.stats t).fired = (S.stats t).fired := by
    rw [fired_eq_encounters, fired_eq_encounters, h.encounters_eq]
    simp only [h.fired]
  exact Stats.ext hvisited hfired

end SameOnNodes

end Ruleset

end TermRules
