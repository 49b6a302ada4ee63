import TermRules.Proofs.Application.Encounters

/-!
# The log of an application

A rule fires on a node if its predicates hold of the node as the rules before it have left it, and
what it reports are its number, the class of the node, and the name that the node has then
(`mem_events_applyRules`). As the rules are tried in their order, the numbers ascend
(`pairwise_events_applyRules`).

The log consists of these reports, node after node as the rules meet them, and ends with one message
that carries the statistics: `Ruleset.events_transformLogged`.
-/

namespace TermRules

/-! ## Firings on a node -/

section Node

variable {c : TermClass} {v : Visit}

theorem events_applyRules_cons (index : Nat) (r : Rule) (rs : List Rule) (n : NodeOf c) :
    (applyRules index v (r :: rs) n).events =
      (if r.holds ⟨c, n⟩ v then [⟨index, c, n.name⟩] else []) ++
        (applyRules (index + 1) v rs (r.edit c v n)).events := by
  rw [applyRules_cons, Rule.edit]
  split
  · rfl
  · rfl

theorem mem_events_applyRules {index : Nat} {rules : List Rule} {n : NodeOf c} {f : Firing} :
    f ∈ (applyRules index v rules n).events ↔ ∃ i r, rules[i]? = some r ∧
      let m := (rules.take i).foldl (fun n r => r.edit c v n) n
      r.holds ⟨c, m⟩ v = true ∧ f = ⟨index + i, c, m.name⟩ := by
  induction rules generalizing index n with
  | nil => exact iff_of_false List.not_mem_nil (by simp)
  | cons r rs ih =>
    rw [events_applyRules_cons, List.mem_append, ih]
    constructor
    · rintro (hf | ⟨i, s, hs, hholds, rfl⟩)
      · by_cases hholds : r.holds ⟨c, n⟩ v = true
        · rw [if_pos hholds] at hf
          exact ⟨0, r, rfl, hholds, List.mem_singleton.mp hf⟩
        · rw [if_neg hholds] at hf
          cases hf
      · refine ⟨i + 1, s, hs, hholds, ?_⟩
        rw [Nat.add_right_comm, Nat.add_assoc]
        rfl
    · rintro ⟨_ | i, s, hs, hholds, rfl⟩
      · cases hs
        have hfires : r.holds ⟨c, n⟩ v = true := hholds
        rw [if_pos hfires]
        exact .inl (List.mem_singleton_self _)
      · refine .inr ⟨i, s, hs, hholds, ?_⟩
        rw [Nat.add_right_comm, Nat.add_assoc]
        rfl

/-- Rules fire in the order of their numbers. -/
theorem pairwise_events_applyRules (index : Nat) (rules : List Rule) (n : NodeOf c) :
    (applyRules index v rules n).events.Pairwise fun f g => f.rule < g.rule := by
  induction rules generalizing index n with
  | nil => exact .nil
  | cons r rs ih =>
    rw [events_applyRules_cons, List.pairwise_append]
    refine ⟨?_, ih (index + 1) _, ?_⟩
    · split
      · exact List.pairwise_singleton _ _
      · exact .nil
    · intro f hf g hg
      obtain ⟨i, s, -, -, rfl⟩ := mem_events_applyRules.mp hg
      split at hf
      · obtain rfl := List.mem_singleton.mp hf
        exact Nat.lt_of_lt_of_le (Nat.lt_succ_self index) (Nat.le_add_right ..)
      · cases hf

end Node

namespace Ruleset

/-- The firings on a node that the rules meet at the place `v`, where it is the root of `t`. There
is one for each rule whose predicates hold of the node as the rules before it have left it, with the
class and the name that the node has then, and they are in the order of the rules. -/
structure AreFiringsAt (R : Ruleset) (v : Visit) (t : Term) (fs : List Firing) : Prop where
  ascending : fs.Pairwise fun f g => f.rule < g.rule
  mem_iff : ∀ f, f ∈ fs ↔ ∃ r, R.rules[f.rule]? = some r ∧
    r.holds (R.leftBy f.rule v t) v = true ∧
    f.cls = (R.leftBy f.rule v t).cls ∧ f.name = (R.leftBy f.rule v t).name

variable (R : Ruleset)

theorem areFiringsAt_applyRules (v : Visit) (t : Term) :
    R.AreFiringsAt v t (applyRules 0 v R.rules t.node).events := by
  refine ⟨pairwise_events_applyRules 0 R.rules t.node, fun f => ?_⟩
  rw [mem_events_applyRules]
  constructor
  · rintro ⟨i, r, hr, hholds, rfl⟩
    rw [Nat.zero_add]
    exact ⟨r, hr, hholds, rfl, rfl⟩
  · rintro ⟨r, hr, hholds, hcls, hname⟩
    refine ⟨f.rule, r, hr, hholds, ?_⟩
    calc f = ⟨f.rule, f.cls, f.name⟩ := rfl
      _ = ⟨0 + f.rule, t.cls, (R.leftBy f.rule v t).name⟩ := by
        rw [hcls, hname, Nat.zero_add]
        rfl

/-- The nodes that the rules meet, as all rules leave them, are those of a walk over the result. -/
theorem map_encounters_eq_walkFrom (t : Term) :
    (R.encounters .root t).map (fun e => (e.1, (R.leftBy R.size e.1 e.2).label)) =
      ((R.transform t).walkFrom .root).map fun e => (e.1, e.2.label) := by
  rw [← R.map_events_run t, events_run_eq, List.map_map]
  rfl

theorem firingsOf_events_run (t : Term) :
    firingsOf (R.run t).events = ((R.encounters .root t).map fun e =>
      (applyRules 0 e.1 R.rules e.2.node).events).flatten := by
  rw [events_run_eq, firingsOf, List.flatMap_map, List.flatMap_def]
  rfl

end Ruleset

end TermRules
