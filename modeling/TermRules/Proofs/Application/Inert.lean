import TermRules.Proofs.Application.Log

/-!
# Inert rules

A rule fires on a node at most once, namely if its predicates hold of what the rules before it have
made of the node (`Ruleset.firedByAt_eq`). If it has no actions or does not fire there, then it
leaves the node as it is, and the rules after it do to the node what they do without it
(`Ruleset.visited_without`, `Ruleset.firedAt_without`).

So a rule that has no actions, or that fires on no node of a term, can be removed. The nodes that
the other rules meet are the same, and so is the term that comes out; only the firings of the rule
itself are missing: `Ruleset.transform_without_inert`.
-/

namespace TermRules

theorem Rule.edit_of_no_actions {r : Rule} (h : r.actions = []) (c : TermClass) (v : Visit)
    (n : NodeOf c) : r.edit c v n = n := by
  rw [edit, apply, h, List.foldl_nil, ite_self]

/-- Whether a message is about a firing of the rule with the number `i`. -/
def Message.isFiringOf (i : Nat) : Message → Bool
  | .fires rule .. => rule == i
  | _ => false

namespace Ruleset

/-- The ruleset without the rule that has the number `i`. -/
def without (R : Ruleset) (i : Nat) : Ruleset := ⟨R.rules.eraseIdx i⟩

/-- How often the rule with the number `i` fires on the root of a term at the place `v`. -/
def firedByAt (R : Ruleset) (i : Nat) (v : Visit) (t : Term) : Nat :=
  ((applyRules 0 v R.rules t.node).events.map (·.rule)).count i

/-- How often the rule with the number `i` fires on the nodes of a term. -/
def firedBy (R : Ruleset) (i : Nat) (t : Term) : Nat :=
  ((firingsOf (R.run t).events).map (·.rule)).count i

variable {R : Ruleset} {i : Nat} {r : Rule}

/-- The log has a message for each firing of a rule. -/
theorem firedBy_eq_countP (R : Ruleset) (i : Nat) (t : Term) :
    R.firedBy i t = (R.transformLogged t).events.countP (Message.isFiringOf i) := by
  rw [transformLogged_eq, List.countP_append, List.countP_map, firedBy, List.count_eq_countP,
    List.countP_map]
  rfl

theorem firedBy_le_fired (R : Ruleset) (i : Nat) (t : Term) :
    R.firedBy i t ≤ (R.stats t).fired := by
  have hlength := List.count_le_length (a := i) (l := (firingsOf (R.run t).events).map (·.rule))
  rw [List.length_map, ← fired_eq_length] at hlength
  exact hlength

theorem firedBy_eq_encounters (R : Ruleset) (i : Nat) (t : Term) :
    R.firedBy i t = ((R.encounters .root t).map fun e => R.firedByAt i e.1 e.2).sum := by
  rw [firedBy, firingsOf_events_run, List.map_flatten, List.count_flatten, List.map_map,
    List.map_map]
  rfl

/-! ## A rule on a node -/

/-- A rule fires on a node if it holds of what the rules before it have made of the node. -/
theorem firedByAt_eq (hr : R.rules[i]? = some r) (v : Visit) (t : Term) :
    R.firedByAt i v t = if r.holds (R.leftBy i v t) v then 1 else 0 := by
  have hfirings := R.areFiringsAt_applyRules v t
  have hnodup : ((applyRules 0 v R.rules t.node).events.map (·.rule)).Nodup := by
    rw [List.nodup_iff_pairwise_ne, List.pairwise_map]
    exact hfirings.ascending.imp Nat.ne_of_lt
  have hmem : i ∈ (applyRules 0 v R.rules t.node).events.map (·.rule) ↔
      r.holds (R.leftBy i v t) v = true := by
    rw [List.mem_map]
    constructor
    · rintro ⟨f, hf, rfl⟩
      obtain ⟨s, hs, hholds, -, -⟩ := (hfirings.mem_iff f).mp hf
      obtain rfl : s = r := Option.some.inj (hs.symm.trans hr)
      exact hholds
    · intro hholds
      refine ⟨⟨i, t.cls, (R.leftBy i v t).name⟩, ?_, rfl⟩
      exact (hfirings.mem_iff _).mpr ⟨r, hr, hholds, rfl, rfl⟩
  rw [firedByAt, hnodup.count]
  simp only [hmem]

theorem eq_append_of_getElem? (hr : R.rules[i]? = some r) :
    R = ⟨R.rules.take i⟩ ++ (⟨[r]⟩ ++ ⟨R.rules.drop (i + 1)⟩) := by
  obtain ⟨hi, rfl⟩ := List.getElem?_eq_some_iff.mp hr
  have hrules : R.rules = R.rules.take i ++ R.rules[i] :: R.rules.drop (i + 1) := by
    rw [List.getElem_cons_drop, List.take_append_drop]
  exact congrArg mk hrules

theorem without_eq_append (R : Ruleset) (i : Nat) :
    R.without i = ⟨R.rules.take i⟩ ++ ⟨R.rules.drop (i + 1)⟩ :=
  congrArg mk (List.eraseIdx_eq_take_drop_succ R.rules i)

section Node

variable {v : Visit} {t : Term} (hr : R.rules[i]? = some r)

include hr

/-- The root of the term as the rules before `r` have left it is one that `r` does not change. -/
theorem visited_singleton_leftBy (h : r.actions = [] ∨ R.firedByAt i v t = 0) :
    Term.visited (visitor ⟨[r]⟩) v (R.leftBy i v t) = R.leftBy i v t := by
  rw [visited_singleton]
  refine congrArg (Term.mk t.cls) ?_
  rcases h with hactions | hfired
  · exact Rule.edit_of_no_actions hactions t.cls v _
  · refine Rule.edit_of_not_holds fun hholds => ?_
    rw [firedByAt_eq hr, if_pos hholds] at hfired
    cases hfired

theorem visited_without (h : r.actions = [] ∨ R.firedByAt i v t = 0) :
    Term.visited (R.without i).visitor v t = Term.visited R.visitor v t := by
  have hvisited := visited_singleton_leftBy hr h
  rw [leftBy_eq_visited] at hvisited
  conv_rhs => rw [eq_append_of_getElem? hr]
  rw [without_eq_append, visited_append, visited_append, visited_append, hvisited]

theorem firedAt_without (h : r.actions = [] ∨ R.firedByAt i v t = 0) :
    (R.without i).firedAt v t + R.firedByAt i v t = R.firedAt v t := by
  have hvisited := visited_singleton_leftBy hr h
  rw [leftBy_eq_visited] at hvisited
  conv_rhs => rw [eq_append_of_getElem? hr]
  rw [without_eq_append, firedAt_append, firedAt_append, firedAt_append, hvisited,
    firedAt_singleton, firedByAt_eq hr, leftBy_eq_visited]
  omega

end Node

/-! ## A rule on a tree -/

theorem transform_without (hr : R.rules[i]? = some r) (t : Term)
    (h : r.actions = [] ∨ R.firedBy i t = 0) :
    (R.without i).transform t = R.transform t ∧
      ((R.without i).stats t).visited = (R.stats t).visited ∧
      ((R.without i).stats t).fired + R.firedBy i t = (R.stats t).fired := by
  have hnode : ∀ e ∈ R.encounters .root t, r.actions = [] ∨ R.firedByAt i e.1 e.2 = 0 := by
    intro e he
    refine h.imp_right fun hfired => ?_
    rw [firedBy_eq_encounters, List.sum_eq_zero_iff] at hfired
    exact hfired _ (List.mem_map_of_mem he)
  obtain ⟨hencounters, htransform⟩ := encounters_congr fun e he => visited_without hr (hnode e he)
  refine ⟨?_, ?_, ?_⟩
  · rw [transform_eq_run, transform_eq_run]
    exact htransform
  · rw [visited_eq_encounters, visited_eq_encounters, hencounters]
  · rw [fired_eq_encounters, fired_eq_encounters, firedBy_eq_encounters, hencounters,
      ← List.sum_map_add, List.map_congr_left fun e he => firedAt_without hr (hnode e he)]

/-- If no rule fires, then the rules can be removed one after the other. -/
theorem transform_eq_self_of_fired_eq_zero {rules : List Rule} {t : Term}
    (h : (stats ⟨rules⟩ t).fired = 0) : transform ⟨rules⟩ t = t := by
  induction rules with
  | nil => exact transform_empty t
  | cons r rs ih =>
    have hfirst : firedBy ⟨r :: rs⟩ 0 t = 0 := by
      have hle := firedBy_le_fired ⟨r :: rs⟩ 0 t
      omega
    obtain ⟨htransform, -, hfired⟩ :=
      transform_without (R := ⟨r :: rs⟩) (i := 0) rfl t (.inr hfirst)
    have hrest : without ⟨r :: rs⟩ 0 = ⟨rs⟩ := rfl
    rw [hrest] at htransform hfired
    rw [← htransform]
    exact ih (by omega)

/-- **Inert rules can be removed.** Of a rule that has no actions, or that fires on no node of a
term, neither the term that comes out nor the number of visits depends. Without the rule there are
as many firings less as there are firings of the rule itself, and these are those that the log tells
of. In particular, a term on which no rule fires stays as it is. -/
theorem transform_without_inert (R : Ruleset) (t : Term) :
    (∀ i r, R.rules[i]? = some r → r.actions = [] ∨ R.firedBy i t = 0 →
      (R.without i).transform t = R.transform t ∧
        ((R.without i).stats t).visited = (R.stats t).visited ∧
        ((R.without i).stats t).fired = (R.stats t).fired - R.firedBy i t ∧
        R.firedBy i t ≤ (R.stats t).fired) ∧
      ((R.stats t).fired = 0 → R.transform t = t) ∧
      ∀ i, R.firedBy i t = (R.transformLogged t).events.countP (Message.isFiringOf i) := by
  refine ⟨fun i r hr h => ?_, transform_eq_self_of_fired_eq_zero, fun i => R.firedBy_eq_countP i t⟩
  obtain ⟨htransform, hvisited, hfired⟩ := transform_without hr t h
  exact ⟨htransform, hvisited, by omega, by omega⟩

/-- The ruleset `(() ()) ((is-root) (drop-children)) ((is-definition) (rename x))`. -/
def dropping : Ruleset where
  rules :=
    [{ predicates := [], actions := [] },
      { predicates := [⟨⟨"is-root", none⟩, fun _ v => v.isRoot⟩]
        actions := [⟨⟨"drop-children", none⟩, fun c _ n => ⟨n.toHead, Parts.ofTerms c []⟩⟩] },
      { predicates := [⟨⟨"is-definition", none⟩, fun t _ => t.cls = .definition⟩]
        actions := [⟨⟨"rename", some "x"⟩, fun _ _ n => { n with name := "x" }⟩] }]

theorem transform_without_inert_dropping :
    let t : Term := ⟨.block, ⟨"b", .empty, ()⟩, ⟨[], [⟨⟨"d", .empty, none⟩, ()⟩], []⟩⟩
    let pruned : Term := ⟨.block, ⟨"b", .empty, ()⟩, ⟨[], [], []⟩⟩
    dropping.transform t = pruned ∧ dropping.stats t = ⟨1, 2⟩ ∧
      -- the first rule fires on the block, but has no actions
      dropping.firedBy 0 t = 1 ∧ (dropping.without 0).transform t = pruned ∧
      ((dropping.without 0).stats t).fired = 2 - 1 ∧
      -- the last one would fire on the definition, which the rule before it has removed
      dropping.firedBy 2 t = 0 ∧ (dropping.without 2).transform t = pruned ∧
      ((dropping.without 2).stats t).fired = 2 - 0 ∧
      -- without the first two rules, none fires on a block without definitions
      (((dropping.without 0).without 0).stats pruned).fired = 0 ∧
      ((dropping.without 0).without 0).transform pruned = pruned := by
  intro t pruned
  obtain ⟨hinert, -⟩ := transform_without_inert dropping t
  obtain ⟨hfirst, -, hfiredFirst, -⟩ := hinert 0 _ rfl (.inl rfl)
  obtain ⟨hlast, -, hfiredLast, -⟩ := hinert 2 _ rfl (.inr rfl)
  have hself := (transform_without_inert ((dropping.without 0).without 0) pruned).2.1 rfl
  exact ⟨rfl, rfl, rfl, hfirst, hfiredFirst, rfl, hlast, hfiredLast, rfl, hself⟩

end Ruleset

end TermRules
