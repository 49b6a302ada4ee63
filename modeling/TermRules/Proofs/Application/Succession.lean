import Mathlib
import TermRules.Proofs.Builtin.Nodewise

/-!
# Rulesets one after the other

To apply two rulesets at once is to try at each node the rules of the one and then those of the
other (`applyRules_append`), so that the second ruleset works on nodes whose descendants the first
one has not met. If all rules act on nodes by themselves this does not matter, and it comes to the
same to apply the first ruleset to the whole tree and then the second: the terms are the same
(`Ruleset.transform_append`) and rules fire as often (`Ruleset.fired_append`). Built-in rules are of
this kind: `Ruleset.builtin_transform_append`.
-/

namespace TermRules

/-! ## Firings on a node -/

theorem applyRules_append (index : Nat) {c : TermClass} (v : Visit) (rs ss : List Rule)
    (n : NodeOf c) :
    applyRules index v (rs ++ ss) n =
      applyRules index v rs n >>= applyRules (index + rs.length) v ss := by
  induction rs generalizing index n with
  | nil => rfl
  | cons r rs ih =>
    have hindex : index + 1 + rs.length = index + (r :: rs).length := by
      rw [List.length_cons]
      omega
    rw [List.cons_append, applyRules_cons, applyRules_cons]
    split
    · rw [ih, hindex, bind_assoc]
    · rw [ih, hindex]

/-- How often the rules fire does not depend on their numbers. -/
theorem length_events_applyRules (i j : Nat) {c : TermClass} (v : Visit) (rules : List Rule)
    (n : NodeOf c) :
    (applyRules i v rules n).events.length = (applyRules j v rules n).events.length := by
  induction rules generalizing i j n with
  | nil => rfl
  | cons r rs ih =>
    rw [applyRules_cons, applyRules_cons]
    split
    · rw [Traced.events_bind, Traced.events_bind, List.length_append, List.length_append,
        ih (i + 1) (j + 1)]
      rfl
    · exact ih (i + 1) (j + 1) n

/-- How often rules that look at nothing but what a node has of its own fire on it depends on
nothing else. -/
theorem length_events_applyRules_congr {rules : List Rule} (h : ∀ r ∈ rules, r.ActsOnHead)
    (index : Nat) {c : TermClass} (v : Visit) {m n : NodeOf c} (hmn : m.toHead = n.toHead) :
    (applyRules index v rules m).events.length = (applyRules index v rules n).events.length := by
  induction rules generalizing index m n with
  | nil => rfl
  | cons r rs ih =>
    obtain ⟨hr, hrs⟩ := List.forall_mem_cons.mp h
    have happly : (r.apply c v m).toHead = (r.apply c v n).toHead :=
      (Edit.ActsOnHead.foldl hr.actions).head c v m n hmn
    rw [applyRules_cons, applyRules_cons, Rule.readsHead_holds hr c v m n hmn]
    split
    · rw [Traced.events_bind, Traced.events_bind, List.length_append, List.length_append]
      exact congrArg _ (ih hrs (index + 1) happly)
    · exact ih hrs (index + 1) hmn

namespace Ruleset

/-- How often rules fire on the root of a term at the place `v`. -/
def firedAt (R : Ruleset) (v : Visit) (t : Term) : Nat :=
  (applyRules 0 v R.rules t.node).events.length

/-- How often rules fire on the nodes of a term whose root is at the place `v`. -/
def firedFrom (R : Ruleset) (v : Visit) (t : Term) : Nat :=
  (firingsOf (t.traverseFrom R.visitor v).events).length

variable {R S : Ruleset}

theorem firedFrom_eq (R : Ruleset) (v : Visit) (t : Term) :
    R.firedFrom v t = R.firedAt v t +
      ((Term.visited R.visitor v t).children.map (R.firedFrom v.enter)).sum := by
  have hroot : firingsOf (R.visitor t.cls v t.node).events =
      (applyRules 0 v R.rules t.node).events := List.append_nil _
  rw [firedFrom, Term.events_traverseFrom, firingsOf_append, hroot, firingsOf_flatMap,
    List.length_append, List.length_flatMap]
  rfl

theorem value_visitor_append (c : TermClass) (v : Visit) (n : NodeOf c) :
    ((R ++ S).visitor c v n).value = (S.visitor c v (R.visitor c v n).value).value := by
  change (applyRules 0 v (R.rules ++ S.rules) n).value = _
  rw [applyRules_append, Traced.value_bind, value_applyRules]
  exact (value_applyRules 0 v S.rules _).symm

theorem firedAt_append (v : Visit) (t : Term) :
    (R ++ S).firedAt v t = R.firedAt v t + S.firedAt v (Term.visited R.visitor v t) := by
  change (applyRules 0 v (R.rules ++ S.rules) t.node).events.length = _
  rw [applyRules_append, Traced.events_bind, List.length_append]
  exact congrArg _ (length_events_applyRules _ 0 v S.rules _)

/-! ## Rules that act on nodes by themselves -/

theorem ActsOnHead.append (hR : R.ActsOnHead) (hS : S.ActsOnHead) : (R ++ S).ActsOnHead :=
  List.forall_mem_append.mpr ⟨hR, hS⟩

theorem firedAt_congr (h : R.ActsOnHead) (v : Visit) {t u : Term} (htu : t.label = u.label) :
    R.firedAt v t = R.firedAt v u := by
  obtain ⟨c, head, parts⟩ := t
  obtain ⟨d, head', parts'⟩ := u
  cases htu
  exact length_events_applyRules_congr h 0 v rfl

theorem firedFrom_of_actsOnHead (h : R.ActsOnHead) (v : Visit) (t : Term) :
    R.firedFrom v t = R.firedAt v t + (t.children.map (R.firedFrom v.enter)).sum := by
  rw [firedFrom_eq, Term.children_visited (actsOnHead_visitor h).parts]

theorem headAfter_append (hS : S.ActsOnHead) (c : TermClass) (v : Visit) (head : Head c) :
    (R ++ S).headAfter c v head = S.headAfter c v (R.headAfter c v head) := by
  have hvalue := congrArg Node.toHead
    (value_visitor_append (R := R) (S := S) c v ⟨head, Parts.ofTerms c []⟩)
  exact hvalue.trans ((actsOnHead_visitor hS).head c v _ _ rfl)

section

variable (hR : R.ActsOnHead) (hS : S.ActsOnHead)

include hR hS

/-- Both rulesets at once make of a tree what the second makes of what the first makes of it. -/
theorem transform_append (t : Term) : (R ++ S).transform t = S.transform (R.transform t) := by
  rw [eq_comm, eq_transform_iff (hR.append hS)]
  intro p
  have hlabel := congrArg
    (Option.map fun l => (⟨l.1, S.headAfter l.1 ⟨p.length⟩ l.2⟩ : (c : TermClass) × Head c))
    (label_transform hR t p)
  rw [Option.map_map, Option.map_map] at hlabel
  rw [label_transform hS]
  refine hlabel.trans ?_
  congr 1
  funext s
  rw [Function.comp_apply, headAfter_append hS]

theorem firedFrom_append (v : Visit) (t : Term) :
    (R ++ S).firedFrom v t =
      R.firedFrom v t + S.firedFrom v (t.traverseFrom R.visitor v).value := by
  induction t using Term.induction generalizing v with
  | step t ih =>
    -- the second ruleset meets the node as the first one has left it, but with other children
    have hroot : S.firedAt v (Term.visited R.visitor v t) =
        S.firedAt v (t.traverseFrom R.visitor v).value :=
      firedAt_congr hS v (Term.label_value_traverseFrom R.visitor v t).symm
    have hchildren : (t.traverseFrom R.visitor v).value.children =
        t.children.map fun s => (s.traverseFrom R.visitor v.enter).value := by
      rw [Term.children_value_traverseFrom, Term.children_visited (actsOnHead_visitor hR).parts]
    rw [firedFrom_of_actsOnHead (hR.append hS), firedFrom_of_actsOnHead hR,
      firedFrom_of_actsOnHead hS, hchildren, firedAt_append, List.map_map,
      List.map_congr_left fun s hs => ih s hs v.enter, List.sum_map_add, hroot]
    exact Nat.add_add_add_comm ..

/-- Both rulesets at once fire as often as one after the other. -/
theorem fired_append (t : Term) :
    ((R ++ S).stats t).fired = (R.stats t).fired + (S.stats (R.transform t)).fired := by
  rw [fired_eq_length, fired_eq_length, fired_eq_length, transform_eq_run]
  exact firedFrom_append hR hS .root t

end

/-- **Built-in rulesets one after the other.** To apply two rulesets at once gives the term that
comes out if the first is applied to the term and then the second to the result, and rules fire as
often as in both applications together. -/
theorem builtin_transform_append (hR : R.CompiledBy .builtin) (hS : S.CompiledBy .builtin)
    (t : Term) :
    (R ++ S).transform t = S.transform (R.transform t) ∧
      ((R ++ S).stats t).fired = (R.stats t).fired + (S.stats (R.transform t)).fired :=
  ⟨transform_append hR.actsOnHead hS.actsOnHead t, fired_append hR.actsOnHead hS.actsOnHead t⟩

/-- The ruleset `((has-color red) (rename r))`. -/
def relabeling : Ruleset where
  rules :=
    [{ predicates := [⟨⟨"has-color", some "red"⟩, (Condition.valueIs colorKey "red").test⟩]
       actions := [⟨⟨"rename", some "r"⟩, (Change.rename "r").edit⟩] }]

theorem relabeling_compiledBy : relabeling.CompiledBy .builtin := by
  intro r hr
  obtain rfl := List.mem_singleton.mp hr
  refine ⟨.list [.list [.atom "has-color", .atom "red"], .list [.atom "rename", .atom "r"]], ?_⟩
  rw [Rule.outcome_compile_eq_units]
  rfl

theorem builtin_transform_append_relabeling :
    let t : Term := ⟨.block, ⟨"b", .empty, ()⟩, ⟨[], [⟨⟨"d", .empty, none⟩, ()⟩], []⟩⟩
    let color := SortedMap.empty.insert colorKey (some "red")
    coloring.CompiledBy .builtin ∧ relabeling.CompiledBy .builtin ∧
      relabeling.transform (coloring.transform t) =
        ⟨.block, ⟨"r", color, ()⟩, ⟨[], [⟨⟨"d", .empty, none⟩, ()⟩], []⟩⟩ ∧
      (coloring ++ relabeling).transform t = relabeling.transform (coloring.transform t) ∧
      ((coloring ++ relabeling).stats t).fired = 1 + 1 := by
  intro t color
  obtain ⟨htransform, hfired⟩ :=
    builtin_transform_append coloring_compiledBy relabeling_compiledBy t
  exact ⟨coloring_compiledBy, relabeling_compiledBy, rfl, htransform, hfired⟩

end Ruleset

end TermRules
