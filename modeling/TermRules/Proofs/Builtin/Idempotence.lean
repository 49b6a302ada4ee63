import TermRules.Proofs.Application.Succession
import TermRules.Proofs.Builtin.Locations

/-!
# Repeated application of a rule

A built-in rule may turn its own predicates true or false. All the same, to apply it to a tree once
more changes nothing (`Ruleset.builtin_transform_idempotent`): where it does not fire the second
time there is no change, and where it does its actions find the node as they would leave it
(`Rule.edit_edit`). That the whole tree does not change is then a matter of single nodes, as for
all rules that act on nodes by themselves (`Ruleset.transform_transform`).
-/

namespace TermRules

/-- A rule may be tried again to no effect if all of its actions may be made again to no effect. -/
theorem Rule.edit_edit {r : Rule} {c : TermClass} {v : Visit}
    (happly : ∀ n : NodeOf c, r.apply c v (r.apply c v n) = r.apply c v n) (n : NodeOf c) :
    r.edit c v (r.edit c v n) = r.edit c v n := by
  by_cases hfires : r.holds ⟨c, n⟩ v = true
  · rw [edit_of_holds hfires]
    by_cases hagain : r.holds ⟨c, r.apply c v n⟩ v = true
    · rw [edit_of_holds hagain, happly]
    · rw [edit_of_not_holds hagain]
  · rw [edit_of_not_holds hfires, edit_of_not_holds hfires]

namespace Ruleset

theorem headAfter_singleton (r : Rule) (c : TermClass) (v : Visit) (head : Head c) :
    headAfter ⟨[r]⟩ c v head = (r.edit c v ⟨head, Parts.ofTerms c []⟩).toHead :=
  congrArg Node.toHead (value_applyRules 0 v [r] _)

/-- What a rule that may be tried again makes of what a node has of its own, it leaves as it is. -/
theorem headAfter_headAfter {r : Rule} (hacts : r.ActsOnHead) {c : TermClass} {v : Visit}
    (hedit : ∀ n : NodeOf c, r.edit c v (r.edit c v n) = r.edit c v n) (head : Head c) :
    headAfter ⟨[r]⟩ c v (headAfter ⟨[r]⟩ c v head) = headAfter ⟨[r]⟩ c v head := by
  generalize hn : (⟨head, Parts.ofTerms c []⟩ : NodeOf c) = n
  have hparts : (r.edit c v n).parts = Parts.ofTerms c [] := by
    rw [(Rule.actsOnHead_edit hacts).parts, ← hn]
  have hnode : (⟨(r.edit c v n).toHead, Parts.ofTerms c []⟩ : NodeOf c) = r.edit c v n := by
    rw [← hparts]
  rw [headAfter_singleton, headAfter_singleton, hn, hnode, hedit]

/-- Rules that act on nodes by themselves may be applied to a tree again to no effect if they may
be tried again on each node to no effect. -/
theorem transform_transform {R : Ruleset} (h : R.ActsOnHead)
    (hhead : ∀ c v head, R.headAfter c v (R.headAfter c v head) = R.headAfter c v head) (t : Term) :
    R.transform (R.transform t) = R.transform t := by
  rw [← transform_append h h, eq_transform_iff h]
  intro p
  rw [label_transform (h.append h)]
  congr 1
  funext s
  rw [headAfter_append h, hhead]

/-- **Built-in rules are idempotent.** To apply a built-in rule to the result of its application
changes nothing. -/
theorem builtin_transform_idempotent {x : Sexp} {r : Rule}
    (h : (Rule.compile .builtin x).outcome = .ok r) (t : Term) :
    transform ⟨[r]⟩ (transform ⟨[r]⟩ t) = transform ⟨[r]⟩ t := by
  have hbound : r.BoundBy .builtin := Rule.boundBy_of_compile h
  have hacts : ActsOnHead ⟨[r]⟩ := fun s hs => List.mem_singleton.mp hs ▸ hbound.actsOnHead
  refine transform_transform hacts (fun c v head => ?_) t
  have hedit : ∀ n : NodeOf c, r.edit c v (r.edit c v n) = r.edit c v n :=
    Rule.edit_edit (hbound.writesBlindly_apply.edit_edit c v)
  exact headAfter_headAfter hbound.actsOnHead hedit head

/-- The rule `((has-attr a) ((clear-attrs) (set-attr b) (rename n)))`, which takes away the
attribute that it asks for. -/
def stripping : Rule where
  predicates := [⟨⟨"has-attr", some "a"⟩, (Condition.hasAttr "a").test⟩]
  actions :=
    [⟨⟨"clear-attrs", none⟩, Change.clearAttrs.edit⟩,
      ⟨⟨"set-attr", some "b"⟩, (Change.setAttr "b" none).edit⟩,
      ⟨⟨"rename", some "n"⟩, (Change.rename "n").edit⟩]

theorem outcome_compile_stripping :
    (Rule.compile .builtin (.list [.list [.atom "has-attr", .atom "a"],
      .list [.list [.atom "clear-attrs"], .list [.atom "set-attr", .atom "b"],
        .list [.atom "rename", .atom "n"]]])).outcome = .ok stripping := by
  rw [Rule.outcome_compile_eq_units]
  rfl

/-- The rule fires on the block and its definition but not on its jump, and on none of them
again. -/
theorem builtin_transform_idempotent_stripping :
    let a : Attrs := SortedMap.empty.insert "a" none
    let b : Attrs := SortedMap.empty.insert "b" none
    let jump : Leaf .jump := ⟨⟨"j", .empty, some "ret"⟩, ()⟩
    let t : Term := ⟨.block, ⟨"x", a, ()⟩, ⟨[], [⟨⟨"d", a, some "nop"⟩, ()⟩], [jump]⟩⟩
    transform ⟨[stripping]⟩ t =
        ⟨.block, ⟨"n", b, ()⟩, ⟨[], [⟨⟨"n", b, some "nop"⟩, ()⟩], [jump]⟩⟩ ∧
      transform ⟨[stripping]⟩ (transform ⟨[stripping]⟩ t) = transform ⟨[stripping]⟩ t := by
  intro a b jump t
  exact ⟨rfl, builtin_transform_idempotent outcome_compile_stripping t⟩

end Ruleset

end TermRules
