import TermRules.Builtin.Change
import TermRules.Proofs.Application.Nodewise
import TermRules.Proofs.Ruleset.Diagnosis

/-!
# Built-in rules act on nodes by themselves

Each built-in predicate is the test of a condition, and each built-in action the edit of a change,
so that rules compiled against the built-in registry look at nothing but what nodes have of their
own (`Ruleset.CompiledBy.actsOnHead`). The application of such rules is a map over the nodes of a
tree: `builtin_transform_nodewise`.
-/

namespace TermRules

theorem Condition.readsHead_test (k : Condition) : Test.ReadsHead k.test := by
  intro c v m n h
  change k.holds v m.toHead = k.holds v n.toHead
  rw [h]

theorem Change.retains_apply (k : Change) {c : TermClass} (h : Head c) :
    h.Retains (k.apply h) := by
  cases k with
  | setAttr key value => cases c <;> exact ⟨rfl, id⟩
  | clearAttr key => cases c <;> exact ⟨rfl, id⟩
  | clearAttrs => cases c <;> exact ⟨rfl, id⟩
  | rename name => cases c <;> exact ⟨rfl, id⟩
  | setIntent intent =>
    cases c
    case argument => exact ⟨rfl, fun _ => rfl⟩
    all_goals exact .refl h

theorem Change.actsOnHead_edit (k : Change) : Edit.ActsOnHead k.edit := by
  refine ⟨fun _ _ _ => rfl, ?_, ?_⟩
  · intro c v m n h
    exact congrArg k.apply h
  · intro c v n
    exact k.retains_apply n.toHead

namespace Rule

theorem BoundBy.actsOnHead {r : Rule} (h : r.BoundBy .builtin) : r.ActsOnHead := by
  constructor
  · intro p hp
    obtain ⟨k, -, hk⟩ := Namespace.exists_of_resolve_map (h.predicates p hp)
    rw [hk]
    exact k.readsHead_test
  · intro a ha
    obtain ⟨k, -, hk⟩ := Namespace.exists_of_resolve_map (h.actions a ha)
    rw [hk]
    exact k.actsOnHead_edit

end Rule

namespace Ruleset

theorem CompiledBy.actsOnHead {R : Ruleset} (h : R.CompiledBy .builtin) : R.ActsOnHead :=
  fun r hr => (h.boundBy r hr).actsOnHead

/-- **Built-in rules map the nodes of a tree.** A term is the result if and only if it has at each
address what `headAfter` makes of what was there, given the class and the number of ancestors. So
the classes and the numbers of children stay, as do the codes of instructions. No argument loses
its intent, there are as many visits as nodes before, and the result at an address depends on
nothing but the class of the node there and what the node has of its own. -/
theorem builtin_transform_nodewise {R : Ruleset} (h : R.CompiledBy .builtin) (t : Term) :
    (∀ u, u = R.transform t ↔ ∀ p, (u.subterm? p).map Term.label =
        (t.subterm? p).map fun s => ⟨s.cls, R.headAfter s.cls ⟨p.length⟩ s.head⟩) ∧
      (∀ p, ((R.transform t).subterm? p).map (fun s => (s.cls, s.children.length)) =
        (t.subterm? p).map fun s => (s.cls, s.children.length)) ∧
      (∀ p, ((R.transform t).subterm? p).map (fun s => s.head.code?) =
        (t.subterm? p).map fun s => s.head.code?) ∧
      (∀ p, ((t.subterm? p).bind fun s => s.head.intent?).isSome = true →
        (((R.transform t).subterm? p).bind fun s => s.head.intent?).isSome = true) ∧
      (R.stats t).visited = t.size ∧
      ∀ u p, (t.subterm? p).map Term.label = (u.subterm? p).map Term.label →
        ((R.transform t).subterm? p).map Term.label =
          ((R.transform u).subterm? p).map Term.label := by
  have hacts := h.actsOnHead
  exact ⟨eq_transform_iff hacts t, shape_transform hacts t, code?_transform hacts t,
    intent?_transform hacts t, visited_eq_size_of_actsOnHead hacts t,
    label_transform_congr hacts t⟩

/-- The ruleset `((is-root) (set-color red))`. -/
def coloring : Ruleset where
  rules :=
    [{ predicates := [⟨⟨"is-root", none⟩, Condition.isRoot.test⟩]
       actions := [⟨⟨"set-color", some "red"⟩, (Change.setAttr colorKey (some "red")).edit⟩] }]

theorem coloring_compiledBy : coloring.CompiledBy .builtin := by
  intro r hr
  obtain rfl := List.mem_singleton.mp hr
  refine ⟨.list [.list [.atom "is-root"], .list [.atom "set-color", .atom "red"]], ?_⟩
  rw [Rule.outcome_compile_eq_units]
  rfl

/-- The ruleset `((is-root) (set-color red)) ((has-attr a) ((clear-attr a) (rename n)))`. -/
def coloringAndRenaming : Ruleset where
  rules := coloring.rules ++
    [{ predicates := [⟨⟨"has-attr", some "a"⟩, (Condition.hasAttr "a").test⟩]
       actions :=
         [⟨⟨"clear-attr", some "a"⟩, (Change.clearAttr "a").edit⟩,
           ⟨⟨"rename", some "n"⟩, (Change.rename "n").edit⟩] }]

theorem coloringAndRenaming_compiledBy : coloringAndRenaming.CompiledBy .builtin := by
  intro r hr
  rcases List.mem_append.mp hr with hr | hr
  · exact coloring_compiledBy r hr
  · obtain rfl := List.mem_singleton.mp hr
    refine ⟨.list [.list [.atom "has-attr", .atom "a"],
      .list [.list [.atom "clear-attr", .atom "a"], .list [.atom "rename", .atom "n"]]], ?_⟩
    rw [Rule.outcome_compile_eq_units]
    rfl

/-- The root gets a colour, and the argument and the definition get a name: at each address stands
what the rules make of what was there. -/
theorem builtin_transform_nodewise_coloringAndRenaming :
    let a : Attrs := SortedMap.empty.insert "a" none
    let red : Attrs := SortedMap.empty.insert colorKey (some "red")
    let jump : Leaf .jump := ⟨⟨"j", .empty, none⟩, ()⟩
    let block (d : Leaf .definition) : Block := ⟨⟨"b", .empty, ()⟩, ⟨[], [d], [jump]⟩⟩
    let before : Term := ⟨.subroutine, ⟨"f", .empty, ()⟩,
      ⟨[⟨⟨"x", a, some .input⟩, ()⟩], [block ⟨⟨"d", a, some "nop"⟩, ()⟩]⟩⟩
    let after : Term := ⟨.subroutine, ⟨"f", red, ()⟩,
      ⟨[⟨⟨"n", .empty, some .input⟩, ()⟩], [block ⟨⟨"n", .empty, some "nop"⟩, ()⟩]⟩⟩
    coloringAndRenaming.CompiledBy .builtin ∧ coloringAndRenaming.transform before = after ∧
      (∀ p, (after.subterm? p).map Term.label = (before.subterm? p).map fun s =>
        ⟨s.cls, coloringAndRenaming.headAfter s.cls ⟨p.length⟩ s.head⟩) ∧
      coloringAndRenaming.headAfter .definition ⟨2⟩ ⟨"d", a, some "nop"⟩ =
        ⟨"n", .empty, some "nop"⟩ ∧
      (coloringAndRenaming.stats before).visited = before.size := by
  intro a red jump block before after
  have hafter : coloringAndRenaming.transform before = after := rfl
  obtain ⟨hmap, -, -, -, hvisited, -⟩ :=
    builtin_transform_nodewise coloringAndRenaming_compiledBy before
  exact ⟨coloringAndRenaming_compiledBy, hafter, (hmap after).mp hafter.symm, rfl, hvisited⟩

end Ruleset

end TermRules
