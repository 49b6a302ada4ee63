import TermRules.Proofs.Application.Encounters
import TermRules.Proofs.Builtin.Locations

/-!
# Independent rules

The order of rules matters in general, since a rule sees what the rules before it did. What a
built-in rule reads and writes shows in its expressions: `Rule.Reads` says on which locations of a
node its predicates depend (`Rule.BoundBy.holds_congr`), and `Rule.Writes` which locations its
actions may change (`Rule.BoundBy.keeps_edit`).

Two rules are independent if neither writes what the other reads or writes. Then neither decides
whether the other fires, and what both do to a node is the same in either order
(`Rule.IsIndependentOf.commutesWith`). So two such rules that stand next to each other can be
swapped, whatever rules come before and after them: `Ruleset.builtin_transform_swap`.
-/

namespace TermRules

/-! ## Rules that commute on nodes -/

/-- On each node, neither of the rules decides whether the other one fires, and both do the same in
either order. -/
structure Rule.CommutesWith (r s : Rule) : Prop where
  edit : ∀ c v (n : NodeOf c), s.edit c v (r.edit c v n) = r.edit c v (s.edit c v n)
  left : ∀ c v (n : NodeOf c), r.holds ⟨c, s.edit c v n⟩ v = r.holds ⟨c, n⟩ v
  right : ∀ c v (n : NodeOf c), s.holds ⟨c, r.edit c v n⟩ v = s.holds ⟨c, n⟩ v

namespace Ruleset

theorem sameOnNodes_swap {r s : Rule} (h : r.CommutesWith s) :
    SameOnNodes (⟨[s]⟩ ++ ⟨[r]⟩) (⟨[r]⟩ ++ ⟨[s]⟩) := by
  constructor
  · intro v t
    simp only [visited_append, visited_singleton]
    rw [h.edit]
  · intro v t
    simp only [firedAt_append, firedAt_singleton, visited_singleton]
    rw [h.left, h.right]
    exact Nat.add_comm ..

/-- Rules that commute on nodes can be swapped between any others. -/
theorem sameOnNodes_swap_between {r s : Rule} (h : r.CommutesWith s) (before after : List Rule) :
    SameOnNodes ⟨before ++ s :: r :: after⟩ ⟨before ++ r :: s :: after⟩ :=
  (SameOnNodes.refl ⟨before⟩).append ((sameOnNodes_swap h).append (.refl ⟨after⟩))

end Ruleset

/-! ## What is kept and what is depended on -/

/-- The edit changes nothing at the location. -/
def Edit.Keeps (edit : Edit) (l : Location) : Prop :=
  ∀ c v (n : NodeOf c), (edit c v n).toHead.read l = n.toHead.read l

namespace Edit.Keeps

variable {l : Location}

theorem ite {edit : Edit} (h : edit.Keeps l) (test : Test) :
    Keeps (fun c v n => if test ⟨c, n⟩ v then edit c v n else n) l := by
  intro c v n
  change (if test ⟨c, n⟩ v then edit c v n else n).toHead.read l = n.toHead.read l
  split
  · exact h c v n
  · rfl

theorem foldl {α : Type} {edit : α → Edit} {as : List α} (h : ∀ a ∈ as, (edit a).Keeps l) :
    Keeps (fun c v n => as.foldl (fun n a => edit a c v n) n) l := by
  induction as with
  | nil => exact fun _ _ _ => rfl
  | cons a as ih =>
    obtain ⟨ha, has⟩ := List.forall_mem_cons.mp h
    intro c v n
    exact (ih has c v (edit a c v n)).trans (ha c v n)

end Edit.Keeps

/-- What stands at a location after a blind write depends on nothing but what stood there. -/
theorem KeepsOrSets.read_congr {c : TermClass} {f : Head c → Head c} {l : Location}
    (hf : KeepsOrSets f l) {head head' : Head c} (h : head.read l = head'.read l) :
    (f head).read l = (f head').read l := by
  cases hf with
  | keeps hf => rw [hf, hf, h]
  | sets value hf => rw [hf, hf]

/-- Two edits that write blindly can be made in either order if one of them keeps what the other
changes, at every location. -/
theorem Edit.WritesBlindly.comm {e₁ e₂ : Edit} (h₁ : e₁.WritesBlindly) (h₂ : e₂.WritesBlindly)
    (h : ∀ l, e₁.Keeps l ∨ e₂.Keeps l) (c : TermClass) (v : Visit) (n : NodeOf c) :
    e₂ c v (e₁ c v n) = e₁ c v (e₂ c v n) := by
  obtain ⟨write₁, hwrite₁, hblind₁⟩ := h₁
  obtain ⟨write₂, hwrite₂, hblind₂⟩ := h₂
  have hkeeps₁ : ∀ l, e₁.Keeps l → ∀ head, (write₁ c head).read l = head.read l := by
    intro l hl head
    have hnode := hl c v ⟨head, n.parts⟩
    rwa [hwrite₁] at hnode
  have hkeeps₂ : ∀ l, e₂.Keeps l → ∀ head, (write₂ c head).read l = head.read l := by
    intro l hl head
    have hnode := hl c v ⟨head, n.parts⟩
    rwa [hwrite₂] at hnode
  have hhead : write₂ c (write₁ c n.toHead) = write₁ c (write₂ c n.toHead) := by
    refine Head.ext_read fun l => ?_
    rcases h l with hl | hl
    · rw [hkeeps₁ l hl]
      exact (hblind₂ c l).read_congr (hkeeps₁ l hl n.toHead)
    · rw [hkeeps₂ l hl]
      exact ((hblind₁ c l).read_congr (hkeeps₂ l hl n.toHead)).symm
  rw [hwrite₁, hwrite₂, hwrite₂, hwrite₁, hhead]

/-! ## What built-in predicates read -/

/-- The locations that a condition depends on. -/
def Condition.Reads : Condition → Location → Prop
  | isClass _, _ | isInstruction, _ | isRoot, _ => False
  | hasAttr key, l | hasValue key, l | valueIs key _, l => l = .attr key
  | nameIs _, l => l = .name
  | intentIs _, l => l = .intent
  | codeContains _, l => l = .code

theorem Condition.holds_congr (k : Condition) {c : TermClass} (v : Visit) {h h' : Head c}
    (hread : ∀ l, k.Reads l → h.read l = h'.read l) : k.holds v h = k.holds v h' := by
  have hattr : ∀ key, h.read (.attr key) = h'.read (.attr key) → h.attr? key = h'.attr? key :=
    fun _ hget => congrArg Option.join hget
  cases k with
  | isClass d => rfl
  | isInstruction => rfl
  | isRoot => rfl
  | hasAttr key => exact congrArg Option.isSome (hread (.attr key) rfl)
  | hasValue key => exact congrArg Option.isSome (hattr key (hread _ rfl))
  | valueIs key value => exact congrArg (· == some value) (hattr key (hread _ rfl))
  | nameIs name => exact congrArg (· == name) (hread .name rfl)
  | intentIs intent => exact congrArg (· == some intent) (hread .intent rfl)
  | codeContains text =>
    have hcode : h.code? = h'.code? := hread .code rfl
    rw [holds, holds, hcode]

theorem Change.keeps_edit (k : Change) {l : Location} (hl : ¬k.Writes l) : Edit.Keeps k.edit l :=
  fun _ _ n => k.read_apply n.toHead hl

/-! ## What built-in rules read and write -/

namespace Rule

/-- A predicate of the rule depends on the location. -/
def Reads (r : Rule) (l : Location) : Prop :=
  ∃ p ∈ r.predicates, ∃ k, Condition.builtins.resolve p.expr = .ok k ∧ k.Reads l

/-- An action of the rule may change the location. -/
def Writes (r : Rule) (l : Location) : Prop :=
  ∃ a ∈ r.actions, ∃ k, Change.builtins.resolve a.expr = .ok k ∧ k.Writes l

/-- Neither rule writes what the other one reads or writes. -/
structure IsIndependentOf (r s : Rule) : Prop where
  left : ∀ l, r.Writes l → ¬s.Reads l ∧ ¬s.Writes l
  right : ∀ l, s.Writes l → ¬r.Reads l ∧ ¬r.Writes l

namespace BoundBy

variable {r : Rule} (h : r.BoundBy .builtin)

include h

theorem holds_congr {c : TermClass} (v : Visit) {m n : NodeOf c}
    (hread : ∀ l, r.Reads l → m.toHead.read l = n.toHead.read l) :
    r.holds ⟨c, m⟩ v = r.holds ⟨c, n⟩ v := by
  refine Rule.holds_congr fun p hp => ?_
  obtain ⟨k, hk, hmeaning⟩ := Namespace.exists_of_resolve_map (h.predicates p hp)
  rw [hmeaning]
  exact k.holds_congr v fun l hl => hread l ⟨p, hp, k, hk, hl⟩

theorem keeps_apply {l : Location} (hl : ¬r.Writes l) : Edit.Keeps r.apply l := by
  refine .foldl fun a ha => ?_
  obtain ⟨k, hk, hmeaning⟩ := Namespace.exists_of_resolve_map (h.actions a ha)
  rw [hmeaning]
  exact k.keeps_edit fun hwrites => hl ⟨a, ha, k, hk, hwrites⟩

theorem keeps_edit {l : Location} (hl : ¬r.Writes l) : Edit.Keeps r.edit l :=
  (h.keeps_apply hl).ite r.holds

/-- Another rule that writes nothing of what the rule reads does not decide whether it fires. -/
theorem holds_edit {s : Rule} (hs : s.BoundBy .builtin) (hrs : ∀ l, s.Writes l → ¬r.Reads l)
    (c : TermClass) (v : Visit) (n : NodeOf c) :
    r.holds ⟨c, s.edit c v n⟩ v = r.holds ⟨c, n⟩ v :=
  h.holds_congr v fun l hl => hs.keeps_edit (fun hwrites => hrs l hwrites hl) c v n

end BoundBy

namespace IsIndependentOf

variable {r s : Rule}

theorem commutesWith (h : r.IsIndependentOf s) (hr : r.BoundBy .builtin)
    (hs : s.BoundBy .builtin) : r.CommutesWith s := by
  have hleft : ∀ c v (n : NodeOf c), r.holds ⟨c, s.edit c v n⟩ v = r.holds ⟨c, n⟩ v :=
    hr.holds_edit hs fun l hl => (h.right l hl).1
  have hright : ∀ c v (n : NodeOf c), s.holds ⟨c, r.edit c v n⟩ v = s.holds ⟨c, n⟩ v :=
    hs.holds_edit hr fun l hl => (h.left l hl).1
  have hkeeps : ∀ l, Edit.Keeps r.apply l ∨ Edit.Keeps s.apply l := by
    intro l
    by_cases hl : r.Writes l
    · exact .inr (hs.keeps_apply (h.left l hl).2)
    · exact .inl (hr.keeps_apply hl)
  refine ⟨fun c v n => ?_, hleft, hright⟩
  have happly : s.apply c v (r.apply c v n) = r.apply c v (s.apply c v n) :=
    hr.writesBlindly_apply.comm hs.writesBlindly_apply hkeeps c v n
  -- which of the rules fire is the same in either order
  by_cases hrn : r.holds ⟨c, n⟩ v = true <;> by_cases hsn : s.holds ⟨c, n⟩ v = true
  · rw [edit_of_holds ((hright c v n).trans hsn), edit_of_holds ((hleft c v n).trans hrn),
      edit_of_holds hrn, edit_of_holds hsn, happly]
  · rw [edit_of_not_holds hsn, edit_of_not_holds fun h => hsn ((hright c v n).symm.trans h)]
  · rw [edit_of_not_holds hrn, edit_of_not_holds fun h => hrn ((hleft c v n).symm.trans h)]
  · rw [edit_of_not_holds hrn, edit_of_not_holds hsn, edit_of_not_holds hrn]

end IsIndependentOf

end Rule

namespace Ruleset

/-- **Independent built-in rules commute.** Let two rules stand next to each other in a built-in
ruleset, and let neither write what the other reads or writes: the name, the intent, or the
attribute with some key. If they are swapped, the same term comes out of every term, with as many
visits and as many firings. -/
theorem builtin_transform_swap {before after : List Rule} {r s : Rule}
    (h : CompiledBy .builtin ⟨before ++ r :: s :: after⟩) (hrs : r.IsIndependentOf s) (t : Term) :
    transform ⟨before ++ s :: r :: after⟩ t = transform ⟨before ++ r :: s :: after⟩ t ∧
      stats ⟨before ++ s :: r :: after⟩ t = stats ⟨before ++ r :: s :: after⟩ t := by
  have hr : r.BoundBy .builtin := h.boundBy r (by simp)
  have hs : s.BoundBy .builtin := h.boundBy s (by simp)
  have hsame := sameOnNodes_swap_between (hrs.commutesWith hr hs) before after
  exact ⟨hsame.transform_eq t, hsame.stats_eq t⟩

/-- The rule `((has-comment) (clear-attrs))`. -/
def clearing : Rule where
  predicates := [⟨⟨"has-comment", none⟩, (Condition.hasValue commentKey).test⟩]
  actions := [⟨⟨"clear-attrs", none⟩, Change.clearAttrs.edit⟩]

/-- The rule `((has-name a) ((rename b) (set-intent both)))`. -/
def naming : Rule where
  predicates := [⟨⟨"has-name", some "a"⟩, (Condition.nameIs "a").test⟩]
  actions :=
    [⟨⟨"rename", some "b"⟩, (Change.rename "b").edit⟩,
      ⟨⟨"set-intent", some "both"⟩, (Change.setIntent .both).edit⟩]

/-- The rule `((has-name b) (set-attr done))`, which sees what `naming` does. -/
def marking : Rule where
  predicates := [⟨⟨"has-name", some "b"⟩, (Condition.nameIs "b").test⟩]
  actions := [⟨⟨"set-attr", some "done"⟩, (Change.setAttr "done" none).edit⟩]

theorem compiledBy_clearing_naming_marking :
    CompiledBy .builtin ⟨[] ++ clearing :: naming :: [marking]⟩ := by
  intro r hr
  simp only [List.nil_append, List.mem_cons, List.not_mem_nil, or_false] at hr
  rcases hr with rfl | rfl | rfl
  · refine ⟨.list [.list [.atom "has-comment"], .list [.atom "clear-attrs"]], ?_⟩
    rw [Rule.outcome_compile_eq_units]
    rfl
  · refine ⟨.list [.list [.atom "has-name", .atom "a"],
      .list [.list [.atom "rename", .atom "b"], .list [.atom "set-intent", .atom "both"]]], ?_⟩
    rw [Rule.outcome_compile_eq_units]
    rfl
  · refine ⟨.list [.list [.atom "has-name", .atom "b"], .list [.atom "set-attr", .atom "done"]], ?_⟩
    rw [Rule.outcome_compile_eq_units]
    rfl

theorem isIndependentOf_clearing_naming : clearing.IsIndependentOf naming := by
  -- the one rule is about attributes, the other about the name and the intent
  have hclearing : ∀ l, clearing.Reads l ∨ clearing.Writes l → ∃ key, l = .attr key := by
    rintro l (⟨p, hp, k, hk, hl⟩ | ⟨a, ha, k, hk, hl⟩)
    · obtain rfl := List.mem_singleton.mp hp
      cases hk
      exact ⟨commentKey, hl⟩
    · obtain rfl := List.mem_singleton.mp ha
      cases hk
      exact hl
  have hnaming : ∀ l, naming.Reads l ∨ naming.Writes l → l = .name ∨ l = .intent := by
    rintro l (⟨p, hp, k, hk, hl⟩ | ⟨a, ha, k, hk, hl⟩)
    · obtain rfl := List.mem_singleton.mp hp
      cases hk
      exact .inl hl
    · rcases List.mem_pair.mp ha with rfl | rfl
      · cases hk
        exact .inl hl
      · cases hk
        exact .inr hl
  have hdisjoint : ∀ l, clearing.Reads l ∨ clearing.Writes l →
      ¬(naming.Reads l ∨ naming.Writes l) := by
    intro l hl hl'
    obtain ⟨key, rfl⟩ := hclearing l hl
    rcases hnaming _ hl' with h | h <;> cases h
  constructor
  · exact fun l hl => not_or.mp (hdisjoint l (.inr hl))
  · intro l hl
    exact ⟨fun h => hdisjoint l (.inl h) (.inr hl), fun h => hdisjoint l (.inr h) (.inr hl)⟩

/-- Both rules fire on the subroutine and on its block, and the third on all that is named `b`. -/
theorem builtin_transform_swap_clearing :
    let old : Attrs := SortedMap.empty.insert commentKey (some "old")
    let done : Attrs := SortedMap.empty.insert "done" none
    let jump : Leaf .jump := ⟨⟨"j", old, none⟩, ()⟩
    let cleared : Leaf .jump := ⟨⟨"j", .empty, none⟩, ()⟩
    let before : Term := ⟨.subroutine, ⟨"a", old, ()⟩,
      ⟨[⟨⟨"a", .empty, some .input⟩, ()⟩], [⟨⟨"a", old, ()⟩, ⟨[], [], [jump]⟩⟩]⟩⟩
    let after : Term := ⟨.subroutine, ⟨"b", done, ()⟩,
      ⟨[⟨⟨"b", done, some .both⟩, ()⟩], [⟨⟨"b", done, ()⟩, ⟨[], [], [cleared]⟩⟩]⟩⟩
    CompiledBy .builtin ⟨[] ++ clearing :: naming :: [marking]⟩ ∧
      clearing.IsIndependentOf naming ∧
      transform ⟨[clearing, naming, marking]⟩ before = after ∧
      transform ⟨[naming, clearing, marking]⟩ before = after ∧
      stats ⟨[naming, clearing, marking]⟩ before = ⟨4, 9⟩ := by
  intro old done jump cleared before after
  have h := compiledBy_clearing_naming_marking
  have hindependent := isIndependentOf_clearing_naming
  have hafter : transform ⟨[clearing, naming, marking]⟩ before = after := rfl
  have hstats : stats ⟨[clearing, naming, marking]⟩ before = ⟨4, 9⟩ := rfl
  obtain ⟨htransform, hcounts⟩ := builtin_transform_swap h hindependent before
  exact ⟨h, hindependent, hafter, htransform.trans hafter, hcounts.trans hstats⟩

end Ruleset

end TermRules
