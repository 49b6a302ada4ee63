import TermRules.Proofs.Application.Coverage

/-!
# Rules that act on nodes by themselves

A test that reads nothing but what a node has of its own (`Test.ReadsHead`) and edits that act on
nothing else (`Edit.ActsOnHead`) make up rules that act on each node by itself. Such edits can be
made one after the other (`Edit.ActsOnHead.foldl`), so that all rules together make up one edit of
this kind (`Ruleset.actsOnHead_visitor`).

`Ruleset.headAfter` is what becomes of what a node has of its own. The tree that comes out has at
each address what `headAfter` makes of what was there (`label_transform`), and otherwise the shape
that it had (`shape_transform`).
-/

namespace TermRules

/-! ## Tests and edits of what nodes have of their own -/

/-- What an instruction has as its code stays, and an argument that has an intent keeps one. -/
structure Head.Retains {c : TermClass} (h h' : Head c) : Prop where
  code : h'.code? = h.code?
  intent : h.intent?.isSome = true → h'.intent?.isSome = true

theorem Head.Retains.refl {c : TermClass} (h : Head c) : h.Retains h := ⟨rfl, id⟩

theorem Head.Retains.trans {c : TermClass} {h₁ h₂ h₃ : Head c} (h₁₂ : h₁.Retains h₂)
    (h₂₃ : h₂.Retains h₃) : h₁.Retains h₃ :=
  ⟨h₂₃.code.trans h₁₂.code, fun h => h₂₃.intent (h₁₂.intent h)⟩

/-- The test depends on nothing but the place, the class, and what a node has of its own. -/
def Test.ReadsHead (test : Test) : Prop :=
  ∀ c v (m n : NodeOf c), m.toHead = n.toHead → test ⟨c, m⟩ v = test ⟨c, n⟩ v

/-- The edit leaves the parts of a node alone. What it makes of the rest depends on nothing but the
place, the class, and the rest. It changes no code and takes no intent away. -/
structure Edit.ActsOnHead (edit : Edit) : Prop where
  parts : ∀ c v (n : NodeOf c), (edit c v n).parts = n.parts
  head : ∀ c v (m n : NodeOf c), m.toHead = n.toHead → (edit c v m).toHead = (edit c v n).toHead
  retains : ∀ c v (n : NodeOf c), n.toHead.Retains (edit c v n).toHead

namespace Edit.ActsOnHead

/-- The edit that changes nothing. -/
theorem id : ActsOnHead fun _ _ n => n :=
  ⟨fun _ _ _ => rfl, fun _ _ _ _ h => h, fun _ _ n => .refl n.toHead⟩

/-- One edit after another. -/
theorem comp {e₁ e₂ : Edit} (h₁ : e₁.ActsOnHead) (h₂ : e₂.ActsOnHead) :
    ActsOnHead fun c v n => e₂ c v (e₁ c v n) := by
  refine ⟨?_, ?_, ?_⟩
  · intro c v n
    rw [h₂.parts, h₁.parts]
  · intro c v m n h
    exact h₂.head c v _ _ (h₁.head c v m n h)
  · intro c v n
    exact (h₁.retains c v n).trans (h₂.retains c v (e₁ c v n))

/-- An edit that is made if a test holds. -/
theorem ite {edit : Edit} {test : Test} (hedit : edit.ActsOnHead) (htest : test.ReadsHead) :
    ActsOnHead fun c v n => if test ⟨c, n⟩ v then edit c v n else n := by
  refine ⟨?_, ?_, ?_⟩
  · intro c v n
    split
    · exact hedit.parts c v n
    · rfl
  · intro c v m n h
    simp only [htest c v m n h]
    split
    · exact hedit.head c v m n h
    · exact h
  · intro c v n
    split
    · exact hedit.retains c v n
    · exact .refl n.toHead

/-- Any number of edits, one after the other. -/
theorem foldl {α : Type} {edit : α → Edit} {as : List α} (h : ∀ a ∈ as, (edit a).ActsOnHead) :
    ActsOnHead fun c v n => as.foldl (fun n a => edit a c v n) n := by
  induction as with
  | nil => exact .id
  | cons a as ih =>
    have htail := ih fun b hb => h b (List.mem_cons_of_mem a hb)
    exact (h a List.mem_cons_self).comp htail

end Edit.ActsOnHead

/-! ## Rules -/

namespace Rule

/-- The predicates and the actions of the rule look at nothing but what nodes have of their own. -/
structure ActsOnHead (r : Rule) : Prop where
  predicates : ∀ p ∈ r.predicates, p.meaning.ReadsHead
  actions : ∀ a ∈ r.actions, a.meaning.ActsOnHead

/-- The edit of a rule, which is made if its predicates hold. -/
def edit (r : Rule) : Edit := fun c v n => if r.holds ⟨c, n⟩ v then r.apply c v n else n

theorem edit_of_holds {r : Rule} {c : TermClass} {v : Visit} {n : NodeOf c}
    (h : r.holds ⟨c, n⟩ v = true) : r.edit c v n = r.apply c v n := if_pos h

theorem edit_of_not_holds {r : Rule} {c : TermClass} {v : Visit} {n : NodeOf c}
    (h : ¬r.holds ⟨c, n⟩ v = true) : r.edit c v n = n := if_neg h

/-- A rule holds of a node if it holds of another one on which its predicates agree. -/
theorem holds_congr {r : Rule} {t u : Term} {v : Visit}
    (h : ∀ p ∈ r.predicates, p.meaning t v = p.meaning u v) : r.holds t v = r.holds u v := by
  have hall : ∀ s, r.holds s v = (r.predicates.map fun p => p.meaning s v).all id := by
    intro s
    rw [List.all_map]
    rfl
  rw [hall, hall, List.map_congr_left h]

theorem readsHead_holds {r : Rule} (h : r.ActsOnHead) : Test.ReadsHead r.holds :=
  fun c v m n hmn => holds_congr fun p hp => h.predicates p hp c v m n hmn

theorem actsOnHead_edit {r : Rule} (h : r.ActsOnHead) : r.edit.ActsOnHead := by
  have happly : Edit.ActsOnHead r.apply := .foldl h.actions
  exact happly.ite (readsHead_holds h)

end Rule

/-- The rules are edits, made one after the other. -/
theorem value_applyRules (index : Nat) {c : TermClass} (v : Visit) (rules : List Rule)
    (n : NodeOf c) :
    (applyRules index v rules n).value = rules.foldl (fun n r => r.edit c v n) n := by
  induction rules generalizing index n with
  | nil => rfl
  | cons r rs ih =>
    rw [applyRules_cons, List.foldl_cons, Rule.edit]
    split
    · exact ih (index + 1) (r.apply c v n)
    · exact ih (index + 1) n

namespace Ruleset

/-- What the rules make of what a node has of its own, tried on a node without children. -/
def headAfter (R : Ruleset) (c : TermClass) (v : Visit) (h : Head c) : Head c :=
  (R.visitor c v ⟨h, Parts.ofTerms c []⟩).value.toHead

/-- All rules look at nothing but what nodes have of their own. -/
def ActsOnHead (R : Ruleset) : Prop := ∀ r ∈ R.rules, r.ActsOnHead

section

variable {R : Ruleset} (h : R.ActsOnHead)

include h

theorem actsOnHead_visitor : Edit.ActsOnHead fun c v n => (R.visitor c v n).value := by
  have hrules : Edit.ActsOnHead fun c v n => R.rules.foldl (fun n r => r.edit c v n) n :=
    .foldl fun r hr => Rule.actsOnHead_edit (h r hr)
  have hvisitor : (fun c v (n : NodeOf c) => (R.visitor c v n).value) =
      fun c v n => R.rules.foldl (fun n r => r.edit c v n) n := by
    funext c v n
    exact value_applyRules 0 v R.rules n
  rw [hvisitor]
  exact hrules

theorem retains_headAfter (c : TermClass) (v : Visit) (head : Head c) :
    head.Retains (R.headAfter c v head) :=
  (actsOnHead_visitor h).retains c v ⟨head, Parts.ofTerms c []⟩

/-! ### The root of the result -/

theorem label_traverseFrom (v : Visit) (t : Term) :
    (t.traverseFrom R.visitor v).value.label = ⟨t.cls, R.headAfter t.cls v t.head⟩ := by
  rw [Term.label_value_traverseFrom]
  have hhead := (actsOnHead_visitor h).head t.cls v t.node ⟨t.head, Parts.ofTerms t.cls []⟩ rfl
  exact congrArg (Sigma.mk t.cls) hhead

theorem code?_traverseFrom (v : Visit) (t : Term) :
    (t.traverseFrom R.visitor v).value.head.code? = t.head.code? := by
  have hcode := congrArg (fun l => l.2.code?) (label_traverseFrom h v t)
  exact hcode.trans (retains_headAfter h t.cls v t.head).code

theorem intent?_traverseFrom (v : Visit) (t : Term) (hintent : t.head.intent?.isSome = true) :
    (t.traverseFrom R.visitor v).value.head.intent?.isSome = true := by
  have hafter := congrArg (fun l => l.2.intent?.isSome) (label_traverseFrom h v t)
  exact hafter.trans ((retains_headAfter h t.cls v t.head).intent hintent)

/-! ### The result at an address -/

theorem subterm?_transform (t : Term) (p : List Nat) :
    (R.transform t).subterm? p =
      (t.subterm? p).map fun s => (s.traverseFrom R.visitor ⟨p.length⟩).value := by
  have hsubterm := Term.subterm?_value_traverseFrom (actsOnHead_visitor h).parts .root t p
  have hdepth : Visit.root.depth + p.length = p.length := Nat.zero_add p.length
  rw [hdepth] at hsubterm
  rw [transform_eq_run]
  exact hsubterm

/-- What is read off the results of traversals can be read off the result at an address. -/
theorem map_subterm?_transform {α : Type} {f g : Term → α} (p : List Nat)
    (hfg : ∀ s : Term, f (s.traverseFrom R.visitor ⟨p.length⟩).value = g s) (t : Term) :
    ((R.transform t).subterm? p).map f = (t.subterm? p).map g := by
  rw [subterm?_transform h, Option.map_map]
  congr 1
  funext s
  exact hfg s

/-- The result has at each address what the rules make of what was there. -/
theorem label_transform (t : Term) (p : List Nat) :
    ((R.transform t).subterm? p).map Term.label =
      (t.subterm? p).map fun s => ⟨s.cls, R.headAfter s.cls ⟨p.length⟩ s.head⟩ :=
  map_subterm?_transform h p (label_traverseFrom h ⟨p.length⟩) t

/-- A term is the result if it has at each address what the rules make of what was there. -/
theorem eq_transform_iff (t u : Term) :
    u = R.transform t ↔ ∀ p, (u.subterm? p).map Term.label =
      (t.subterm? p).map fun s => ⟨s.cls, R.headAfter s.cls ⟨p.length⟩ s.head⟩ := by
  constructor
  · rintro rfl p
    exact label_transform h t p
  · intro hu
    apply Term.eq_of_labels
    intro p
    rw [hu p, label_transform h t p]

/-- The result has at each address a node of the class and with the number of children that the
node there had. -/
theorem shape_transform (t : Term) (p : List Nat) :
    ((R.transform t).subterm? p).map (fun s => (s.cls, s.children.length)) =
      (t.subterm? p).map fun s => (s.cls, s.children.length) := by
  apply map_subterm?_transform h p
  intro s
  have hlength := Term.length_children_value_traverseFrom (actsOnHead_visitor h).parts
    ⟨p.length⟩ s
  exact congrArg (Prod.mk s.cls) hlength

theorem code?_transform (t : Term) (p : List Nat) :
    ((R.transform t).subterm? p).map (fun s => s.head.code?) =
      (t.subterm? p).map fun s => s.head.code? :=
  map_subterm?_transform h p (code?_traverseFrom h ⟨p.length⟩) t

theorem intent?_transform (t : Term) (p : List Nat)
    (hintent : ((t.subterm? p).bind fun s => s.head.intent?).isSome = true) :
    (((R.transform t).subterm? p).bind fun s => s.head.intent?).isSome = true := by
  rw [subterm?_transform h]
  cases hs : t.subterm? p with
  | none => simp [hs] at hintent
  | some s =>
    rw [hs] at hintent
    exact intent?_traverseFrom h ⟨p.length⟩ s hintent

/-- The result at an address depends on nothing but the class of the node there and what the node
has of its own. -/
theorem label_transform_congr (t u : Term) (p : List Nat)
    (htu : (t.subterm? p).map Term.label = (u.subterm? p).map Term.label) :
    ((R.transform t).subterm? p).map Term.label = ((R.transform u).subterm? p).map Term.label := by
  have hmap := congrArg
    (Option.map fun l => (⟨l.1, R.headAfter l.1 ⟨p.length⟩ l.2⟩ : (c : TermClass) × Head c)) htu
  rw [Option.map_map, Option.map_map] at hmap
  rw [label_transform h, label_transform h]
  exact hmap

theorem visited_eq_size_of_actsOnHead (t : Term) : (R.stats t).visited = t.size := by
  rw [visited_eq_size, transform_eq_run]
  exact Term.size_value_traverseFrom (actsOnHead_visitor h).parts .root t

end

/-- The ruleset without rules changes no term. -/
theorem transform_empty (t : Term) : Ruleset.empty.transform t = t := by
  have hacts : Ruleset.empty.ActsOnHead := by
    intro r hr
    cases hr
  exact ((eq_transform_iff hacts t t).mpr fun _ => rfl).symm

end Ruleset

end TermRules
