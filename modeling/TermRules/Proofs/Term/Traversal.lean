import TermRules.Proofs.Term.Address
import TermRules.Traced

/-!
# The steps of a traversal

A traversal visits a node, then traverses the children of the new node, and puts their results in
place of them. This is one equation for nodes of all classes (`traverseNode_eq`), in which the
children are traversed one after the other (`mapM_traverseFrom`). Of traversals with a record of
events it says what the events are (`events_traverseFrom`), what the root of the result has of its
own (`label_value_traverseFrom`), and what the children of the result are
(`children_value_traverseFrom`).
-/

namespace TermRules

namespace Term

/-! ## Traversals in a monad -/

section Monadic

variable {m : Type → Type} [Monad m] (visit : Visitor m)

/-- Traversal of a tree whose root is at the place `v`. -/
def traverseFrom (v : Visit) (t : Term) : m Term := do
  return ⟨t.cls, ← traverseNode visit t.cls v t.node⟩

/-- Traversal of the children of a node of the class `c`, which are at the place `v`. -/
def traverseParts (v : Visit) : (c : TermClass) → Parts c → m (Parts c)
  | .program, subroutines => subroutines.mapM (traverseSubroutine visit v)
  | .subroutine, contents => do
    let arguments ← contents.arguments.mapM (visit .argument v)
    let blocks ← contents.blocks.mapM (traverseBlock visit v)
    return ⟨arguments, blocks⟩
  | .block, instructions => do
    let phis ← instructions.phis.mapM (visit .phi v)
    let definitions ← instructions.definitions.mapM (visit .definition v)
    let jumps ← instructions.jumps.mapM (visit .jump v)
    return ⟨phis, definitions, jumps⟩
  | .argument, () | .phi, () | .definition, () | .jump, () => pure ()

variable [LawfulMonad m]

theorem traverseNode_eq (v : Visit) (c : TermClass) (n : NodeOf c) :
    traverseNode visit c v n = do
      let n ← visit c v n
      let parts ← traverseParts visit v.enter c n.parts
      return { n with parts } := by
  cases c
  case program => rfl
  case subroutine => simp [traverseNode, traverseSubroutine, traverseParts]
  case block => simp [traverseNode, traverseBlock, traverseParts]
  all_goals simp [traverseNode, traverseParts]

theorem mapM_traverseFrom_map_mk (v : Visit) {c : TermClass} (ns : List (NodeOf c)) :
    (ns.map (Term.mk c)).mapM (traverseFrom visit v) =
      List.map (Term.mk c) <$> ns.mapM (traverseNode visit c v) := by
  rw [List.mapM_map]
  induction ns with
  | nil => simp
  | cons n ns ih => simp [ih, traverseFrom]

theorem mapM_traverseFrom (v : Visit) (c : TermClass) (p : Parts c) :
    (Parts.toTerms c p).mapM (traverseFrom visit v) =
      Parts.toTerms c <$> traverseParts visit v c p := by
  cases c
  case program => exact mapM_traverseFrom_map_mk visit v p
  case subroutine =>
    rw [Parts.toTerms, List.mapM_append, mapM_traverseFrom_map_mk, mapM_traverseFrom_map_mk]
    simp only [traverseParts, Parts.toTerms, bind_pure_comp, Functor.map_map, bind_map_left,
      map_bind]
    rfl
  case block =>
    rw [Parts.toTerms, List.mapM_append, List.mapM_append, mapM_traverseFrom_map_mk,
      mapM_traverseFrom_map_mk, mapM_traverseFrom_map_mk]
    simp only [traverseParts, Parts.toTerms, bind_pure_comp, Functor.map_map, bind_map_left,
      map_bind]
    rfl
  all_goals simp [traverseParts, Parts.toTerms]

theorem mapM_traverseFrom_children (v : Visit) (t : Term) :
    t.children.mapM (traverseFrom visit v) =
      Parts.toTerms t.cls <$> traverseParts visit v t.cls t.node.parts :=
  mapM_traverseFrom visit v t.cls t.node.parts

end Monadic

/-! ## Traversals with a record of events -/

section Recorded

variable {ω : Type} (visit : Visitor (Traced ω))

/-- The tree with the root that its visit at the place `v` makes. -/
def visited (v : Visit) (t : Term) : Term := ⟨t.cls, (visit t.cls v t.node).value⟩

/-- Induction along a traversal: what holds of a term at a place if it holds of the children that
its visit leaves to be met, holds of all terms. -/
theorem inductionOnVisits {P : Visit → Term → Prop}
    (step : ∀ v t, (∀ s ∈ (visited visit v t).children, P v.enter s) → P v t) (v : Visit)
    (t : Term) : P v t := by
  induction t using inductionOnClass generalizing v with
  | step t ih =>
    refine step v t fun s hs => ?_
    have hcontain := mayContain_of_mem_children hs
    exact ih s hcontain v.enter

theorem events_traverseFrom (v : Visit) (t : Term) :
    (traverseFrom visit v t).events = (visit t.cls v t.node).events ++
      (visited visit v t).children.flatMap fun s => (traverseFrom visit v.enter s).events := by
  have hchildren := congrArg Traced.events
    (mapM_traverseFrom_children visit v.enter (visited visit v t))
  rw [Traced.events_mapM, Traced.events_map] at hchildren
  rw [hchildren, traverseFrom, traverseNode_eq]
  simp [visited]

theorem value_traverseFrom (v : Visit) (t : Term) :
    (traverseFrom visit v t).value =
      ⟨t.cls, (visit t.cls v t.node).value.toHead,
        (traverseParts visit v.enter t.cls (visited visit v t).node.parts).value⟩ := by
  rw [traverseFrom, traverseNode_eq]
  simp [visited]

theorem label_value_traverseFrom (v : Visit) (t : Term) :
    (traverseFrom visit v t).value.label = (visited visit v t).label := by
  rw [value_traverseFrom]
  rfl

theorem children_value_traverseFrom (v : Visit) (t : Term) :
    (traverseFrom visit v t).value.children =
      (visited visit v t).children.map fun s => (traverseFrom visit v.enter s).value := by
  have hchildren := congrArg Traced.value
    (mapM_traverseFrom_children visit v.enter (visited visit v t))
  rw [Traced.value_mapM, Traced.value_map] at hchildren
  rw [hchildren, value_traverseFrom]
  rfl

/-! ## Traversals that keep the children -/

variable {visit}
variable (hparts : ∀ c v n, (visit c v n).value.parts = n.parts)

include hparts

theorem children_visited (v : Visit) (t : Term) : (visited visit v t).children = t.children :=
  congrArg (Parts.toTerms t.cls) (hparts t.cls v t.node)

/-- If no visit changes the children of a node, then the result at an address is the result of the
traversal from there. -/
theorem subterm?_value_traverseFrom (v : Visit) (t : Term) (p : List Nat) :
    (traverseFrom visit v t).value.subterm? p =
      (t.subterm? p).map fun s => (traverseFrom visit ⟨v.depth + p.length⟩ s).value := by
  induction p generalizing v t with
  | nil => rfl
  | cons i p ih =>
    rw [subterm?_cons, children_value_traverseFrom, children_visited hparts, subterm?_cons,
      List.getElem?_map]
    cases t.children[i]? with
    | none => rfl
    | some s =>
      rw [Option.map_some, Option.bind_some, Option.bind_some, ih, v.depth_enter_add_length i]

theorem length_children_value_traverseFrom (v : Visit) (t : Term) :
    (traverseFrom visit v t).value.children.length = t.children.length := by
  rw [children_value_traverseFrom, List.length_map, children_visited hparts]

theorem size_value_traverseFrom (v : Visit) (t : Term) :
    (traverseFrom visit v t).value.size = t.size := by
  have haddresses : (traverseFrom visit v t).value.addresses = t.addresses := by
    apply addresses_eq_of_isSome_eq
    intro p
    rw [subterm?_value_traverseFrom hparts, Option.isSome_map]
  rw [size_eq_addresses, haddresses, size_eq_addresses]

end Recorded

end Term

end TermRules
