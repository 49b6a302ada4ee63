import TermRules.Term.Basic

/-!
# Walks over terms

All walks meet a node before its children, and children in their order.

* `Term.walkFrom` lists the terms of a tree, each with its place in the walk.
* `Term.traverse` replaces every node by what an effectful function makes of it. The children that
  are met are those of the new node.
-/

namespace TermRules

/-- A place in a walk: the number of ancestors. -/
structure Visit where
  depth : Nat
  deriving DecidableEq, Repr

namespace Visit

/-- The place where a walk starts. -/
def root : Visit := ⟨0⟩

/-- Whether a walk starts here. -/
def isRoot (v : Visit) : Bool := v.depth == 0

/-- The place of the children. -/
def enter (v : Visit) : Visit := ⟨v.depth + 1⟩

end Visit

namespace Term

/-! ## Listing the terms of a tree -/

/-- A node without children, as a list of terms. -/
def walkLeaf (c : TermClass) (v : Visit) (n : NodeOf c) : List (Visit × Term) := [(v, ⟨c, n⟩)]

/-- The terms of the tree of a block. -/
def walkBlock (v : Visit) (b : Block) : List (Visit × Term) :=
  (v, ⟨.block, b⟩) ::
    (b.parts.phis.flatMap (walkLeaf .phi v.enter) ++
      (b.parts.definitions.flatMap (walkLeaf .definition v.enter) ++
        b.parts.jumps.flatMap (walkLeaf .jump v.enter)))

/-- The terms of the tree of a subroutine. -/
def walkSubroutine (v : Visit) (s : Subroutine) : List (Visit × Term) :=
  (v, ⟨.subroutine, s⟩) ::
    (s.parts.arguments.flatMap (walkLeaf .argument v.enter) ++
      s.parts.blocks.flatMap (walkBlock v.enter))

/-- The terms of the tree of a program. -/
def walkProgram (v : Visit) (p : Program) : List (Visit × Term) :=
  (v, ⟨.program, p⟩) :: p.parts.flatMap (walkSubroutine v.enter)

/-- The terms of a tree with their places, for a root at the place `v`. -/
def walkFrom (v : Visit) : Term → List (Visit × Term)
  | ⟨.program, p⟩ => walkProgram v p
  | ⟨.subroutine, s⟩ => walkSubroutine v s
  | ⟨.block, b⟩ => walkBlock v b
  | ⟨.argument, n⟩ => walkLeaf .argument v n
  | ⟨.phi, n⟩ => walkLeaf .phi v n
  | ⟨.definition, n⟩ => walkLeaf .definition v n
  | ⟨.jump, n⟩ => walkLeaf .jump v n

/-- The terms of a tree. -/
def walk (t : Term) : List Term := (t.walkFrom .root).map (·.2)

/-- The number of terms of a tree. -/
def size (t : Term) : Nat := t.walk.length

theorem walkFrom_eq (v : Visit) (t : Term) :
    t.walkFrom v = (v, t) :: t.children.flatMap (walkFrom v.enter) := by
  obtain ⟨c, n⟩ := t
  cases c
  case program => simp [walkProgram, children, Parts.toTerms, List.flatMap_map, walkFrom]
  case subroutine => simp [walkSubroutine, children, Parts.toTerms, List.flatMap_map, walkFrom]
  case block => simp [walkBlock, children, Parts.toTerms, List.flatMap_map, walkFrom]
  all_goals rfl

/-! ## Replacing the nodes of a tree -/

/-- An effectful function on the nodes of each class, which knows the place of the node. -/
abbrev Visitor (m : Type → Type) := (c : TermClass) → Visit → NodeOf c → m (NodeOf c)

variable {m : Type → Type} [Monad m] (visit : Visitor m)

/-- Traversal of a block. -/
def traverseBlock (v : Visit) (b : Block) : m Block := do
  let b : Block ← visit .block v b
  let phis ← b.parts.phis.mapM (visit .phi v.enter)
  let definitions ← b.parts.definitions.mapM (visit .definition v.enter)
  let jumps ← b.parts.jumps.mapM (visit .jump v.enter)
  return { b with parts := ⟨phis, definitions, jumps⟩ }

/-- Traversal of a subroutine. -/
def traverseSubroutine (v : Visit) (s : Subroutine) : m Subroutine := do
  let s : Subroutine ← visit .subroutine v s
  let arguments ← s.parts.arguments.mapM (visit .argument v.enter)
  let blocks ← s.parts.blocks.mapM (traverseBlock visit v.enter)
  return { s with parts := ⟨arguments, blocks⟩ }

/-- Traversal of a program. -/
def traverseProgram (v : Visit) (p : Program) : m Program := do
  let p : Program ← visit .program v p
  let subroutines ← p.parts.mapM (traverseSubroutine visit v.enter)
  return { p with parts := subroutines }

/-- Traversal of a node of any class. -/
def traverseNode : (c : TermClass) → Visit → NodeOf c → m (NodeOf c)
  | .program, v, p => traverseProgram visit v p
  | .subroutine, v, s => traverseSubroutine visit v s
  | .block, v, b => traverseBlock visit v b
  | .argument, v, n => visit .argument v n
  | .phi, v, n => visit .phi v n
  | .definition, v, n => visit .definition v n
  | .jump, v, n => visit .jump v n

/-- Traversal of a tree. -/
def traverse (t : Term) : m Term := do
  return ⟨t.cls, ← traverseNode visit t.cls .root t.node⟩

end Term

end TermRules
