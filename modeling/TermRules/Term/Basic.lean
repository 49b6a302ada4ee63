import TermRules.SortedMap
import TermRules.Term.Class

/-!
# Terms

A program is a tree. It holds subroutines, a subroutine holds arguments and blocks, and a block
holds phi nodes, definitions and jumps, which are its instructions. Of each class, a node consists
of what is its own (`Head`: a name, attributes, and the intent of an argument or the code of an
instruction) and of its parts, the lists of its children.

Trees are at most four levels high, so that functions on them need no recursion but go from the
leaves up. `Term.children` gives the children of any term in their order, and `Term.induction` is
the matching principle of induction.
-/

namespace TermRules

/-! ## What is a node's own -/

/-- Attributes: keys with optional values. -/
abbrev Attrs := SortedMap (Option String)

/-- What a node has of its own besides its name and attributes: an argument may have an intent,
an instruction may have a code. -/
abbrev Payload : TermClass → Type
  | .argument => Option Intent
  | .phi | .definition | .jump => Option String
  | .program | .subroutine | .block => Unit

instance instDecidableEqPayload : (c : TermClass) → DecidableEq (Payload c)
  | .argument => inferInstanceAs (DecidableEq (Option Intent))
  | .phi | .definition | .jump => inferInstanceAs (DecidableEq (Option String))
  | .program | .subroutine | .block => inferInstanceAs (DecidableEq Unit)

/-- What a node of the class `c` has of its own. -/
structure Head (c : TermClass) where
  name : String
  attrs : Attrs
  payload : Payload c
  deriving DecidableEq

namespace Head

/-- The value of an attribute that is set and has a value. -/
def attr? {c : TermClass} (h : Head c) (key : String) : Option String := (h.attrs.get? key).join

/-- The intent of an argument, if it has one. -/
def intent? : {c : TermClass} → Head c → Option Intent
  | .argument, h => h.payload
  | .program, _ | .subroutine, _ | .block, _ | .phi, _ | .definition, _ | .jump, _ => none

/-- The code of an instruction, if it has one. -/
def code? : {c : TermClass} → Head c → Option String
  | .phi, h | .definition, h | .jump, h => h.payload
  | .program, _ | .subroutine, _ | .block, _ | .argument, _ => none

end Head

/-! ## Nodes with their parts -/

/-- A node of the class `c` with parts of the type `π`. -/
structure Node (c : TermClass) (π : Type) extends Head c where
  parts : π
  deriving DecidableEq

/-- A node without children. -/
abbrev Leaf (c : TermClass) := Node c Unit

/-- The instructions of a block. -/
structure Instructions where
  phis : List (Leaf .phi)
  definitions : List (Leaf .definition)
  jumps : List (Leaf .jump)
  deriving DecidableEq

/-- Blocks. -/
abbrev Block := Node .block Instructions

/-- The arguments and blocks of a subroutine. -/
structure Contents where
  arguments : List (Leaf .argument)
  blocks : List Block
  deriving DecidableEq

/-- Subroutines. -/
abbrev Subroutine := Node .subroutine Contents

/-- Programs. -/
abbrev Program := Node .program (List Subroutine)

/-- The parts of the nodes of a class. -/
abbrev Parts : TermClass → Type
  | .program => List Subroutine
  | .subroutine => Contents
  | .block => Instructions
  | .argument | .phi | .definition | .jump => Unit

instance instDecidableEqParts : (c : TermClass) → DecidableEq (Parts c)
  | .program => inferInstanceAs (DecidableEq (List Subroutine))
  | .subroutine => inferInstanceAs (DecidableEq Contents)
  | .block => inferInstanceAs (DecidableEq Instructions)
  | .argument | .phi | .definition | .jump => inferInstanceAs (DecidableEq Unit)

/-- The nodes of the class `c`. -/
abbrev NodeOf (c : TermClass) := Node c (Parts c)

/-- A term of any class. -/
structure Term where
  cls : TermClass
  node : NodeOf cls

namespace Term

instance : DecidableEq Term
  | ⟨c, m⟩, ⟨d, n⟩ =>
    if h : c = d then
      if hmn : h ▸ m = n then .isTrue (by subst h; subst hmn; rfl)
      else .isFalse fun e => by cases e; exact hmn rfl
    else .isFalse fun e => h (congrArg cls e)

/-- What the root has of its own. -/
def head (t : Term) : Head t.cls := t.node.toHead

/-- The name of the root. -/
def name (t : Term) : String := t.node.name

/-- The attributes of the root. -/
def attrs (t : Term) : Attrs := t.node.attrs

/-- The root as a node of the class `c`, if it is one. -/
def as? (c : TermClass) (t : Term) : Option (NodeOf c) :=
  if h : t.cls = c then some (h ▸ t.node) else none

@[simp]
theorem as?_mk (c : TermClass) (n : NodeOf c) : as? c ⟨c, n⟩ = some n := by simp [as?]

theorem as?_mk_of_ne {c d : TermClass} (h : c ≠ d) (n : NodeOf c) : as? d ⟨c, n⟩ = none := by
  simp [as?, h]

end Term

/-! ## Children -/

namespace Parts

/-- The children in order: arguments before blocks, and phi nodes before definitions before
jumps. -/
def toTerms : (c : TermClass) → Parts c → List Term
  | .program, subroutines => subroutines.map (⟨.subroutine, ·⟩)
  | .subroutine, contents =>
    contents.arguments.map (⟨.argument, ·⟩) ++ contents.blocks.map (⟨.block, ·⟩)
  | .block, instructions =>
    instructions.phis.map (⟨.phi, ·⟩) ++
      (instructions.definitions.map (⟨.definition, ·⟩) ++ instructions.jumps.map (⟨.jump, ·⟩))
  | .argument, _ | .phi, _ | .definition, _ | .jump, _ => []

/-- The parts with the given children, each class in the order of the list. Terms of a class that
may not stand in a node of the class `c` are left out. -/
def ofTerms : (c : TermClass) → List Term → Parts c
  | .program, ts => ts.filterMap (Term.as? .subroutine)
  | .subroutine, ts => ⟨ts.filterMap (Term.as? .argument), ts.filterMap (Term.as? .block)⟩
  | .block, ts =>
    ⟨ts.filterMap (Term.as? .phi), ts.filterMap (Term.as? .definition),
      ts.filterMap (Term.as? .jump)⟩
  | .argument, _ | .phi, _ | .definition, _ | .jump, _ => ()

theorem filterMap_as?_map (c : TermClass) (ns : List (NodeOf c)) :
    (ns.map (Term.mk c)).filterMap (Term.as? c) = ns := by
  induction ns with
  | nil => rfl
  | cons n ns ih => simp [ih]

theorem filterMap_as?_map_of_ne {c d : TermClass} (h : c ≠ d) (ns : List (NodeOf c)) :
    (ns.map (Term.mk c)).filterMap (Term.as? d) = [] := by
  induction ns with
  | nil => rfl
  | cons n ns ih => simp [Term.as?_mk_of_ne h, ih]

theorem ofTerms_toTerms : (c : TermClass) → (p : Parts c) → ofTerms c (toTerms c p) = p
  | .program, p => filterMap_as?_map .subroutine p
  | .subroutine, p => by
    simp only [ofTerms, toTerms, List.filterMap_append,
      filterMap_as?_map_of_ne (c := .argument) (d := .block) (by decide) p.arguments,
      filterMap_as?_map_of_ne (c := .block) (d := .argument) (by decide) p.blocks,
      filterMap_as?_map .argument p.arguments, filterMap_as?_map .block p.blocks, List.append_nil,
      List.nil_append]
  | .block, p => by
    simp only [ofTerms, toTerms, List.filterMap_append,
      filterMap_as?_map_of_ne (c := .phi) (d := .definition) (by decide) p.phis,
      filterMap_as?_map_of_ne (c := .phi) (d := .jump) (by decide) p.phis,
      filterMap_as?_map_of_ne (c := .definition) (d := .phi) (by decide) p.definitions,
      filterMap_as?_map_of_ne (c := .definition) (d := .jump) (by decide) p.definitions,
      filterMap_as?_map_of_ne (c := .jump) (d := .phi) (by decide) p.jumps,
      filterMap_as?_map_of_ne (c := .jump) (d := .definition) (by decide) p.jumps,
      filterMap_as?_map .phi p.phis, filterMap_as?_map .definition p.definitions,
      filterMap_as?_map .jump p.jumps, List.append_nil, List.nil_append]
  | .argument, () | .phi, () | .definition, () | .jump, () => rfl

theorem mayContain_of_mem_toTerms {c : TermClass} {p : Parts c} {t : Term}
    (h : t ∈ toTerms c p) : c.mayContain t.cls = true := by
  cases c <;> simp only [toTerms, List.mem_append, List.mem_map, List.not_mem_nil] at h
  case program => obtain ⟨_, _, rfl⟩ := h; rfl
  case subroutine => obtain ⟨_, _, rfl⟩ | ⟨_, _, rfl⟩ := h <;> rfl
  case block => obtain ⟨_, _, rfl⟩ | ⟨_, _, rfl⟩ | ⟨_, _, rfl⟩ := h <;> rfl

end Parts

namespace Term

/-- The children of the root, in order. -/
def children (t : Term) : List Term := Parts.toTerms t.cls t.node.parts

theorem mayContain_of_mem_children {s t : Term} (h : s ∈ t.children) :
    t.cls.mayContain s.cls = true :=
  Parts.mayContain_of_mem_toTerms h

/-- Induction on classes: what holds of a term if it holds of all terms of the classes that may
stand in it holds of all terms. -/
theorem inductionOnClass {P : Term → Prop}
    (step : ∀ t : Term, (∀ s : Term, t.cls.mayContain s.cls = true → P s) → P t) (t : Term) :
    P t := by
  generalize hn : t.cls.height = n
  induction n using Nat.strongRecOn generalizing t with
  | _ n ih =>
    apply step
    intro s hs
    have hlt := TermClass.height_lt_of_mayContain hs
    exact ih s.cls.height (hn ▸ hlt) s rfl

/-- Induction on trees: what holds of a term if it holds of its children holds of all terms. -/
theorem induction {P : Term → Prop} (step : ∀ t : Term, (∀ s ∈ t.children, P s) → P t)
    (t : Term) : P t :=
  inductionOnClass (fun t ih => step t fun s hs => ih s (mayContain_of_mem_children hs)) t

end Term

end TermRules
