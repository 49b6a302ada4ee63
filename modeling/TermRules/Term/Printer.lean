import TermRules.Sexp.Printer
import TermRules.Term.Basic

/-!
# Printing of terms

A term is written as a list: its class and name; the intent of an argument or the code of an
instruction, if there is one; its attributes, each as a list that starts with the atom `@`; and
its children.
-/

namespace TermRules

/-- The atom that attributes start with. -/
def attrMark : String := "@"

/-- An attribute as an S-expression. -/
def attrSexp (key : String) (value : Option String) : Sexp :=
  .list (.atom attrMark :: .atom key :: (value.map .atom).toList)

/-- The written form of a payload. -/
def Payload.text? : (c : TermClass) → Payload c → Option String
  | .argument, intent => intent.map Intent.name
  | .phi, code | .definition, code | .jump, code => code
  | .program, _ | .subroutine, _ | .block, _ => none

/-- The members of a term's list that show what its root has of its own. -/
def Head.sexps {c : TermClass} (h : Head c) : List Sexp :=
  .atom c.name :: .atom h.name ::
    (((Payload.text? c h.payload).map .atom).toList ++
      h.attrs.toList.map fun attr => attrSexp attr.1 attr.2)

theorem Head.eq_atom_or_attrSexp_of_mem_sexps {c : TermClass} {h : Head c} {x : Sexp}
    (hx : x ∈ h.sexps) : (∃ text, x = .atom text) ∨ ∃ key value, x = attrSexp key value := by
  simp only [sexps, List.mem_cons, List.mem_append, Option.mem_toList, Option.map_eq_some_iff,
    List.mem_map] at hx
  rcases hx with rfl | rfl | ⟨text, -, rfl⟩ | ⟨attr, -, rfl⟩
  · exact .inl ⟨c.name, rfl⟩
  · exact .inl ⟨h.name, rfl⟩
  · exact .inl ⟨text, rfl⟩
  · exact .inr ⟨attr.1, attr.2, rfl⟩

namespace Term

/-- A node without children as an S-expression. -/
def leafSexp {c : TermClass} (n : Leaf c) : Sexp := .list n.toHead.sexps

/-- A block as an S-expression. -/
def blockSexp (b : Block) : Sexp :=
  .list (b.toHead.sexps ++
    (b.parts.phis.map leafSexp ++ (b.parts.definitions.map leafSexp ++ b.parts.jumps.map leafSexp)))

/-- A subroutine as an S-expression. -/
def subroutineSexp (s : Subroutine) : Sexp :=
  .list (s.toHead.sexps ++ (s.parts.arguments.map leafSexp ++ s.parts.blocks.map blockSexp))

/-- A program as an S-expression. -/
def programSexp (p : Program) : Sexp := .list (p.toHead.sexps ++ p.parts.map subroutineSexp)

/-- A term as an S-expression. -/
def toSexp : Term → Sexp
  | ⟨.program, p⟩ => programSexp p
  | ⟨.subroutine, s⟩ => subroutineSexp s
  | ⟨.block, b⟩ => blockSexp b
  | ⟨.argument, n⟩ => leafSexp n
  | ⟨.phi, n⟩ => leafSexp n
  | ⟨.definition, n⟩ => leafSexp n
  | ⟨.jump, n⟩ => leafSexp n

/-- The written form. -/
def print (t : Term) : String := t.toSexp.print

instance : ToString Term := ⟨print⟩

theorem toSexp_eq (t : Term) : t.toSexp = .list (t.head.sexps ++ t.children.map toSexp) := by
  obtain ⟨c, n⟩ := t
  cases c
  case program => simp [toSexp, programSexp, head, children, Parts.toTerms, Function.comp_def]
  case subroutine => simp [toSexp, subroutineSexp, head, children, Parts.toTerms, Function.comp_def]
  case block => simp [toSexp, blockSexp, head, children, Parts.toTerms, Function.comp_def]
  all_goals simp [toSexp, leafSexp, head, children, Parts.toTerms]

end Term

end TermRules
