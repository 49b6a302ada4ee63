import TermRules.Proofs.Term.Reading
import TermRules.Term.Walk

/-!
# The nodes of a term in its written form

Of the lists in the S-expression of a term, those that start with `@` are attributes, and each of
the others is a node (`Sexp.nodeLists`). The walk over the term meets the nodes in the order in
which their lists stand there, and the lists start with the classes and the names that the walk
meets: `map_walk_eq_nodeLists`.

Both sides take the same step. A list is followed by the lists inside its members
(`Sexp.nodeLists_list`), and of the members of a node's list only the children have lists of nodes
inside, since what a node has of its own are atoms and attributes (`nodeLists_toSexp`). So the node
is followed by the nodes of its children, as it is in a walk (`nodeLists_toSexp_eq_walkFrom`).
-/

namespace TermRules

/-! ## The lists in an S-expression -/

namespace Sexp

mutual

/-- The lists in an S-expression from left to right, each before the lists inside it. -/
def lists : Sexp → List (List Sexp)
  | .atom _ => []
  | .list members => members :: listsAll members

/-- The lists in the members of a list. -/
def listsAll : List Sexp → List (List Sexp)
  | [] => []
  | x :: xs => lists x ++ listsAll xs

end

/-- The lists in an S-expression that do not start with `@`. -/
def nodeLists (x : Sexp) : List (List Sexp) :=
  x.lists.filter fun members => headAtom? members ≠ some "@"

/-- The first two members of a list, if these are atoms. -/
def leadingAtoms? : List Sexp → Option (String × String)
  | .atom first :: .atom second :: _ => some (first, second)
  | _ => none

theorem listsAll_eq (members : List Sexp) : listsAll members = members.flatMap lists := by
  induction members with
  | nil => rfl
  | cons x xs ih => rw [listsAll, ih, List.flatMap_cons]

theorem nodeLists_atom (text : String) : nodeLists (.atom text) = [] := rfl

theorem nodeLists_list (members : List Sexp) :
    nodeLists (.list members) =
      (if headAtom? members = some "@" then [] else [members]) ++ members.flatMap nodeLists := by
  have hinside : (members.flatMap lists).filter (fun inner => headAtom? inner ≠ some "@") =
      members.flatMap nodeLists := List.filter_flatMap
  rw [nodeLists, lists, listsAll_eq, List.filter_cons, hinside]
  by_cases h : headAtom? members = some "@" <;> simp [h]

end Sexp

namespace Term

/-! ## The list of a node -/

/-- The members of the list that a term is written as. -/
def sexps (t : Term) : List Sexp := t.head.sexps ++ t.children.map toSexp

theorem headAtom?_sexps (t : Term) : Sexp.headAtom? t.sexps = some t.cls.name := rfl

theorem leadingAtoms?_sexps (t : Term) :
    Sexp.leadingAtoms? t.sexps = some (t.cls.name, t.name) := rfl

theorem nodeLists_attrSexp (key : String) (value : Option String) :
    (attrSexp key value).nodeLists = [] := by
  cases value <;> rfl

theorem flatMap_nodeLists_sexps {c : TermClass} (h : Head c) :
    h.sexps.flatMap Sexp.nodeLists = [] := by
  rw [List.flatMap_eq_nil_iff]
  intro x hx
  obtain ⟨text, rfl⟩ | ⟨key, value, rfl⟩ := Head.eq_atom_or_attrSexp_of_mem_sexps hx
  · exact Sexp.nodeLists_atom text
  · exact nodeLists_attrSexp key value

/-- The list of a node is followed by the lists of the nodes of its children. -/
theorem nodeLists_toSexp (t : Term) :
    t.toSexp.nodeLists = t.sexps :: t.children.flatMap fun s => s.toSexp.nodeLists := by
  have hmark : Sexp.headAtom? t.sexps ≠ some "@" := by
    rw [headAtom?_sexps]
    exact fun h => name_ne_attrMark t.cls (Option.some.inj h)
  have hinside : t.sexps.flatMap Sexp.nodeLists =
      t.children.flatMap fun s => s.toSexp.nodeLists := by
    rw [sexps, List.flatMap_append, flatMap_nodeLists_sexps, List.nil_append, List.flatMap_map]
  rw [toSexp_eq, ← sexps, Sexp.nodeLists_list, if_neg hmark, hinside, List.singleton_append]

/-! ## The lists of all nodes -/

/-- The lists of nodes in the S-expression of a term are those of the terms that a walk meets. -/
theorem nodeLists_toSexp_eq_walkFrom (v : Visit) (t : Term) :
    t.toSexp.nodeLists = (t.walkFrom v).map fun e => e.2.sexps := by
  induction t using Term.induction generalizing v with
  | step t ih =>
    have hchildren : (t.children.flatMap fun s => s.toSexp.nodeLists) =
        t.children.flatMap fun s => (s.walkFrom v.enter).map fun e => e.2.sexps :=
      List.flatMap_congr fun s hs => ih s hs v.enter
    rw [nodeLists_toSexp, hchildren, walkFrom_eq, List.map_cons, List.map_flatMap]

theorem nodeLists_toSexp_eq_walk (t : Term) : t.toSexp.nodeLists = t.walk.map sexps := by
  rw [nodeLists_toSexp_eq_walkFrom .root, walk, List.map_map]
  rfl

/-- **The walk and the written form list the same nodes.** The classes and the names that the walk
over a term meets are, in this order, the first two atoms of the lists in its S-expression that do
not start with `@`. In particular there are as many of these lists as there are nodes. -/
theorem map_walk_eq_nodeLists (t : Term) :
    (t.walk.map fun s => some (s.cls.name, s.name)) =
        t.toSexp.nodeLists.map Sexp.leadingAtoms? ∧
      t.size = t.toSexp.nodeLists.length := by
  rw [nodeLists_toSexp_eq_walk]
  constructor
  · rw [List.map_map]
    exact List.map_congr_left fun s _ => (leadingAtoms?_sexps s).symm
  · rw [List.length_map, size]

/-- Neither the name `@` nor a key that is the name of a class makes a difference. -/
example :
    let argument : Leaf .argument := ⟨⟨"sub", .empty, none⟩, ()⟩
    let t : Term := ⟨.subroutine, ⟨⟨"@", .ofList [("blk", some "b")], ()⟩, [argument], []⟩⟩
    t.toSexp.nodeLists.map Sexp.leadingAtoms? = [some ("sub", "@"), some ("arg", "sub")] := by
  decide

end Term

end TermRules
