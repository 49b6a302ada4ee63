import TermRules.Expr.Error

/-!
# The expressions in an S-expression

A list that starts with an atom is one expression. Any other list is a group, which stands for the
expressions of its members, however deep groups are nested. An atom is neither.

`flatten` goes from left to right and stops at the first ill-shaped part. It keeps what is left to
do of the groups around the current place, innermost first, in place of a recursion.
-/

namespace TermRules

namespace Expr

/-- The expression with the given members. -/
def ofMembers : List Sexp → Except CompileError Expr
  | [.atom name] => .ok ⟨name, none⟩
  | [.atom name, .atom arg] => .ok ⟨name, some arg⟩
  | members => .error (.shape .expr (.list members))

end Expr

/-- Expressions, up to the first ill-shaped part if there is one. -/
structure Flattening where
  exprs : Array Expr
  fault : Option CompileError

/-- The expressions `found` so far, followed by those of the groups. -/
def flattenGroups (found : Array Expr) : List (List Sexp) → Flattening
  | [] => ⟨found, none⟩
  | [] :: groups => flattenGroups found groups
  | (.atom text :: _) :: _ => ⟨found, some (.shape .exprs (.atom text))⟩
  | (.list members :: group) :: groups =>
    match Sexp.headAtom? members with
    | none => flattenGroups found (members :: group :: groups)
    | some _ =>
      match Expr.ofMembers members with
      | .ok e => flattenGroups (found.push e) (group :: groups)
      | .error fault => ⟨found, some fault⟩
termination_by groups => sizeOf groups

/-- The expressions `found` so far, followed by those of an S-expression. -/
def flattenInto (found : Array Expr) (x : Sexp) : Flattening := flattenGroups found [[x]]

/-- The expressions in an S-expression. -/
def flatten (x : Sexp) : Flattening := flattenInto #[] x

end TermRules
