/-!
# S-expressions

An S-expression is an atom or a list of S-expressions. An atom is any text whatever; how it is
written is the matter of `Sexp/Atom` and `Sexp/Printer`.
-/

namespace TermRules

/-- An atom or a list of S-expressions. -/
inductive Sexp
  | atom (text : String)
  | list (members : List Sexp)

namespace Sexp

/-- The number of lists that may be open at the same time in a text. -/
def maxDepth : Nat := 256

/-- The text of an atom. -/
def atom? : Sexp → Option String
  | .atom text => some text
  | .list _ => none

/-- The text of the atom that a list starts with. -/
def headAtom? (members : List Sexp) : Option String := members.head?.bind atom?

/-! ## Nesting -/

mutual

/-- The nesting depth: zero for an atom, and for a list one more than for its deepest member. -/
def depth : Sexp → Nat
  | .atom _ => 0
  | .list members => depthAll members + 1

/-- The largest nesting depth of the members of a list. -/
def depthAll : List Sexp → Nat
  | [] => 0
  | x :: xs => max x.depth (depthAll xs)

end

theorem depthAll_le_iff {xs : List Sexp} {n : Nat} :
    depthAll xs ≤ n ↔ ∀ x ∈ xs, x.depth ≤ n := by
  induction xs with
  | nil => simp [depthAll]
  | cons x xs ih => rw [depthAll, Nat.max_le, List.forall_mem_cons, ih]

/-- Induction on S-expressions: what holds of atoms, and of a list if it holds of its members, holds
of all S-expressions. -/
@[elab_as_elim]
theorem induction {P : Sexp → Prop} (atom : ∀ text, P (.atom text))
    (list : ∀ members, (∀ x ∈ members, P x) → P (.list members)) : ∀ x, P x
  | .atom text => atom text
  | .list members => list members fun x _ => induction atom list x

/-! ## Equality -/

mutual

/-- Decides the equality of two S-expressions. -/
def decEq : (x y : Sexp) → Decidable (x = y)
  | .atom a, .atom b =>
    if h : a = b then .isTrue (h ▸ rfl) else .isFalse fun e => h (Sexp.atom.inj e)
  | .atom _, .list _ => .isFalse (nomatch ·)
  | .list _, .atom _ => .isFalse (nomatch ·)
  | .list xs, .list ys =>
    match decEqAll xs ys with
    | .isTrue h => .isTrue (h ▸ rfl)
    | .isFalse h => .isFalse fun e => h (Sexp.list.inj e)

/-- Decides the equality of two lists of S-expressions. -/
def decEqAll : (xs ys : List Sexp) → Decidable (xs = ys)
  | [], [] => .isTrue rfl
  | [], _ :: _ => .isFalse (nomatch ·)
  | _ :: _, [] => .isFalse (nomatch ·)
  | x :: xs, y :: ys =>
    match decEq x y with
    | .isFalse h => .isFalse fun e => h (List.cons.inj e).1
    | .isTrue h =>
      match decEqAll xs ys with
      | .isTrue hs => .isTrue (h ▸ hs ▸ rfl)
      | .isFalse hs => .isFalse fun e => hs (List.cons.inj e).2

end

instance : DecidableEq Sexp := decEq

end Sexp

end TermRules
