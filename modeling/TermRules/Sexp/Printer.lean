import TermRules.Sexp.Atom
import TermRules.Sexp.Basic

/-!
# Printing of S-expressions

The members of a list are written between parentheses, with one blank between them.
-/

namespace TermRules.Sexp

mutual

/-- The characters of the written form. -/
def chars : Sexp → List Char
  | .atom text => writeAtom text.toList
  | .list members => '(' :: membersChars members

/-- The written form of the first members of a list, up to its closing parenthesis. -/
def membersChars : List Sexp → List Char
  | [] => [')']
  | x :: xs => x.chars ++ restChars xs

/-- The written form of further members of a list, up to its closing parenthesis. -/
def restChars : List Sexp → List Char
  | [] => [')']
  | x :: xs => ' ' :: (x.chars ++ restChars xs)

end

/-- The written form. -/
def print (x : Sexp) : String := String.ofList x.chars

instance : ToString Sexp := ⟨print⟩

end TermRules.Sexp
