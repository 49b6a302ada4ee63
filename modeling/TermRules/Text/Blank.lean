/-!
# White space

Two notions of blank character: white space in the sense of Unicode (`isWhite`), which no bare
atom may hold, and the five layout characters (`isLayout`), which may separate tokens. Every
layout character is white space (`isWhite_of_isLayout`); the converse fails, for instance at the
no-break space.
-/

namespace TermRules.Text

/-- The ranges of code points, both ends included, with the Unicode property `White_Space`. -/
def whiteRanges : List (Nat × Nat) :=
  [(0x09, 0x0D), (0x20, 0x20), (0x85, 0x85), (0xA0, 0xA0), (0x1680, 0x1680), (0x2000, 0x200A),
    (0x2028, 0x2029), (0x202F, 0x202F), (0x205F, 0x205F), (0x3000, 0x3000)]

/-- White space of Unicode. -/
def isWhite (c : Char) : Bool :=
  whiteRanges.any fun range => range.1 ≤ c.toNat && c.toNat ≤ range.2

/-- The characters that may separate tokens: space, tab, carriage return, line feed and form
feed. -/
def isLayout (c : Char) : Bool :=
  c == ' ' || c == '\t' || c == '\r' || c == '\n' || c == '\x0c'

theorem isWhite_of_isLayout {c : Char} (h : isLayout c = true) : isWhite c = true := by
  simp only [isLayout, Bool.or_eq_true, beq_iff_eq] at h
  rcases h with (((rfl | rfl) | rfl) | rfl) | rfl <;> decide

end TermRules.Text
