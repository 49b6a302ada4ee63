import TermRules.Sexp.Atom

/-!
# Tokens of S-expressions

A text is cut from left to right into lexemes, each the longest that its first character allows.
Nothing is left out: blanks, comments and what is no token at all are lexemes too
(`scan_text`). The offset of a lexeme counts the bytes before it.
-/

namespace TermRules.Sexp

open Text

/-- Tokens. -/
inductive Token
  | opening
  | closing
  /-- A bare atom. -/
  | atom (text : List Char)
  /-- An atom in quotes, with its quotes. -/
  | quoted (text : List Char)
  /-- A run of layout characters, or a comment. -/
  | blank
  /-- A sequence of characters that is no token. -/
  | invalid
  deriving DecidableEq, Repr

/-- A token with the place where it stands: the offset of its first byte and its characters. -/
structure Lexeme where
  token : Token
  start : Nat
  text : List Char
  deriving DecidableEq, Repr

/-- The offset behind a lexeme. -/
def Lexeme.stop (l : Lexeme) : Nat := l.start + utf8Length l.text

/-! ## The first lexeme of a text -/

/-- The first token of a text, its characters and what follows. -/
structure Cut where
  token : Token
  text : List Char
  rest : List Char

/-- The longest run, at the start of a text, of characters other than quotes and backslashes and
of pairs of a backslash and a character other than a line feed; and what follows. -/
def splitBody : List Char → List Char × List Char
  | [] => ([], [])
  | ['\\'] => ([], ['\\'])
  | '\\' :: c :: rest =>
    if c = '\n' then ([], '\\' :: c :: rest)
    else
      let split := splitBody rest
      ('\\' :: c :: split.1, split.2)
  | c :: rest =>
    if c = '"' then ([], c :: rest)
    else
      let split := splitBody rest
      (c :: split.1, split.2)

/-- The atom in quotes that follows a quote, or else the quote and what could start one. -/
def cutQuoted (cs : List Char) : Cut :=
  match splitBody cs with
  | (body, '"' :: rest) => ⟨.quoted ('"' :: (body ++ ['"'])), '"' :: (body ++ ['"']), rest⟩
  | (body, rest) => ⟨.invalid, '"' :: body, rest⟩

/-- The character `c` with the longest run, behind it, of characters of the class `p`. -/
def cutRun (token : List Char → Token) (p : Char → Bool) (c : Char) (cs : List Char) : Cut :=
  ⟨token (c :: cs.takeWhile p), c :: cs.takeWhile p, cs.dropWhile p⟩

/-- The first token of the text that consists of `c` and `cs`. -/
def cut (c : Char) (cs : List Char) : Cut :=
  if c = '(' then ⟨.opening, [c], cs⟩
  else if c = ')' then ⟨.closing, [c], cs⟩
  else if c = '"' then cutQuoted cs
  else if c = ';' then cutRun (fun _ => .blank) (· != '\n') c cs
  else if isLayout c then cutRun (fun _ => .blank) isLayout c cs
  else if isWhite c then ⟨.invalid, [c], cs⟩
  else cutRun .atom isBareChar c cs

theorem splitBody_append (cs : List Char) : (splitBody cs).1 ++ (splitBody cs).2 = cs := by
  fun_induction splitBody cs with
  | case1 => rfl
  | case2 => rfl
  | case3 => rfl
  | case4 c rest _ split ih => simpa using ih
  | case5 => rfl
  | case6 c rest _ _ _ split ih => simpa using ih

theorem cutQuoted_append (cs : List Char) :
    (cutQuoted cs).text ++ (cutQuoted cs).rest = '"' :: cs := by
  have h := splitBody_append cs
  simp only [cutQuoted]
  split
  next hs => rw [hs] at h; simp [← h]
  next hs => rw [hs] at h; simp [← h]

theorem cut_append (c : Char) (cs : List Char) : (cut c cs).text ++ (cut c cs).rest = c :: cs := by
  unfold cut
  split
  · rfl
  split
  · rfl
  split
  next h => rw [cutQuoted_append, h]
  split
  · simp [cutRun]
  split
  · simp [cutRun]
  split
  · rfl
  · simp [cutRun]

theorem cutQuoted_text_ne_nil (cs : List Char) : (cutQuoted cs).text ≠ [] := by
  simp only [cutQuoted]
  split <;> simp

theorem cut_text_ne_nil (c : Char) (cs : List Char) : (cut c cs).text ≠ [] := by
  unfold cut
  repeat' split
  all_goals simp [cutRun, cutQuoted_text_ne_nil]

theorem cut_rest_length (c : Char) (cs : List Char) : (cut c cs).rest.length ≤ cs.length := by
  have h := congrArg List.length (cut_append c cs)
  have h' := List.length_pos_iff.mpr (cut_text_ne_nil c cs)
  simp only [List.length_append, List.length_cons] at h
  omega

/-! ## All lexemes of a text -/

/-- The lexemes of a text that starts at the byte `start`. -/
def scan (start : Nat) : List Char → List Lexeme
  | [] => []
  | c :: cs =>
    let first := cut c cs
    ⟨first.token, start, first.text⟩ :: scan (start + utf8Length first.text) first.rest
termination_by cs => cs.length
decreasing_by
  have := cut_rest_length c cs
  simp only [List.length_cons]
  omega

theorem scan_text (start : Nat) (cs : List Char) : (scan start cs).flatMap (·.text) = cs := by
  fun_induction scan start cs with
  | case1 => rfl
  | case2 start c cs first ih => simp [ih, first, cut_append]

/-- The lexemes of a text. -/
def lexemes (text : String) : List Lexeme := scan 0 text.toList

/-- The tokens of a text that are not blank. -/
def tokens (text : String) : List Token := ((lexemes text).map (·.token)).filter (· ≠ .blank)

end TermRules.Sexp
