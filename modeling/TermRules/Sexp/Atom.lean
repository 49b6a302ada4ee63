import TermRules.Text.Blank
import TermRules.Text.Utf8

/-!
# Atoms and how they are written

An atom is written bare where that is possible (`isBare`), and otherwise between quotes, with a
backslash before each quote and each backslash and with the escapes `\n` and `\t` (`quote`).
Reading the text between the quotes undoes this: `decode_encode`.
-/

namespace TermRules.Sexp

open Text

/-! ## Bare atoms -/

/-- The characters of bare atoms: neither white space nor a parenthesis, semicolon or quote. -/
def isBareChar (c : Char) : Bool :=
  !(isWhite c || c == '(' || c == ')' || c == ';' || c == '"')

/-- The texts that can be written without quotes. -/
def isBare (text : List Char) : Bool := !text.isEmpty && text.all isBareChar

/-! ## Quoted atoms -/

/-- The letter that stands for a character after a backslash. -/
def escapeLetter? : Char → Option Char
  | '"' => some '"'
  | '\\' => some '\\'
  | '\n' => some 'n'
  | '\t' => some 't'
  | _ => none

/-- The character that a letter stands for after a backslash. -/
def escapedBy? : Char → Option Char
  | '"' => some '"'
  | '\\' => some '\\'
  | 'n' => some '\n'
  | 't' => some '\t'
  | _ => none

/-- A character within quotes. -/
def encodeChar (c : Char) : List Char :=
  match escapeLetter? c with
  | some letter => ['\\', letter]
  | none => [c]

/-- A text within quotes. -/
def encode (text : List Char) : List Char := text.flatMap encodeChar

/-- A text in quotes. -/
def quote (text : List Char) : List Char := '"' :: (encode text ++ ['"'])

/-- The text that stands within quotes, for a text within quotes that starts at the byte `offset`.
The error is the offset of the first backslash that starts no escape. -/
def decode (offset : Nat) : List Char → Except Nat (List Char)
  | [] => .ok []
  | ['\\'] => .error offset
  | '\\' :: letter :: rest =>
    match escapedBy? letter with
    | some c => (decode (offset + 2) rest).map (c :: ·)
    | none => .error offset
  | c :: rest => (decode (offset + c.utf8Size) rest).map (c :: ·)

/-- What stands between the quotes, or all of a text that does not stand in quotes. -/
def interior : List Char → List Char
  | '"' :: rest => if rest.getLast? = some '"' then rest.dropLast else '"' :: rest
  | text => text

/-- The atom that a text in quotes denotes. The error is the offset of the first backslash that
starts no escape, counted from the opening quote. -/
def unquote (text : List Char) : Except Nat String :=
  (decode 1 (interior text)).map String.ofList

/-! ## The written form -/

/-- The written form of an atom: bare where possible. -/
def writeAtom (text : List Char) : List Char := if isBare text then text else quote text

/-! ## Reading a written form -/

theorem escapedBy?_of_escapeLetter? {c letter : Char} (h : escapeLetter? c = some letter) :
    escapedBy? letter = some c := by
  simp only [escapeLetter?] at h
  split at h <;> cases h <;> rfl

theorem ne_backslash_of_escapeLetter? {c : Char} (h : escapeLetter? c = none) : c ≠ '\\' := by
  rintro rfl
  simp [escapeLetter?] at h

theorem decode_encode (offset : Nat) (text : List Char) :
    decode offset (encode text) = .ok text := by
  induction text generalizing offset with
  | nil => rfl
  | cons c text ih =>
    simp only [encode, List.flatMap_cons, encodeChar]
    split
    next letter h =>
      simp only [List.cons_append, List.nil_append, decode, escapedBy?_of_escapeLetter? h]
      rw [show text.flatMap encodeChar = encode text from rfl, ih]
      rfl
    next h =>
      have hc := ne_backslash_of_escapeLetter? h
      simp only [List.cons_append, List.nil_append]
      rw [show text.flatMap encodeChar = encode text from rfl, decode.eq_4, ih]
      · rfl
      · exact fun e => absurd e hc
      · exact fun _ _ e => absurd e hc

theorem interior_quote (text : List Char) : interior (quote text) = encode text := by
  simp [quote, interior]

theorem unquote_quote (text : List Char) : unquote (quote text) = .ok (String.ofList text) := by
  rw [unquote, interior_quote, decode_encode]
  rfl

end TermRules.Sexp
