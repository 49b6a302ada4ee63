/-!
# Texts within texts
-/

namespace TermRules.Text

/-- Whether `part` stands somewhere in a text, as one piece. -/
def occurs (part : List Char) : List Char → Bool
  | [] => part.isEmpty
  | c :: cs => part.isPrefixOf (c :: cs) || occurs part cs

/-- The text followed by as many blanks as bring it to `width` characters, if it is shorter. -/
def padTo (width : Nat) (text : String) : String :=
  text ++ String.ofList (List.replicate (width - text.length) ' ')

end TermRules.Text
