/-!
# Colors
-/

namespace TermRules

/-- The colors that a term can have. -/
inductive Color
  | black
  | red
  | green
  | yellow
  | blue
  | magenta
  | cyan
  | white
  deriving DecidableEq, Repr

namespace Color

/-- All colors. -/
def all : List Color := [black, red, green, yellow, blue, magenta, cyan, white]

/-- The written name. -/
def name : Color → String
  | black => "black"
  | red => "red"
  | green => "green"
  | yellow => "yellow"
  | blue => "blue"
  | magenta => "magenta"
  | cyan => "cyan"
  | white => "white"

/-- The color of a written name. -/
def ofName? (text : String) : Option Color := all.find? fun c => c.name = text

/-- The color of a written name, or the text of the error. -/
def read (text : String) : Except String Color :=
  match ofName? text with
  | some c => .ok c
  | none =>
    let names := ", ".intercalate (all.map name)
    .error s!"unknown color `{text}`, expected one of: {names}"

theorem ofName?_name (c : Color) : ofName? c.name = some c := by cases c <;> decide

end Color

end TermRules
