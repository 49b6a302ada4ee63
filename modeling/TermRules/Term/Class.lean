/-!
# Classes of terms

The seven classes, which class may stand directly in which (`TermClass.mayContain`), and the
intents of arguments.
-/

namespace TermRules

/-- Classes of terms. -/
inductive TermClass
  | program
  | subroutine
  | argument
  | block
  | phi
  | definition
  | jump
  deriving DecidableEq, Repr

namespace TermClass

/-- All classes. -/
def all : List TermClass := [program, subroutine, argument, block, phi, definition, jump]

/-- The written name. -/
def name : TermClass → String
  | program => "program"
  | subroutine => "sub"
  | argument => "arg"
  | block => "blk"
  | phi => "phi"
  | definition => "def"
  | jump => "jmp"

/-- The class of a written name. -/
def ofName? (text : String) : Option TermClass := all.find? fun c => c.name = text

/-- The class of a written name, or the text of the error. -/
def read (text : String) : Except String TermClass :=
  match ofName? text with
  | some c => .ok c
  | none => .error s!"unknown term class `{text}`"

/-- Whether the terms of a class are instructions. -/
def isInstruction : TermClass → Bool
  | phi | definition | jump => true
  | program | subroutine | argument | block => false

/-- Whether terms of the class `child` may stand directly in terms of the class `parent`. -/
def mayContain (parent child : TermClass) : Bool :=
  match parent, child with
  | program, subroutine => true
  | subroutine, argument => true
  | subroutine, block => true
  | block, phi => true
  | block, definition => true
  | block, jump => true
  | _, _ => false

/-- The height of the tallest trees with a root of a class. -/
def height : TermClass → Nat
  | program => 3
  | subroutine => 2
  | block => 1
  | argument | phi | definition | jump => 0

theorem ofName?_name (c : TermClass) : ofName? c.name = some c := by cases c <;> decide

theorem height_lt_of_mayContain {parent child : TermClass} (h : parent.mayContain child = true) :
    child.height < parent.height := by
  cases parent <;> cases child <;> simp_all [mayContain, height]

end TermClass

/-- The direction in which an argument passes data. -/
inductive Intent
  | input
  | output
  | both
  deriving DecidableEq, Repr

namespace Intent

/-- All intents. -/
def all : List Intent := [input, output, both]

/-- The written name. -/
def name : Intent → String
  | input => "in"
  | output => "out"
  | both => "both"

/-- The intent of a written name. -/
def ofName? (text : String) : Option Intent := all.find? fun i => i.name = text

/-- The intent of a written name, or the text of the error. -/
def read (text : String) : Except String Intent :=
  match ofName? text with
  | some i => .ok i
  | none => .error s!"unknown intent `{text}`, expected one of: in, out, both"

theorem ofName?_name (i : Intent) : ofName? i.name = some i := by cases i <;> decide

end Intent

end TermRules
