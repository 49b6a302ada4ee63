import TermRules.Builtin.Color
import TermRules.Registry.Basic
import TermRules.Text.Occurs

/-!
# Built-in predicates

A built-in predicate looks at nothing but the place of a node and what the node has of its own.
The color and the comment of a term are the values of two attributes.
-/

namespace TermRules

/-- The key of the attribute that holds the color. -/
def colorKey : String := "color"

/-- The key of the attribute that holds the comment. -/
def commentKey : String := "comment"

/-- What built-in predicates ask. -/
inductive Condition
  | isClass (c : TermClass)
  | isInstruction
  | isRoot
  /-- The attribute is set. -/
  | hasAttr (key : String)
  /-- The attribute is set and has a value. -/
  | hasValue (key : String)
  /-- The attribute is set and has this value. -/
  | valueIs (key value : String)
  | nameIs (name : String)
  | intentIs (intent : Intent)
  /-- The code of the instruction holds this text. -/
  | codeContains (text : String)
  deriving DecidableEq

namespace Condition

/-- Whether a node, met at the place `v`, meets a condition. -/
def holds {c : TermClass} (v : Visit) (h : Head c) : Condition → Bool
  | isClass d => c == d
  | isInstruction => c.isInstruction
  | isRoot => v.isRoot
  | hasAttr key => h.attrs.contains key
  | hasValue key => (h.attr? key).isSome
  | valueIs key value => h.attr? key == some value
  | nameIs name => h.name == name
  | intentIs intent => h.intent? == some intent
  | codeContains text =>
    match h.code? with
    | some code => Text.occurs text.toList code.toList
    | none => false

/-- The condition as a test of terms. -/
def test (k : Condition) : Test := fun t v => k.holds v t.head

/-- The names of the built-in predicates. -/
def builtins : Namespace Condition where
  nullary := .ofList <|
    TermClass.all.map (fun c =>
        (s!"is-{c.name}", ⟨s!"the term is of class {c.name}", isClass c⟩)) ++
      [("is-insn", ⟨"the term is a phi node, a definition, or a jump", isInstruction⟩),
        ("is-root", ⟨"the term is the root of the traversal", isRoot⟩),
        ("has-color", ⟨"the term has a color", hasValue colorKey⟩),
        ("has-comment", ⟨"the term has a comment", hasValue commentKey⟩)]
  unary := .ofList
    [("has-attr", ⟨"the term has the attribute KEY", fun key => .ok (hasAttr key)⟩),
      ("has-name", ⟨"the term is named NAME", fun name => .ok (nameIs name)⟩),
      ("has-color", ⟨"the term has the color COLOR",
        fun arg => (Color.read arg).map fun color => valueIs colorKey color.name⟩),
      ("has-intent", ⟨"the term is an argument with intent INTENT",
        fun arg => (Intent.read arg).map intentIs⟩),
      ("code-contains", ⟨"the code of the instruction contains TEXT",
        fun text => .ok (codeContains text)⟩)]

end Condition

end TermRules
