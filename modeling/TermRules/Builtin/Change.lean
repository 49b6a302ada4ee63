import TermRules.Builtin.Condition

/-!
# Built-in actions

A built-in action changes nothing but what a node has of its own.
-/

namespace TermRules

/-- What built-in actions do. -/
inductive Change
  /-- Sets an attribute, with or without a value. -/
  | setAttr (key : String) (value : Option String)
  | clearAttr (key : String)
  | clearAttrs
  | rename (name : String)
  /-- Sets the intent, of arguments only. -/
  | setIntent (intent : Intent)
  deriving DecidableEq

namespace Change

/-- What a node has of its own, after a change. -/
def apply : Change → {c : TermClass} → Head c → Head c
  | setAttr key value, _, h => { h with attrs := h.attrs.insert key value }
  | clearAttr key, _, h => { h with attrs := h.attrs.erase key }
  | clearAttrs, _, h => { h with attrs := .empty }
  | rename name, _, h => { h with name }
  | setIntent intent, .argument, h => { h with payload := some intent }
  | setIntent _, .program, h | setIntent _, .subroutine, h | setIntent _, .block, h
  | setIntent _, .phi, h | setIntent _, .definition, h | setIntent _, .jump, h => h

/-- The change as an edit of nodes, which leaves the parts of a node alone. -/
def edit (k : Change) : Edit := fun _ _ n => { n with toHead := k.apply n.toHead }

/-- The names of the built-in actions. -/
def builtins : Namespace Change where
  nullary := .ofList
    [("clear-color", ⟨"remove the color", clearAttr colorKey⟩),
      ("clear-comment", ⟨"remove the comment", clearAttr commentKey⟩),
      ("clear-attrs", ⟨"remove all attributes", clearAttrs⟩)]
  unary := .ofList
    [("set-attr", ⟨"set the attribute KEY", fun key => .ok (setAttr key none)⟩),
      ("clear-attr", ⟨"remove the attribute KEY", fun key => .ok (clearAttr key)⟩),
      ("set-color", ⟨"color the term with COLOR",
        fun arg => (Color.read arg).map fun color => setAttr colorKey (some color.name)⟩),
      ("set-comment", ⟨"attach the comment TEXT",
        fun text => .ok (setAttr commentKey (some text))⟩),
      ("rename", ⟨"rename the term to NAME", fun name => .ok (rename name)⟩),
      ("set-intent", ⟨"set the intent of an argument to INTENT",
        fun arg => (Intent.read arg).map setIntent⟩)]

end Change

namespace Registry

/-- The registry of the built-in predicates and actions. -/
def builtin : Registry := ⟨Condition.builtins.map Condition.test, Change.builtins.map Change.edit⟩

end Registry

end TermRules
