import TermRules.Sexp.Printer
import TermRules.Term.Class
import TermRules.Traced

/-!
# The log

What the compilation of rules and their application report on their way.
-/

namespace TermRules

/-- Levels of messages. -/
inductive Level
  | trace
  | debug
  | info
  | warn
  deriving DecidableEq, Repr

/-- The name of a level. -/
def Level.name : Level → String
  | trace => "TRACE"
  | debug => "DEBUG"
  | info => "INFO"
  | warn => "WARN"

/-- Messages. -/
inductive Message
  /-- A name is registered again. -/
  | redefine (name : String)
  /-- A number of expressions is about to be resolved. -/
  | resolve (count : Nat)
  /-- A rule is compiled; `index` rules were compiled before it. -/
  | compiledRule (index : Nat) (rule : Sexp)
  /-- A rule fires on a node, which has the given class and name before. -/
  | fires (rule : Nat) (cls : TermClass) (name : String)
  /-- Rules were applied to a tree: how many nodes were visited, and how often rules fired. -/
  | applied (visited fired : Nat)
  /-- A path is about to be read. -/
  | read (path : String)
  /-- All rules of a command are compiled. -/
  | compiledRules (count : Nat)
  /-- Rules were applied to the terms of a path: how many nodes were visited, and how often rules
  fired. -/
  | appliedTo (path : String) (visited fired : Nat)
  deriving DecidableEq

namespace Message

/-- The level of a message. -/
def level : Message → Level
  | fires .. => .trace
  | resolve _ | compiledRule .. | applied .. => .debug
  | read _ | compiledRules _ | appliedTo .. => .info
  | redefine _ => .warn

/-- The text of a message. -/
def text : Message → String
  | redefine name => s!"Redefine `{name}`"
  | resolve count => s!"Resolve {count} expressions"
  | compiledRule index rule => s!"Compiled rule {index}: {rule.print}"
  | fires rule cls name => s!"Rule {rule} fires on {cls.name} {name}"
  | applied visited fired => s!"Visited {visited} terms, fired {fired} rules"
  | read path => s!"Read {path}"
  | compiledRules count => s!"Compiled {count} rules"
  | appliedTo path visited fired => s!"Visited {visited} terms in {path}, fired {fired} rules"

/-- A message with its level. -/
def line (m : Message) : String := s!"{m.level.name} {m.text}"

end Message

/-- Computations with a log. -/
abbrev Logged := Traced Message

end TermRules
