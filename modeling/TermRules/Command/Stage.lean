/-!
# Stages of the command

The terms of a file are read, transformed by the rules, and printed. To omit a stage is to omit all
stages from there on.
-/

namespace TermRules.Command

/-- The stages that can be omitted. -/
inductive Stage
  | transform
  | print
  deriving DecidableEq, Repr

namespace Stage

/-- The stage of a written name, or the text of the error. -/
def read : String → Except String Stage
  | "rewrite" => .ok transform
  | "print" => .ok print
  | text => .error s!"unknown stage: {text}"

/-- Whether omitting the stage `first` omits the stage `s`, which comes no earlier. -/
def omitsFrom (first s : Stage) : Bool :=
  match first, s with
  | print, transform => false
  | _, _ => true

end Stage

end TermRules.Command
