import TermRules.Proofs.Ruleset.Compilation
import TermRules.Proofs.Sexp.Recognition

/-!
# Compilation piece by piece

Several texts of rules are compiled as each of them is compiled on its own, one after the other, up
to the first error (`Ruleset.outcome_compile_eq_mapM`).

A text that is to be one rule (`Rule.parse`) is compiled like a text of any number of rules if it
consists of one S-expression (`Rule.outcome_parse_of_holdsOne`). Otherwise it is no rule
(`Rule.outcome_parse_of_not_holdsOne`).
-/

namespace TermRules

/-- The text consists of one S-expression, and the reader meets no error in it. -/
def Sexp.HoldsOne (text : String) : Prop := ∃ x, items text = [.ok x]

namespace Ruleset

theorem outcome_compile_cons (reg : Registry) (text : String) (texts : List String) :
    (compile reg (text :: texts)).outcome =
      (parse reg text).outcome >>= fun R => (compile reg texts).outcome >>= fun S =>
        .ok (R ++ S) :=
  outcome_compile_append reg [text] texts

/-- Texts are compiled one by one. -/
theorem outcome_compile_eq_mapM (reg : Registry) (texts : List String) :
    (compile reg texts).outcome =
      (texts.mapM fun text => (parse reg text).outcome).map fun rulesets =>
        ⟨rulesets.flatMap Ruleset.rules⟩ := by
  induction texts with
  | nil => rfl
  | cons text texts ih =>
    rw [outcome_compile_cons, ih, List.mapM_cons]
    cases (parse reg text).outcome with
    | error err => rfl
    | ok R => cases texts.mapM fun text => (parse reg text).outcome <;> rfl

end Ruleset

namespace Rule

theorem outcome_parse (reg : Registry) (text : String) :
    (parse reg text).outcome = Ruleset.compileItem reg (Sexp.parse text) := by
  rw [parse, Compilation.outcome_bind]
  rfl

variable (reg : Registry) {text : String}

/-- A text that consists of one S-expression denotes one rule, or none. -/
theorem outcome_parse_of_holdsOne (h : Sexp.HoldsOne text) :
    (Ruleset.parse reg text).outcome = (parse reg text).outcome.map fun r => ⟨[r]⟩ := by
  obtain ⟨x, hx⟩ := h
  rw [outcome_parse, Sexp.parse_eq_ok_iff.mpr hx, Ruleset.outcome_parse_of_items reg hx]
  rfl

/-- Texts that consist of one S-expression each are the rules that they denote as texts of any
number of rules. -/
theorem outcome_mapM_parse {texts : List String} (h : ∀ text ∈ texts, Sexp.HoldsOne text) :
    (texts.mapM (parse reg)).outcome =
      (texts.mapM fun text => (Ruleset.parse reg text).outcome).map
        (List.flatMap Ruleset.rules) := by
  induction texts with
  | nil => rfl
  | cons text texts ih =>
    obtain ⟨htext, htexts⟩ := List.forall_mem_cons.mp h
    rw [List.mapM_cons, List.mapM_cons, Compilation.outcome_bind,
      outcome_parse_of_holdsOne reg htext]
    simp only [Compilation.outcome_bind, ih htexts]
    cases (parse reg text).outcome with
    | error err => rfl
    | ok r => cases texts.mapM fun text => (Ruleset.parse reg text).outcome <;> rfl

/-- A text that does not consist of one S-expression is no rule, for a reason of the reader. -/
theorem outcome_parse_of_not_holdsOne (h : ¬ Sexp.HoldsOne text) :
    ∃ e, Sexp.parse text = .error e ∧ (parse reg text).outcome = .error (.sexp e) := by
  cases hparse : Sexp.parse text with
  | error e => exact ⟨e, rfl, by rw [outcome_parse, hparse]; rfl⟩
  | ok x => exact absurd ⟨x, Sexp.parse_eq_ok_iff.mp hparse⟩ h

end Rule

end TermRules
