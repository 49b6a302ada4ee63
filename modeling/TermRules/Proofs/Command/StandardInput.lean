import TermRules.Proofs.Command.Output
import TermRules.Proofs.Ruleset.Extension

/-!
# Runs that name the standard input more than once

The standard input can be named among the files of rules and among the files of terms. A run is
refused if it is named more than once among the files of terms, and only then
(`processFiles_eq_refusal_iff`). Otherwise whoever comes to it first reads it, and all others find
it empty: files of rules that name it again count for nothing
(`value_compileFiles_standardInput`), and a file of terms that names it after a file of rules holds
no terms.
-/

namespace TermRules.Command

variable {reg : Registry} {inputs : Inputs}

/-! ## Files of rules that name the standard input again -/

theorem outcome_parse_empty (reg : Registry) : (Ruleset.parse reg "").outcome = .ok ⟨[]⟩ := by
  have hitems : Sexp.items "" = [] := by cbv
  rw [Ruleset.outcome_parse, hitems]
  rfl

/-- If the standard input is used up, files of rules that name it count for nothing. -/
theorem value_compileFiles_filter (h : inputs.standard = .ok "") (paths : List String) :
    (compileFiles reg inputs paths).run.value =
      (compileFiles reg inputs (paths.filter fun p => !isStandardInput p)).run.value := by
  induction paths with
  | nil => rfl
  | cons path paths ih =>
    cases hpath : isStandardInput path with
    | true =>
      have hread : inputs.read path = (.ok "", inputs) := by
        simp only [Inputs.read, hpath, if_true, h]
        rw [← h]
      have hskip : (compileFiles reg inputs (path :: paths)).run.value =
          (compileFiles reg inputs paths).run.value >>= fun later =>
            .ok ([] ++ later.1, later.2) := by
        rw [value_compileFiles_cons, hread]
        change (Ruleset.parse reg "").outcome.mapError _ >>= _ = _
        rw [outcome_parse_empty]
        rfl
      rw [List.filter_cons_of_neg (by simp [hpath]), ← ih, hskip]
      cases (compileFiles reg inputs paths).run.value <;> rfl
    | false =>
      have hread : (inputs.read path).2 = inputs := by simp [Inputs.read, hpath]
      rw [List.filter_cons_of_pos (by simp [hpath]), value_compileFiles_cons,
        value_compileFiles_cons, hread, ih]

/-- Files of rules that name the standard input again count for nothing. -/
theorem value_compileFiles_standardInput {path : String} (hpath : isStandardInput path = true)
    (before after : List String) :
    (compileFiles reg inputs (before ++ path :: after)).run.value =
      (compileFiles reg inputs
        (before ++ path :: after.filter fun p => !isStandardInput p)).run.value := by
  induction before generalizing inputs with
  | nil =>
    have hused : (inputs.read path).2.standard = .ok "" := by simp [Inputs.read, hpath]
    rw [List.nil_append, List.nil_append, value_compileFiles_cons, value_compileFiles_cons,
      value_compileFiles_filter hused]
  | cons first before ih =>
    rw [List.cons_append, List.cons_append, value_compileFiles_cons, value_compileFiles_cons, ih]

/-! ## Refusal -/

/-- The output for options that are refused: a failure of the rules, if there is one, or else that
the standard input is named more than once. -/
def refusal (reg : Registry) (o : Options) (inputs : Inputs) : Output :=
  match (compileRules reg o inputs).run.value with
  | .error f => .fail f
  | .ok _ => .fail ⟨none, .standardInputTwice⟩

/-- **Where the standard input is named more than once.** A run that gets through its rules is
refused just if the standard input is named more than once among the files of terms, no matter how
often the files of rules name it. The files of terms are processed with what the files of rules
leave of the standard input, which is nothing if one of them names it. And among the files of rules,
all but the first that names it count for nothing. -/
theorem processFiles_eq_refusal_iff (reg : Registry) (o : Options) (inputs : Inputs) :
    (processFiles reg o inputs = refusal reg o inputs ↔
      (∃ f, (compileRules reg o inputs).run.value = .error f) ∨
        1 < o.files.countP isStandardInput) ∧
    (∀ R rest, (compileRules reg o inputs).run.value = .ok (R, rest) →
      processFiles reg o inputs = process o R (inputs.after o.ruleFiles)) ∧
    ∀ before path after, o.ruleFiles = before ++ path :: after → isStandardInput path = true →
      (compileRules reg o inputs).run.value =
        (compileRules reg { o with
          ruleFiles := before ++ path :: after.filter fun p => !isStandardInput p }
          inputs).run.value := by
  refine ⟨?_, fun R rest h => ?_, fun before path after hfiles hpath => ?_⟩
  · cases h : (compileRules reg o inputs).run.value with
    | error f =>
      rw [processFiles_of_error h, refusal, h]
      exact iff_of_true rfl (.inl ⟨f, rfl⟩)
    | ok result =>
      obtain ⟨R, rest⟩ := result
      rw [processFiles_of_ok h, refusal, h]
      constructor
      · intro hrefused
        refine .inr (Nat.lt_of_not_le fun honce => ?_)
        have hfailure : (process o R rest).failure = some ⟨none, .standardInputTwice⟩ := by
          rw [hrefused]
          rfl
        exact file?_ne_none_of_process honce hfailure rfl
      · rintro (⟨f, hf⟩ | htwice)
        · cases hf
        · exact process_of_twice htwice
  · rw [processFiles_of_ok h, rest_of_compileRules h]
  · rw [value_compileRules, value_compileRules, hfiles,
      value_compileFiles_standardInput hpath before after]

/-- The options for rules from the standard input, a file of terms, and the standard input again. -/
def rulesThenTerms : Options :=
  { Options.initial with ruleFiles := ["-"], files := ["prog.bml", "-"] }

/-- Files that hold a block, and rules in the standard input. -/
def rulesInStandardInput : Inputs := ⟨fun _ => .ok "(blk b)", .ok Ruleset.coloringText⟩

/-- What the rules leave of these inputs. -/
def usedUpInputs : Inputs := { rulesInStandardInput with standard := .ok "" }

theorem compileRules_rulesThenTerms :
    (compileRules .builtin rulesThenTerms rulesInStandardInput).run.value =
      .ok (Ruleset.coloring, usedUpInputs) := by
  have hcoloring : (Ruleset.parse .builtin Ruleset.coloringText).outcome =
      .ok Ruleset.coloring := by
    rw [Ruleset.outcome_parse_of_items _ (by cbv), Rule.outcome_compile_eq_units]
    rfl
  have hfile : (compileFiles .builtin rulesInStandardInput ["-"]).run.value =
      .ok (Ruleset.coloring.rules, usedUpInputs) := by
    have hread : rulesInStandardInput.read "-" = (.ok Ruleset.coloringText, usedUpInputs) := rfl
    rw [value_compileFiles_cons, hread]
    change (Ruleset.parse .builtin Ruleset.coloringText).outcome.mapError _ >>= _ = _
    rw [hcoloring]
    rfl
  rw [value_compileRules]
  change (compileFiles .builtin rulesInStandardInput ["-"]).run.value >>= _ = _
  rw [hfile]
  rfl

/-- The run is not refused, and the files of terms are processed without the standard input. -/
theorem processFiles_rulesThenTerms :
    (compileRules .builtin rulesThenTerms rulesInStandardInput).run.value =
        .ok (Ruleset.coloring, usedUpInputs) ∧
      processFiles .builtin rulesThenTerms rulesInStandardInput ≠
        refusal .builtin rulesThenTerms rulesInStandardInput ∧
      processFiles .builtin rulesThenTerms rulesInStandardInput =
        process rulesThenTerms Ruleset.coloring usedUpInputs := by
  have hrules := compileRules_rulesThenTerms
  obtain ⟨hiff, hprocess, -⟩ :=
    processFiles_eq_refusal_iff .builtin rulesThenTerms rulesInStandardInput
  refine ⟨hrules, fun hrefused => ?_, hprocess _ _ hrules⟩
  rcases hiff.mp hrefused with ⟨f, hf⟩ | htwice
  · rw [hrules] at hf
    cases hf
  · exact absurd htwice (by decide)

/-- The rules in the standard input are applied to the block in the file, and then the standard
input is found empty. -/
theorem runOptions_rulesThenTerms :
    rulesThenTerms.list = false ∧
      1 < (rulesThenTerms.ruleFiles ++ rulesThenTerms.files).countP isStandardInput ∧
      runOptions rulesThenTerms rulesInStandardInput = .ok "(blk b (@ color red))\n" := by
  let block : Term := ⟨.block, ⟨"b", .empty, ()⟩, ⟨[], [], []⟩⟩
  have hholds : List.Forall₂ (Holds usedUpInputs) rulesThenTerms.files [[block], []] :=
    .cons ⟨_, rfl, by cbv⟩ (.cons ⟨_, rfl, by cbv⟩ .nil)
  have hprint : (Ruleset.coloring.transform block).print = "(blk b (@ color red))" := by cbv
  have hprocess : process rulesThenTerms Ruleset.coloring usedUpInputs =
      ⟨["(blk b (@ color red))"], none⟩ := by
    rw [process_eq_printAll (by decide) fun _ _ _ => ⟨"", rfl⟩, printAll_of_holds rfl hholds,
      ← hprint]
    rfl
  refine ⟨rfl, by decide, ?_⟩
  change Result.ofOutput (processFiles .builtin rulesThenTerms rulesInStandardInput) = _
  rw [processFiles_of_ok compileRules_rulesThenTerms, hprocess]
  rfl

example : Options.read ["-f", "-", "prog.bml", "-"] = .ok rulesThenTerms := by cbv

end TermRules.Command
