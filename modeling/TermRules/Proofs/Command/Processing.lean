import TermRules.Command.Run
import TermRules.Proofs.Command.Modes
import TermRules.Proofs.Ruleset.Compilation

/-!
# What a run does

A run compiles its rules and then processes its files. What comes out of each of the two is said
here once: what the rules leave to be read (`rest_of_compileRules`), and that processing prints the
results for the files in order, unless the standard input cannot be read in time
(`process_eq_printAll_or`).
-/

namespace TermRules.Command

variable {reg : Registry} {o : Options} {R : Ruleset} {inputs rest : Inputs} {f : Failure}

/-! ## Computations with a log -/

section Values

variable {ε δ α β : Type}

theorem value_bind (x : ExceptT ε Logged α) (k : α → ExceptT ε Logged β) :
    (x >>= k).run.value = x.run.value >>= fun a => (k a).run.value := by
  change (ExceptT.bindCont k x.run.value).value = _
  cases x.run.value <;> rfl

theorem value_textOf (path : String) (content : Except InputError String) :
    (textOf path content).run.value = content.mapError fun e => ⟨some path, .input e⟩ := by
  cases content <;> rfl

theorem value_adapt (g : ε → δ) (x : ExceptT ε Logged α) :
    (x.adapt g).run.value = x.run.value.mapError g := rfl

end Values

/-! ## Rules -/

/-- What is left to be read when the contents of some paths have been read. -/
def Inputs.after (inputs : Inputs) (paths : List String) : Inputs :=
  if paths.any isStandardInput then { inputs with standard := .ok "" } else inputs

theorem Inputs.after_cons (inputs : Inputs) (path : String) (paths : List String) :
    inputs.after (path :: paths) = (inputs.read path).2.after paths := by
  cases hpath : isStandardInput path <;> simp [after, read, hpath]

/-- The rules of a file, and then those of the other files. -/
theorem value_compileFiles_cons (path : String) (paths : List String) :
    (compileFiles reg inputs (path :: paths)).run.value =
      (inputs.read path).1.mapError (fun e => ⟨some path, .input e⟩) >>= fun text =>
        (Ruleset.parse reg text).outcome.mapError (fun e => ⟨some path, .content (.compile e)⟩) >>=
          fun R => (compileFiles reg (inputs.read path).2 paths).run.value >>= fun later =>
            .ok (R.rules ++ later.1, later.2) := by
  simp only [compileFiles, value_bind, value_adapt, value_textOf]
  rfl

theorem rest_of_compileFiles {paths : List String} {rules : List Rule}
    (h : (compileFiles reg inputs paths).run.value = .ok (rules, rest)) :
    rest = inputs.after paths := by
  induction paths generalizing inputs rules with
  | nil =>
    cases h
    rfl
  | cons path paths ih =>
    rw [value_compileFiles_cons] at h
    obtain ⟨text, -, h⟩ := bind_eq_ok.mp h
    obtain ⟨R, -, h⟩ := bind_eq_ok.mp h
    obtain ⟨later, hlater, h⟩ := bind_eq_ok.mp h
    cases h
    rw [Inputs.after_cons, ih hlater]

/-- The rules given as text, and then those of the files. -/
theorem value_compileRules :
    (compileRules reg o inputs).run.value =
      (o.rules.mapM (Rule.parse reg)).run.value.mapError (fun e => ⟨none, .content (.compile e)⟩)
        >>= fun inline => (compileFiles reg inputs o.ruleFiles).run.value >>= fun later =>
          .ok (⟨inline ++ later.1⟩, later.2) := by
  unfold compileRules compileTexts
  simp only [value_bind, value_adapt]
  rfl

/-- Rules use the standard input up if one of their files is the standard input. -/
theorem rest_of_compileRules (h : (compileRules reg o inputs).run.value = .ok (R, rest)) :
    rest = inputs.after o.ruleFiles := by
  rw [value_compileRules] at h
  obtain ⟨inline, -, h⟩ := bind_eq_ok.mp h
  obtain ⟨later, hlater, h⟩ := bind_eq_ok.mp h
  cases h
  exact rest_of_compileFiles hlater

/-! ## Files -/

theorem processFiles_of_error (h : (compileRules reg o inputs).run.value = .error f) :
    processFiles reg o inputs = .fail f := by
  rw [processFiles, h]

theorem processFiles_of_ok (h : (compileRules reg o inputs).run.value = .ok (R, rest)) :
    processFiles reg o inputs = process o R rest := by
  rw [processFiles, h]

theorem process_of_twice (h : 1 < o.files.countP isStandardInput) :
    process o R inputs = .fail ⟨none, .standardInputTwice⟩ :=
  if_pos h

theorem process_of_once (h : o.files.countP isStandardInput ≤ 1) :
    process o R inputs =
      if o.jobs?.isSome then parallel o R inputs o.files else sequential o R inputs o.files :=
  if_neg (Nat.not_lt.mpr h)

/-- Processing prints the results for the files in order, if the standard input can be read where it
is named. -/
theorem process_eq_printAll (h : o.files.countP isStandardInput ≤ 1)
    (hread : ∀ p ∈ o.files, isStandardInput p = true → ∃ text, inputs.standard = .ok text) :
    process o R inputs = printAll o (o.files.map (resultOf o R inputs)) := by
  rw [process_of_once h, parallel_eq_printAll h hread, sequential_eq_printAll h, ite_self]

/-- Processing prints the results for the files in order, unless the standard input has to be read
before and cannot be read. -/
theorem process_eq_printAll_or (h : o.files.countP isStandardInput ≤ 1) :
    process o R inputs = printAll o (o.files.map (resultOf o R inputs)) ∨
      ∃ path e, process o R inputs = .fail ⟨some path, .input e⟩ := by
  cases hstandard : inputs.standard with
  | ok text => exact .inl (process_eq_printAll h fun _ _ _ => ⟨text, hstandard⟩)
  | error e =>
    cases hfind : o.files.find? isStandardInput with
    | none =>
      refine .inl (process_eq_printAll h fun p hp hpath => ?_)
      exact absurd hpath (List.find?_eq_none.mp hfind p hp)
    | some path =>
      rw [process_of_once h]
      split
      · obtain ⟨before, after, hfiles, hpath, hothers⟩ := exists_before_standardInput h hfind
        rw [hfiles, parallel_of_unreadable hpath hothers hstandard]
        exact .inr ⟨path, e, rfl⟩
      · exact .inl (sequential_eq_printAll h)

/-- A failure of a file bears the name of the file. -/
theorem file?_ne_none_of_process (h : o.files.countP isStandardInput ≤ 1)
    (hf : (process o R inputs).failure = some f) : f.file? ≠ none := by
  rcases process_eq_printAll_or h with hprint | ⟨path, e, hfail⟩
  · rw [hprint] at hf
    obtain ⟨path, -, hresult⟩ := List.mem_map.mp (mem_of_failure_printAll hf)
    simp [file?_of_resultOf hresult]
  · rw [hfail] at hf
    cases hf
    simp

end TermRules.Command
