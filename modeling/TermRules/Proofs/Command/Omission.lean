import TermRules.Proofs.Command.Pairing

/-!
# Omitting stages

A run that omits a stage prints nothing, since the last stage is printing. It fails just as it does
with all stages (`process_omit`): what is wrong with a file shows when the file is read, and neither
the rules nor the options have a say in this (`fault?_termsOfInput`). So the failure of a run
depends on its files alone, be it that these are processed one after the other
(`failure_sequential`) or that their results are printed when all of them are there
(`failure_parallel`).
-/

namespace TermRules.Command

variable {o o' : Options} {R R' : Ruleset} {inputs : Inputs}

/-! ## Failures of results -/

/-- What is wrong, if there is no result. -/
def fault? {ε α : Type} : Except ε α → Option ε
  | .ok _ => none
  | .error e => some e

theorem fault?_bind_ok {ε α β : Type} (x : Except ε α) (f : α → β) :
    fault? (x >>= fun a => .ok (f a)) = fault? x := by
  cases x <;> rfl

/-- What is wrong with an input depends neither on the options nor on the rules. -/
theorem fault?_termsOfInput (path : String) (content : Except InputError String) :
    fault? (termsOfInput o R path content) = fault? (termsOfInput o' R' path content) := by
  cases content with
  | error e => rfl
  | ok text =>
    rw [termsOfInput, termsOfInput, termsOf, termsOf]
    exact (fault?_bind_ok _ _).trans (fault?_bind_ok _ _).symm

theorem failure_after (out : Output) (lines : List String) :
    (out.after lines).failure = out.failure := rfl

theorem failure_printAll (results : List (Except Failure (List Term))) :
    (printAll o results).failure = results.findSome? fault? := by
  induction results with
  | nil => rfl
  | cons result results ih =>
    cases result with
    | error f => rfl
    | ok terms =>
      rw [printAll, failure_after, ih]
      rfl

/-! ## Failures of runs -/

theorem failure_sequential_cons (path : String) (paths : List String) :
    (sequential o R inputs (path :: paths)).failure =
      (fault? (resultOf o R inputs path)).or
        (sequential o R (inputs.read path).2 paths).failure := by
  rw [sequential_cons]
  cases resultOf o R inputs path <;> rfl

theorem failure_sequential (paths : List String) :
    (sequential o R inputs paths).failure = (sequential o' R' inputs paths).failure := by
  induction paths generalizing inputs with
  | nil => rfl
  | cons path paths ih =>
    have hfault : fault? (resultOf o R inputs path) = fault? (resultOf o' R' inputs path) :=
      fault?_termsOfInput path _
    rw [failure_sequential_cons, failure_sequential_cons, hfault, ih]

theorem failure_printPaths (standard : Option (Except Failure (List Term)))
    (results : List (Except Failure (List Term))) (paths : List String) :
    (printPaths o standard results paths).failure =
      (distribute (standard.map fault?) (results.map fault?) paths).1.findSome? Option.join := by
  rw [printPaths, failure_printAll, distribute_map, List.findSome?_map, List.findSome?_map]
  congr 1
  funext result
  cases result <;> rfl

theorem failure_parallel (paths : List String) :
    (parallel o R inputs paths).failure = (parallel o' R' inputs paths).failure := by
  -- the faults of the results are the same, and the paths take results without a look at them
  have hfiles : (fileResults o R inputs paths).map fault? =
      (fileResults o' R' inputs paths).map fault? := by
    rw [fileResults_eq, fileResults_eq, List.map_map, List.map_map]
    exact List.map_congr_left fun path _ => fault?_termsOfInput path _
  rw [parallel_eq, parallel_eq]
  cases paths.find? isStandardInput with
  | none => simp only [failure_printPaths, hfiles, Option.map_none]
  | some path =>
    cases inputs.standard with
    | error e => rfl
    | ok text =>
      have hstandard : fault? (termsOf o R path text) = fault? (termsOf o' R' path text) :=
        fault?_termsOfInput path (.ok text)
      simp only [failure_printPaths, hfiles, Option.map_some, hstandard]

/-! ## Nothing is printed -/

section Lines

variable (h : o.omits .print = true)

include h

theorem linesOf_of_omits (terms : List Term) : linesOf o terms = [] := if_pos h

theorem lines_printAll_of_omits (results : List (Except Failure (List Term))) :
    (printAll o results).lines = [] := by
  induction results with
  | nil => rfl
  | cons result results ih =>
    cases result with
    | error f => rfl
    | ok terms => simp [printAll, Output.after, linesOf_of_omits h, ih]

theorem lines_sequential_of_omits (paths : List String) :
    (sequential o R inputs paths).lines = [] := by
  induction paths generalizing inputs with
  | nil => rfl
  | cons path paths ih =>
    rw [sequential_cons]
    cases resultOf o R inputs path with
    | error f => rfl
    | ok terms => simp [Output.after, linesOf_of_omits h, ih]

theorem lines_parallel_of_omits (paths : List String) :
    (parallel o R inputs paths).lines = [] := by
  rw [parallel_eq]
  cases paths.find? isStandardInput with
  | none => exact lines_printAll_of_omits h _
  | some path =>
    cases inputs.standard with
    | error e => rfl
    | ok text => exact lines_printAll_of_omits h _

end Lines

theorem omits_print_of_some (o : Options) (s : Stage) :
    { o with omit? := some s }.omits .print = true := by
  cases s <;> rfl

/-! ## Runs that omit stages -/

theorem Output.eq_of_lines_eq_nil {out : Output} {failure : Option Failure}
    (hlines : out.lines = []) (hfailure : out.failure = failure) : out = ⟨[], failure⟩ := by
  cases out
  cases hlines
  cases hfailure
  rfl

theorem process_of_omits (h : o.omits .print = true) (hfiles : o.files = o'.files)
    (hjobs : o.jobs? = o'.jobs?) :
    process o R inputs = ⟨[], (process o' R inputs).failure⟩ := by
  unfold process
  rw [hfiles, hjobs]
  split
  · rfl
  split
  · exact Output.eq_of_lines_eq_nil (lines_parallel_of_omits h _) (failure_parallel _)
  · exact Output.eq_of_lines_eq_nil (lines_sequential_of_omits h _) (failure_sequential _)

theorem processFiles_of_omits {reg : Registry} (h : o.omits .print = true)
    (hrules : compileRules reg o inputs = compileRules reg o' inputs)
    (hfiles : o.files = o'.files) (hjobs : o.jobs? = o'.jobs?) :
    processFiles reg o inputs = ⟨[], (processFiles reg o' inputs).failure⟩ := by
  cases hcompiled : (compileRules reg o inputs).run.value with
  | error f =>
    rw [processFiles_of_error hcompiled, processFiles_of_error (hrules ▸ hcompiled)]
    rfl
  | ok compiled =>
    rw [processFiles_of_ok hcompiled, processFiles_of_ok (hrules ▸ hcompiled)]
    exact process_of_omits h hfiles hjobs

theorem Result.ofOutput_of_lines_eq_nil (out : Output) :
    Result.ofOutput ⟨[], out.failure⟩ = { Result.ofOutput out with stdout := "" } := by
  obtain ⟨lines, _ | f⟩ := out <;> rfl

/-- **Omitting stages.** Whichever stage is omitted, and in either mode, processing prints nothing
and ends with the same failure as processing with all stages, or with none if that ends with none.
So a run of the command that omits a stage has the same exit code and the same errors, and prints
nothing else. -/
theorem process_omit (reg : Registry) (o : Options) (R : Ruleset) (inputs : Inputs) (s : Stage) :
    process { o with omit? := some s } R inputs =
        ⟨[], (process { o with omit? := none } R inputs).failure⟩ ∧
      Result.ofOutput (processFiles reg { o with omit? := some s } inputs) =
        { Result.ofOutput (processFiles reg { o with omit? := none } inputs) with
          stdout := "" } := by
  have homits := omits_print_of_some o s
  refine ⟨process_of_omits homits rfl rfl, ?_⟩
  have hfiles : processFiles reg { o with omit? := some s } inputs =
      ⟨[], (processFiles reg { o with omit? := none } inputs).failure⟩ :=
    processFiles_of_omits homits rfl rfl rfl
  rw [hfiles]
  exact Result.ofOutput_of_lines_eq_nil _

end TermRules.Command
