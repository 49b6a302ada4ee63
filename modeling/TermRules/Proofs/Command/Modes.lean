import Mathlib
import TermRules.Proofs.Command.Results

/-!
# Sequential and parallel processing

Processing in either mode prints the results for the paths in their order, where the result for a
path depends on what there is to be read at the start (`resultOf`). Sequential processing does so
because the standard input is named once (`sequential_eq_printAll`), and parallel processing because
each path gets its own result (`distribute_eq`, `parallel_eq_printAll`).

The modes differ in one thing. Parallel processing reads the standard input before it prints
anything, and if that fails nothing is printed (`parallel_of_unreadable`), whereas sequential
processing comes to the standard input only after the paths before it (`sequential_of_unreadable`).
So the modes agree unless the standard input cannot be read and one of these paths gives output or
fails: `process_parallel_eq_sequential_iff`.
-/

namespace TermRules.Command

/-! ## Outputs one after the other -/

namespace Output

/-- An output, followed by another one unless it ends with a failure. -/
def andThen (out next : Output) : Output :=
  if out.failure.isSome then out else next.after out.lines

theorem nothing_andThen (out : Output) : nothing.andThen out = out := rfl

theorem after_andThen (lines : List String) (out next : Output) :
    (out.after lines).andThen next = (out.andThen next).after lines := by
  obtain ⟨rest, failure⟩ := out
  cases failure with
  | none => simp [andThen, after]
  | some f => rfl

/-- An output before a failure that it does not end with shows unless it is nothing. -/
theorem andThen_fail_eq_fail_iff {out : Output} {f : Failure} (h : out.failure ≠ some f) :
    out.andThen (fail f) = fail f ↔ out = nothing := by
  constructor
  · intro heq
    obtain ⟨lines, failure⟩ := out
    cases failure with
    | none =>
      have hlines : lines ++ [] = [] := congrArg Output.lines heq
      rw [List.append_nil] at hlines
      rw [hlines]
      rfl
    | some g => exact absurd (congrArg Output.failure heq) h
  · rintro rfl
    exact nothing_andThen (fail f)

end Output

theorem printAll_append (o : Options) (xs ys : List (Except Failure (List Term))) :
    printAll o (xs ++ ys) = (printAll o xs).andThen (printAll o ys) := by
  induction xs with
  | nil => rfl
  | cons x xs ih =>
    cases x with
    | error f => rfl
    | ok terms => rw [List.cons_append, printAll, printAll, ih, Output.after_andThen]

theorem mem_of_failure_printAll {o : Options} {xs : List (Except Failure (List Term))} {f : Failure}
    (h : (printAll o xs).failure = some f) : .error f ∈ xs := by
  induction xs with
  | nil => cases h
  | cons x xs ih =>
    cases x with
    | error g =>
      cases h
      exact List.mem_cons_self
    | ok terms => exact List.mem_cons_of_mem _ (ih h)

variable {o : Options} {R : Ruleset} {inputs : Inputs}

/-! ## Paths that name the standard input -/

theorem isStandardInput_eq_false {paths : List String}
    (h : paths.countP isStandardInput = 0) : ∀ p ∈ paths, isStandardInput p = false := by
  simpa using h

theorem eq_of_isStandardInput {paths : List String} (h : paths.countP isStandardInput ≤ 1)
    {p q : String} (hp : p ∈ paths.filter isStandardInput)
    (hq : q ∈ paths.filter isStandardInput) : p = q := by
  rw [List.countP_eq_length_filter] at h
  match hfilter : paths.filter isStandardInput, h, hp, hq with
  | [r], _, hp, hq => rw [List.mem_singleton.mp hp, List.mem_singleton.mp hq]

/-! ## Sequential processing -/

theorem sequential_cons (path : String) (paths : List String) :
    sequential o R inputs (path :: paths) =
      match resultOf o R inputs path with
      | .error f => .fail f
      | .ok terms => (sequential o R (inputs.read path).2 paths).after (linesOf o terms) := by
  simp only [sequential, value_textOf_termsInTurn]
  rfl

/-- Sequential processing prints the results for the paths in order. -/
theorem sequential_eq_printAll {paths : List String}
    (h : paths.countP isStandardInput ≤ 1) :
    sequential o R inputs paths = printAll o (paths.map (resultOf o R inputs)) := by
  induction paths generalizing inputs with
  | nil => rfl
  | cons path paths ih =>
    have hrest : sequential o R (inputs.read path).2 paths =
        printAll o (paths.map (resultOf o R inputs)) := by
      cases hpath : isStandardInput path with
      | false =>
        rw [List.countP_cons_of_neg (by simp [hpath])] at h
        have hread : (inputs.read path).2 = inputs := by simp [Inputs.read, hpath]
        rw [hread]
        exact ih h
      | true =>
        rw [List.countP_cons_of_pos hpath] at h
        have hcount : paths.countP isStandardInput = 0 := by omega
        rw [ih (by omega)]
        -- the standard input is used up now, but no later path names it
        refine congrArg (printAll o) (List.map_congr_left fun p hp => ?_)
        have hfile := isStandardInput_eq_false hcount p hp
        rw [resultOf_file hfile, resultOf_file hfile]
        simp [Inputs.read, hpath]
    rw [sequential_cons, List.map_cons]
    cases resultOf o R inputs path with
    | error f => rfl
    | ok terms => rw [printAll, hrest]

theorem sequential_jobs (jobs? : Option (Option Nat)) (paths : List String) :
    sequential { o with jobs? } R inputs paths = sequential o R inputs paths := by
  induction paths generalizing inputs with
  | nil => rfl
  | cons path paths ih =>
    rw [sequential_cons, sequential_cons, ih]
    rfl

/-! ## Parallel processing -/

theorem fileResults_eq (paths : List String) :
    fileResults o R inputs paths =
      (paths.filter fun path => !isStandardInput path).map fun path =>
        termsOfInput o R path (inputs.file path) :=
  List.map_congr_left fun _ _ => value_textOf_termsAtOnce _

theorem parallel_eq (paths : List String) :
    parallel o R inputs paths =
      match paths.find? isStandardInput with
      | none => printPaths o none (fileResults o R inputs paths) paths
      | some path =>
        match inputs.standard with
        | .error e => .fail ⟨some path, .input e⟩
        | .ok text =>
          printPaths o (some (termsOf o R path text)) (fileResults o R inputs paths) paths := by
  simp only [parallel, value_termsAtOnce]
  cases inputs.standard <;> rfl

/-- Each path gets its own result, and all results are used up. -/
theorem distribute_eq {α : Type} {standard : Option α} (f : String → α) {paths : List String}
    (h : standard = none → ∀ p ∈ paths, isStandardInput p = false) :
    distribute standard ((paths.filter fun p => !isStandardInput p).map f) paths =
      (paths.map fun p => if isStandardInput p then standard else some (f p), []) := by
  induction paths with
  | nil => cases standard <;> rfl
  | cons path paths ih =>
    have htail := ih fun hnone p hp => h hnone p (List.mem_cons_of_mem path hp)
    cases hpath : isStandardInput path with
    | false => cases standard <;> simp [distribute, hpath, htail]
    | true =>
      cases standard with
      | none => simp [h rfl path List.mem_cons_self] at hpath
      | some result => simp [distribute, hpath, htail]

theorem printPaths_eq_printAll {standard : Option (Except Failure (List Term))}
    {paths : List String}
    (h : ∀ p ∈ paths, isStandardInput p = true → standard = some (resultOf o R inputs p)) :
    printPaths o standard (fileResults o R inputs paths) paths =
      printAll o (paths.map (resultOf o R inputs)) := by
  have hnone : standard = none → ∀ p ∈ paths, isStandardInput p = false := by
    rintro rfl p hp
    cases hpath : isStandardInput p with
    | false => rfl
    | true => cases h p hp hpath
  rw [printPaths, fileResults_eq, distribute_eq _ hnone, List.map_map]
  refine congrArg (printAll o) (List.map_congr_left fun p hp => ?_)
  cases hpath : isStandardInput p with
  | false => simp [hpath, resultOf_file hpath]
  | true => simp [hpath, h p hp hpath]

/-- Parallel processing prints the results for the paths in order, if the standard input can be
read where it is named. -/
theorem parallel_eq_printAll {paths : List String} (h : paths.countP isStandardInput ≤ 1)
    (hread : ∀ p ∈ paths, isStandardInput p = true → ∃ text, inputs.standard = .ok text) :
    parallel o R inputs paths = printAll o (paths.map (resultOf o R inputs)) := by
  rw [parallel_eq]
  cases hfind : paths.find? isStandardInput with
  | none =>
    apply printPaths_eq_printAll
    intro p hp hpath
    exact absurd hpath (List.find?_eq_none.mp hfind p hp)
  | some path =>
    have hpath := List.find?_some hfind
    have hmem := List.mem_of_find?_eq_some hfind
    obtain ⟨text, htext⟩ := hread path hmem hpath
    simp only [htext]
    apply printPaths_eq_printAll
    intro p hp hp'
    have heq : p = path := eq_of_isStandardInput h (List.mem_filter.mpr ⟨hp, hp'⟩)
      (List.mem_filter.mpr ⟨hmem, hpath⟩)
    rw [heq, resultOf_standardInput hpath, htext]
    rfl

theorem printAll_jobs (jobs? : Option (Option Nat)) (xs : List (Except Failure (List Term))) :
    printAll { o with jobs? } xs = printAll o xs := by
  induction xs with
  | nil => rfl
  | cons x xs ih =>
    cases x with
    | error f => rfl
    | ok terms =>
      rw [printAll, printAll, ih]
      rfl

theorem parallel_jobs (jobs? : Option (Option Nat)) (paths : List String) :
    parallel { o with jobs? } R inputs paths = parallel o R inputs paths := by
  simp only [parallel, printPaths, printAll_jobs]
  rfl

/-! ## Where the modes differ -/

section Unreadable

variable {before after : List String} {path : String}
variable (hpath : isStandardInput path = true)
variable (hothers : ∀ p ∈ before ++ after, isStandardInput p = false)

include hothers

theorem countP_before : before.countP isStandardInput = 0 := by
  simpa using fun p hp => hothers p (List.mem_append_left after hp)

theorem countP_after : after.countP isStandardInput = 0 := by
  simpa using fun p hp => hothers p (List.mem_append_right before hp)

include hpath

theorem countP_files : (before ++ path :: after).countP isStandardInput = 1 := by
  rw [List.countP_append, List.countP_cons_of_pos hpath, countP_before hothers,
    countP_after hothers]

/-- What arises in the paths before the standard input bears another name. -/
theorem failure_sequential_before (cause : Cause) :
    (sequential o R inputs before).failure ≠ some ⟨some path, cause⟩ := by
  intro hfailure
  rw [sequential_eq_printAll (Nat.le_of_lt_succ (by simp [countP_before hothers]))] at hfailure
  obtain ⟨p, hp, hresult⟩ := List.mem_map.mp (mem_of_failure_printAll hfailure)
  have heq : path = p := Option.some.inj (file?_of_resultOf hresult)
  rw [heq, hothers p (List.mem_append_left after hp)] at hpath
  cases hpath

variable {e : InputError} (he : inputs.standard = .error e)

include he

/-- Parallel processing prints nothing if the standard input cannot be read. -/
theorem parallel_of_unreadable :
    parallel o R inputs (before ++ path :: after) = .fail ⟨some path, .input e⟩ := by
  have hfind : (before ++ path :: after).find? isStandardInput = some path := by
    rw [List.find?_eq_some_iff_append]
    refine ⟨hpath, before, after, rfl, fun p hp => ?_⟩
    simp [hothers p (List.mem_append_left after hp)]
  simp only [parallel_eq, hfind, he]

/-- Sequential processing fails at the standard input, if it does not fail before. -/
theorem sequential_of_unreadable :
    sequential o R inputs (before ++ path :: after) =
      (sequential o R inputs before).andThen (.fail ⟨some path, .input e⟩) := by
  have hbefore := countP_before hothers
  have hfiles := countP_files hpath hothers
  rw [sequential_eq_printAll (by omega), sequential_eq_printAll (by omega), List.map_append,
    printAll_append, List.map_cons, resultOf_standardInput hpath, he]
  rfl

theorem parallel_eq_sequential_iff :
    parallel o R inputs (before ++ path :: after) =
        sequential o R inputs (before ++ path :: after) ↔
      sequential o R inputs before = .nothing := by
  rw [parallel_of_unreadable hpath hothers he, sequential_of_unreadable hpath hothers he, eq_comm]
  exact Output.andThen_fail_eq_fail_iff (failure_sequential_before hpath hothers (.input e))

end Unreadable

theorem parallel_eq_sequential {paths : List String} (h : paths.countP isStandardInput ≤ 1)
    (hread : ∀ p ∈ paths, isStandardInput p = true → ∃ text, inputs.standard = .ok text) :
    parallel o R inputs paths = sequential o R inputs paths := by
  rw [parallel_eq_printAll h hread, sequential_eq_printAll h]

theorem exists_before_standardInput {paths : List String} {path : String}
    (h : paths.countP isStandardInput ≤ 1) (hfind : paths.find? isStandardInput = some path) :
    ∃ before after, paths = before ++ path :: after ∧ isStandardInput path = true ∧
      ∀ p ∈ before ++ after, isStandardInput p = false := by
  obtain ⟨hpath, before, after, rfl, -⟩ := List.find?_eq_some_iff_append.mp hfind
  refine ⟨before, after, rfl, hpath, isStandardInput_eq_false ?_⟩
  rw [List.countP_append, List.countP_cons_of_pos hpath] at h
  rw [List.countP_append]
  omega

theorem parallel_eq_sequential_of_nothing {paths : List String}
    (h : paths.countP isStandardInput ≤ 1)
    (hbefore : ∀ before path after e, paths = before ++ path :: after →
      isStandardInput path = true → (∀ p ∈ before ++ after, isStandardInput p = false) →
      inputs.standard = .error e → sequential o R inputs before = .nothing) :
    parallel o R inputs paths = sequential o R inputs paths := by
  cases hstandard : inputs.standard with
  | ok text => exact parallel_eq_sequential h fun _ _ _ => ⟨text, hstandard⟩
  | error e =>
    cases hfind : paths.find? isStandardInput with
    | none =>
      refine parallel_eq_sequential h fun p hp hpath => ?_
      exact absurd hpath (List.find?_eq_none.mp hfind p hp)
    | some path =>
      obtain ⟨before, after, rfl, hpath, hothers⟩ := exists_before_standardInput h hfind
      exact (parallel_eq_sequential_iff hpath hothers hstandard).mpr
        (hbefore before path after e rfl hpath hothers hstandard)

/-- **Both modes do the same, but for one case.** Whether to work in parallel makes no difference to
what is printed and to the failure, except if the standard input is named once, cannot be read, and
comes after paths that give output or fail. -/
theorem process_parallel_eq_sequential_iff (o : Options) (R : Ruleset) (inputs : Inputs)
    (jobs : Option Nat) :
    process { o with jobs? := some jobs } R inputs = process { o with jobs? := none } R inputs ↔
      ∀ before path after e, o.files = before ++ path :: after → isStandardInput path = true →
        (∀ p ∈ before ++ after, isStandardInput p = false) → inputs.standard = .error e →
        sequential o R inputs before = .nothing := by
  by_cases hcount : 1 < o.files.countP isStandardInput
  · have hboth : process { o with jobs? := some jobs } R inputs =
        process { o with jobs? := none } R inputs := by simp [process, hcount]
    refine iff_of_true hboth ?_
    intro before path after e hfiles hpath hothers
    rw [hfiles, countP_files hpath hothers] at hcount
    omega
  · have hparallel : process { o with jobs? := some jobs } R inputs =
        parallel o R inputs o.files := by simp [process, hcount, parallel_jobs]
    have hsequential : process { o with jobs? := none } R inputs =
        sequential o R inputs o.files := by simp [process, hcount, sequential_jobs]
    rw [hparallel, hsequential]
    constructor
    · intro heq before path after e hfiles hpath hothers he
      rw [hfiles] at heq
      exact (parallel_eq_sequential_iff hpath hothers he).mp heq
    · exact parallel_eq_sequential_of_nothing (Nat.le_of_not_lt hcount)

/-- The options that name a file and the standard input. -/
def twoFiles : Options := { Options.initial with files := ["prog.bml", "-"] }

/-- Files that hold a block, and a standard input that is not text. -/
def unreadableInputs : Inputs := ⟨fun _ => .ok "(blk b)", .error .notText⟩

-- the block in the file before the standard input is not printed
example : process { twoFiles with jobs? := some none } .empty unreadableInputs =
    .fail ⟨some "-", .input .notText⟩ := by cbv

end TermRules.Command
