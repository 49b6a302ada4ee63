import Mathlib.Logic.Relation
import TermRules.Proofs.Command.Processing

/-!
# Which result a path gets

Parallel processing has the results for the files at hand before it prints the first. It then goes
over the paths: one that names the standard input takes the result for the standard input, any other
takes the next of the results for files (`takeResult`), and nothing but their order tells to which
path a result belongs.

We look at this loop state by state (`Printing`, `Step`). Whenever it comes to a path, the results
left are those for the files ahead (`Paired`): a turn keeps this (`Paired.step`), so it holds
throughout (`Paired.of_reached`). Hence each path takes the result for itself, none finds no result,
and none is left in the end (`process_pairs`).
-/

namespace TermRules.Command

variable {o : Options} {R : Ruleset} {inputs : Inputs}

/-! ## One turn -/

section Turns

variable {α β : Type}

/-- The result that a path takes, and the results that are left for the paths after it. -/
def takeResult (standard : Option α) (left : List α) (path : String) : Option α × List α :=
  match standard, isStandardInput path with
  | some result, true => (some result, left)
  | _, _ => (left.head?, left.tail)

theorem distribute_cons (standard : Option α) (left : List α) (path : String)
    (paths : List String) :
    distribute standard left (path :: paths) =
      let turn := takeResult standard left path
      let rest := distribute standard turn.2 paths
      (turn.1 :: rest.1, rest.2) := by
  cases standard with
  | none => rfl
  | some result => cases hpath : isStandardInput path <;> simp [distribute, takeResult, hpath]

/-- A path takes its result without a look at it. -/
theorem takeResult_map (f : α → β) (standard : Option α) (left : List α) (path : String) :
    takeResult (standard.map f) (left.map f) path =
      ((takeResult standard left path).1.map f, (takeResult standard left path).2.map f) := by
  cases standard with
  | none => simp [takeResult]
  | some result => cases hpath : isStandardInput path <;> simp [takeResult, hpath]

/-- The results are given to the paths without a look at them. -/
theorem distribute_map (f : α → β) (standard : Option α) (left : List α) (paths : List String) :
    distribute (standard.map f) (left.map f) paths =
      ((distribute standard left paths).1.map (Option.map f),
        (distribute standard left paths).2.map f) := by
  induction paths generalizing left with
  | nil => cases standard <;> rfl
  | cons path paths ih => simp only [distribute_cons, takeResult_map, ih, List.map_cons]

end Turns

/-- The result for the standard input, if a file names it. -/
def standardResult (o : Options) (R : Ruleset) (inputs : Inputs) :
    Option (Except Failure (List Term)) :=
  (o.files.find? isStandardInput).map fun path => termsOfInput o R path inputs.standard

theorem fileResults_cons_of_standardInput {path : String} (h : isStandardInput path = true)
    (paths : List String) :
    fileResults o R inputs (path :: paths) = fileResults o R inputs paths := by
  simp [fileResults_eq, h]

theorem fileResults_cons_of_file {path : String} (h : isStandardInput path = false)
    (paths : List String) :
    fileResults o R inputs (path :: paths) =
      resultOf o R inputs path :: fileResults o R inputs paths := by
  simp [fileResults_eq, h, resultOf_file h]

/-- A path takes the result for itself, as long as those for the files from there on are left. -/
theorem takeResult_fileResults (honce : o.files.countP isStandardInput ≤ 1) {path : String}
    (hmem : path ∈ o.files) (ahead : List String) :
    takeResult (standardResult o R inputs) (fileResults o R inputs (path :: ahead)) path =
      (some (resultOf o R inputs path), fileResults o R inputs ahead) := by
  cases hpath : isStandardInput path with
  | false =>
    rw [fileResults_cons_of_file hpath]
    cases standardResult o R inputs <;> simp [takeResult, hpath]
  | true =>
    -- it is the one path that names the standard input
    have hfind : o.files.find? isStandardInput = some path := by
      cases hfind : o.files.find? isStandardInput with
      | none => exact absurd hpath (List.find?_eq_none.mp hfind path hmem)
      | some first =>
        have hfirst := List.mem_filter.mpr ⟨List.mem_of_find?_eq_some hfind, List.find?_some hfind⟩
        rw [eq_of_isStandardInput honce hfirst (List.mem_filter.mpr ⟨hmem, hpath⟩)]
    have hstandard : standardResult o R inputs = some (resultOf o R inputs path) := by
      rw [standardResult, hfind, resultOf_standardInput hpath]
      rfl
    rw [fileResults_cons_of_standardInput hpath, hstandard]
    simp [takeResult, hpath]

/-! ## The loop -/

/-- Where the loop over the paths stands. -/
structure Printing where
  /-- The paths that it has not come to. -/
  ahead : List String
  /-- The results for files that no path has taken. -/
  left : List (Except Failure (List Term))
  /-- The lines that it has printed. -/
  printed : List String

namespace Printing

/-- All files are ahead, and the results for them are left. -/
def start (o : Options) (R : Ruleset) (inputs : Inputs) : Printing :=
  ⟨o.files, fileResults o R inputs o.files, []⟩

/-- What is printed in all if the loop goes on from here. -/
def output (o : Options) (R : Ruleset) (inputs : Inputs) (s : Printing) : Output :=
  (printPaths o (standardResult o R inputs) s.left s.ahead).after s.printed

end Printing

/-- A turn of the loop that does not fail: the first of the paths ahead takes its result, or else
has no terms, and the terms are printed. -/
inductive Step (o : Options) (R : Ruleset) (inputs : Inputs) : Printing → Printing → Prop
  | turn {path : String} {ahead printed : List String}
      {left left' : List (Except Failure (List Term))}
      {result : Option (Except Failure (List Term))} {terms : List Term}
      (htake : takeResult (standardResult o R inputs) left path = (result, left'))
      (hterms : result.getD (.ok []) = .ok terms) :
      Step o R inputs ⟨path :: ahead, left, printed⟩ ⟨ahead, left', printed ++ linesOf o terms⟩

/-- The states that the loop comes to. -/
def Reached (o : Options) (R : Ruleset) (inputs : Inputs) : Printing → Prop :=
  Relation.ReflTransGen (Step o R inputs) (.start o R inputs)

theorem printPaths_cons (standard : Option (Except Failure (List Term)))
    (left : List (Except Failure (List Term))) (path : String) (paths : List String) :
    printPaths o standard left (path :: paths) =
      match (takeResult standard left path).1.getD (.ok []) with
      | .error f => .fail f
      | .ok terms =>
        (printPaths o standard (takeResult standard left path).2 paths).after
          (linesOf o terms) := by
  simp only [printPaths, distribute_cons, List.map_cons]
  cases (takeResult standard left path).1.getD (.ok []) <;> rfl

theorem Output.after_after (lines lines' : List String) (out : Output) :
    (out.after lines').after lines = out.after (lines ++ lines') := by
  simp [after]

/-- A turn does not change what is printed in all. -/
theorem Step.output_eq {s s' : Printing} (h : Step o R inputs s s') :
    s'.output o R inputs = s.output o R inputs := by
  obtain ⟨htake, hterms⟩ := h
  simp only [Printing.output, printPaths_cons, htake, hterms, Output.after_after]

/-- The loop prints all that parallel processing prints, if the standard input can be read where it
is named. -/
theorem output_start
    (hread : ∀ p ∈ o.files, isStandardInput p = true → ∃ text, inputs.standard = .ok text) :
    (Printing.start o R inputs).output o R inputs = parallel o R inputs o.files := by
  rw [parallel_eq]
  unfold Printing.output Printing.start standardResult
  cases hfind : o.files.find? isStandardInput with
  | none => rfl
  | some path =>
    obtain ⟨text, htext⟩ := hread path (List.mem_of_find?_eq_some hfind) (List.find?_some hfind)
    simp only [htext]
    rfl

/-! ## The invariant -/

/-- What holds whenever the loop comes to the next path. -/
structure Paired (o : Options) (R : Ruleset) (inputs : Inputs) (s : Printing) : Prop where
  ahead : s.ahead <:+ o.files
  left : s.left = fileResults o R inputs s.ahead
  output : s.output o R inputs = parallel o R inputs o.files

section Invariant

variable (honce : o.files.countP isStandardInput ≤ 1)

include honce

/-- The path that the loop comes to takes the result for itself. -/
theorem Paired.takeResult_eq {path : String} {ahead printed : List String}
    {left : List (Except Failure (List Term))}
    (h : Paired o R inputs ⟨path :: ahead, left, printed⟩) :
    takeResult (standardResult o R inputs) left path =
      (some (resultOf o R inputs path), fileResults o R inputs ahead) := by
  rw [show left = _ from h.left]
  exact takeResult_fileResults honce (h.ahead.subset List.mem_cons_self) ahead

theorem Paired.step {s s' : Printing} (h : Paired o R inputs s) (hstep : Step o R inputs s s') :
    Paired o R inputs s' := by
  have houtput := hstep.output_eq
  obtain ⟨htake, hterms⟩ := hstep
  rw [h.takeResult_eq honce] at htake
  cases htake
  exact ⟨(List.suffix_cons ..).trans h.ahead, rfl, houtput.trans h.output⟩

/-- The loop goes on after a path whose result consists of terms. -/
theorem Paired.exists_step {path : String} {ahead printed : List String}
    {left : List (Except Failure (List Term))}
    (h : Paired o R inputs ⟨path :: ahead, left, printed⟩)
    {terms : List Term} (hterms : resultOf o R inputs path = .ok terms) :
    Step o R inputs ⟨path :: ahead, left, printed⟩
      ⟨ahead, fileResults o R inputs ahead, printed ++ linesOf o terms⟩ :=
  .turn (h.takeResult_eq honce) hterms

/-- The loop ends at a path whose result is a failure. -/
theorem Paired.eq_of_error {path : String} {ahead printed : List String}
    {left : List (Except Failure (List Term))}
    (h : Paired o R inputs ⟨path :: ahead, left, printed⟩)
    {f : Failure} (hf : resultOf o R inputs path = .error f) :
    parallel o R inputs o.files = ⟨printed, some f⟩ := by
  rw [← h.output, Printing.output, printPaths_cons, h.takeResult_eq honce, hf]
  simp [Output.after, Output.fail]

/-- The loop comes to its end, unless a path fails. -/
theorem Paired.exists_end {s : Printing} (h : Paired o R inputs s)
    (hnone : (parallel o R inputs o.files).failure = none) :
    ∃ left printed, Relation.ReflTransGen (Step o R inputs) s ⟨[], left, printed⟩ := by
  obtain ⟨ahead, left, printed⟩ := s
  -- by induction on the paths ahead, of which every turn takes one and keeps the invariant
  induction ahead generalizing left printed with
  | nil => exact ⟨left, printed, .refl⟩
  | cons path ahead ih =>
    cases hresult : resultOf o R inputs path with
    | error f => simp [h.eq_of_error honce hresult] at hnone
    | ok terms =>
      have hstep := h.exists_step honce hresult
      obtain ⟨left', printed', hend⟩ := ih _ _ (h.step honce hstep)
      exact ⟨left', printed', hend.head hstep⟩

variable (hread : ∀ p ∈ o.files, isStandardInput p = true → ∃ text, inputs.standard = .ok text)

include hread

theorem Paired.of_reached {s : Printing} (h : Reached o R inputs s) : Paired o R inputs s := by
  induction h with
  | refl => exact ⟨List.suffix_rfl, rfl, output_start hread⟩
  | tail _ hstep ih => exact ih.step honce hstep

end Invariant

/-- At the end nothing is left, and all that is printed has been printed. -/
theorem Paired.of_end {left : List (Except Failure (List Term))} {printed : List String}
    (h : Paired o R inputs ⟨[], left, printed⟩) :
    left = [] ∧ parallel o R inputs o.files = ⟨printed, none⟩ := by
  refine ⟨h.left, h.output.symm.trans ?_⟩
  simp [Printing.output, printPaths, distribute, printAll, Output.after, Output.nothing]

/-- **Each path gets its own result.** Consider a run that works in parallel, and that names the
standard input once at most among its files, and only if it can be read.

The loop comes to the paths in the order of the files, and what it has printed is the beginning of
what the run prints. Whenever it comes to a path, there is a result to take, and this is the one
that the path has on its own. If it consists of terms, then the loop prints them and goes on with
the results for the files after the path. If it is a failure, then the run ends with it and prints
no more. When no path is ahead, no result is left. The loop comes to this end, unless the run fails.
-/
theorem process_pairs (R : Ruleset) (inputs : Inputs) {o : Options} (hjobs : o.jobs?.isSome = true)
    (honce : o.files.countP isStandardInput ≤ 1)
    (hread : ∀ p ∈ o.files, isStandardInput p = true → ∃ text, inputs.standard = .ok text) :
    (∀ ahead left printed, Reached o R inputs ⟨ahead, left, printed⟩ →
      ahead <:+ o.files ∧
      process o R inputs =
        (printPaths o (standardResult o R inputs) left ahead).after printed ∧
      (∀ path after, ahead = path :: after →
        takeResult (standardResult o R inputs) left path =
            (some (resultOf o R inputs path), fileResults o R inputs after) ∧
          (∀ terms, resultOf o R inputs path = .ok terms →
            Reached o R inputs ⟨after, fileResults o R inputs after, printed ++ linesOf o terms⟩) ∧
          (∀ f, resultOf o R inputs path = .error f →
            process o R inputs = ⟨printed, some f⟩)) ∧
      (ahead = [] → left = [] ∧ process o R inputs = ⟨printed, none⟩)) ∧
    ((process o R inputs).failure = none →
      ∃ left printed, Reached o R inputs ⟨[], left, printed⟩) := by
  have hprocess : process o R inputs = parallel o R inputs o.files := by
    rw [process_of_once honce, if_pos hjobs]
  rw [hprocess]
  refine ⟨fun ahead left printed hreached => ?_, fun hnone => ?_⟩
  · have hpaired := Paired.of_reached honce hread hreached
    refine ⟨hpaired.ahead, hpaired.output.symm, ?_, ?_⟩
    · rintro path after rfl
      refine ⟨hpaired.takeResult_eq honce, fun terms hterms => ?_, fun f hf => ?_⟩
      · exact hreached.tail (hpaired.exists_step honce hterms)
      · exact hpaired.eq_of_error honce hf
    · rintro rfl
      exact hpaired.of_end
  · exact (Paired.of_reached honce hread .refl).exists_end honce hnone

/-- The options that name the standard input between two files, in parallel. -/
def threeFilesAtOnce : Options :=
  { Options.initial with jobs? := some none, files := ["a.bml", "-", "c.bml"] }

/-- Inputs that hold a block each. -/
def inputsOfBlocks : Inputs :=
  ⟨fun path => .ok (if path = "a.bml" then "(blk a)" else "(blk c)"), .ok "(blk b)"⟩

/-- The standard input leaves the result for the file after it, and each block is printed in its
turn. -/
theorem process_threeFilesAtOnce :
    Reached threeFilesAtOnce .empty inputsOfBlocks
        ⟨["c.bml"], fileResults threeFilesAtOnce .empty inputsOfBlocks ["c.bml"],
          ["(blk a)", "(blk b)"]⟩ ∧
      process threeFilesAtOnce .empty inputsOfBlocks =
        ⟨["(blk a)", "(blk b)", "(blk c)"], none⟩ := by
  let block (name : String) : Term := ⟨.block, ⟨name, .empty, ()⟩, ⟨[], [], []⟩⟩
  have hresult {path name : String}
      (hholds : Holds inputsOfBlocks path [block name]) :
      resultOf threeFilesAtOnce .empty inputsOfBlocks path = .ok [block name] :=
    (resultOf_eq_ok_iff rfl).mpr ⟨_, hholds, rfl⟩
  have ha : Holds inputsOfBlocks "a.bml" [block "a"] := ⟨_, rfl, by cbv⟩
  have hb : Holds inputsOfBlocks "-" [block "b"] := ⟨_, rfl, by cbv⟩
  have hc : Holds inputsOfBlocks "c.bml" [block "c"] := ⟨_, rfl, by cbv⟩
  have hlines : linesOf threeFilesAtOnce [block "a"] = ["(blk a)"] ∧
      linesOf threeFilesAtOnce [block "b"] = ["(blk b)"] ∧
      linesOf threeFilesAtOnce [block "c"] = ["(blk c)"] := by
    refine ⟨?_, ?_, ?_⟩ <;> cbv
  obtain ⟨hloop, -⟩ := process_pairs .empty inputsOfBlocks (o := threeFilesAtOnce) rfl (by cbv)
    fun _ _ _ => ⟨_, rfl⟩
  obtain ⟨-, -, hturn, -⟩ := hloop _ _ _ .refl
  have hfirst := (hturn "a.bml" _ rfl).2.1 _ (hresult ha)
  obtain ⟨-, -, hturn, -⟩ := hloop _ _ _ hfirst
  have hsecond := (hturn "-" _ rfl).2.1 _ (hresult hb)
  obtain ⟨-, -, hturn, -⟩ := hloop _ _ _ hsecond
  have hthird := (hturn "c.bml" _ rfl).2.1 _ (hresult hc)
  obtain ⟨-, -, -, hend⟩ := hloop _ _ _ hthird
  rw [hlines.1, hlines.2.1] at hsecond
  rw [hlines.1, hlines.2.1, hlines.2.2] at hend
  exact ⟨hsecond, (hend rfl).2⟩

end TermRules.Command
