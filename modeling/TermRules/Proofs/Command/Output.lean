import TermRules.Proofs.Application.Nodewise
import TermRules.Proofs.Command.Processing
import TermRules.Proofs.Sexp.Lines
import TermRules.Proofs.Term.RoundTrip

/-!
# What a run prints

A run that succeeds has read terms from each of its files (`Holds`) and prints them, rewritten, one
on each line. The lines read back as the rewritten terms, and a run without rules on a file with
these lines prints the same lines: `stdout_of_run`.
-/

namespace TermRules

/-! ## Terms one on each line -/

namespace Term

/-- The text of some terms, each on a line. -/
def lines (ts : List Term) : String := String.join (ts.map fun t => t.print ++ "\n")

theorem lines_eq (ts : List Term) : lines ts = Sexp.lines (ts.map toSexp) := by
  rw [lines, Sexp.lines, List.map_map]
  rfl

/-- Terms one on each line are read as these terms. -/
theorem readAll_lines (ts : List Term) : readAll (lines ts) = ts.map .ok := by
  have hdepth : ∀ x ∈ ts.map toSexp, x.depth ≤ Sexp.maxDepth := by
    intro x hx
    obtain ⟨t, -, rfl⟩ := List.mem_map.mp hx
    exact depth_toSexp_le t
  rw [readAll, lines_eq, Sexp.items_lines hdepth, List.map_map, List.map_map]
  exact List.map_congr_left fun t _ => ofSexp_toSexp t

theorem newline_notMem_print (t : Term) : '\n' ∉ t.print.toList := by
  rw [print, Sexp.print, String.toList_ofList]
  exact Sexp.newline_notMem_chars t.toSexp

theorem splitOn_lines (ts : List Term) :
    (lines ts).toList.splitOn '\n' = ts.map (fun t => t.print.toList) ++ [[]] := by
  rw [lines_eq, Sexp.toList_lines, Sexp.splitOn_linesChars, List.map_map]
  congr 1
  refine List.map_congr_left fun t _ => ?_
  rw [print, Sexp.print, String.toList_ofList]
  rfl

end Term

namespace Command

variable {o : Options} {R : Ruleset} {inputs rest : Inputs}

/-! ## Runs that succeed -/

theorem omits_transform_of_not_print (h : o.omits .print = false) :
    o.omits .transform = false := by
  unfold Options.omits at h ⊢
  cases ho : o.omit? with
  | none => rfl
  | some first =>
    rw [ho] at h
    cases first <;> cases h

theorem linesOf_eq (h : o.omits .print = false) (terms : List Term) :
    linesOf o terms = terms.map Term.print := by
  simp [linesOf, h]

section Printing

variable (hprint : o.omits .print = false)

include hprint

/-- If all files hold terms, then these are printed, rewritten. -/
theorem printAll_of_holds {files : List String} {terms : List (List Term)}
    (h : List.Forall₂ (Holds inputs) files terms) :
    printAll o (files.map (resultOf o R inputs)) =
      ⟨(terms.flatten.map R.transform).map Term.print, none⟩ := by
  induction h with
  | nil => rfl
  | cons hfile _ ih =>
    have hresult := (resultOf_eq_ok_iff (R := R) (omits_transform_of_not_print hprint)).mpr
      ⟨_, hfile, rfl⟩
    rw [List.map_cons, hresult, printAll, ih, linesOf_eq hprint, List.flatten_cons]
    simp [Output.after]

/-- If printing the results for files does not fail, then all files hold terms. -/
theorem exists_holds_of_printAll {files : List String}
    (h : (printAll o (files.map (resultOf o R inputs))).failure = none) :
    ∃ terms, List.Forall₂ (Holds inputs) files terms := by
  induction files with
  | nil => exact ⟨[], .nil⟩
  | cons path files ih =>
    rw [List.map_cons] at h
    cases hresult : resultOf o R inputs path with
    | error f =>
      rw [hresult] at h
      cases h
    | ok result =>
      rw [hresult] at h
      obtain ⟨first, hfirst, -⟩ :=
        (resultOf_eq_ok_iff (omits_transform_of_not_print hprint)).mp hresult
      obtain ⟨terms, hterms⟩ := ih h
      exact ⟨first :: terms, .cons hfirst hterms⟩

/-- If processing does not fail, then all files hold terms, and these are printed, rewritten. -/
theorem exists_holds_of_process (h : (process o R inputs).failure = none) :
    ∃ terms, List.Forall₂ (Holds inputs) o.files terms ∧
      process o R inputs = ⟨(terms.flatten.map R.transform).map Term.print, none⟩ := by
  by_cases honce : o.files.countP isStandardInput ≤ 1
  · rcases process_eq_printAll_or honce with heq | ⟨path, e, hfail⟩
    · rw [heq] at h ⊢
      obtain ⟨terms, hterms⟩ := exists_holds_of_printAll hprint h
      exact ⟨terms, hterms, printAll_of_holds hprint hterms⟩
    · rw [hfail] at h
      cases h
  · rw [process_of_twice (Nat.lt_of_not_le honce)] at h
    cases h

end Printing

/-! ## Runs without rules -/

/-- The options ask for nothing but to print the terms of one file. -/
structure Options.Echoes (o : Options) (path : String) : Prop where
  rules : o.rules = []
  ruleFiles : o.ruleFiles = []
  list : o.list = false
  print : o.omits .print = false
  files : o.files = [path]

theorem compileRules_of_echoes {reg : Registry} {path : String} (h : o.Echoes path) :
    (compileRules reg o inputs).run.value = .ok (.empty, inputs) := by
  rw [value_compileRules, h.rules, h.ruleFiles]
  rfl

theorem process_of_echoes {path : String} {terms : List Term} (h : o.Echoes path)
    (hterms : Holds inputs path terms) :
    process o .empty inputs = ⟨terms.map Term.print, none⟩ := by
  have honce : o.files.countP isStandardInput ≤ 1 := by
    rw [h.files]
    exact List.countP_le_length
  have hread : ∀ p ∈ o.files, isStandardInput p = true → ∃ text, inputs.standard = .ok text := by
    intro p hp hstandard
    rw [h.files] at hp
    obtain rfl := List.mem_singleton.mp hp
    obtain ⟨text, htext, -⟩ := hterms
    exact ⟨text, by simpa [Inputs.read, hstandard] using htext⟩
  rw [process_eq_printAll honce hread, h.files, printAll_of_holds h.print (.cons hterms .nil)]
  simp [Ruleset.transform_empty]

theorem ofOutput_map_print (terms : List Term) :
    Result.ofOutput ⟨terms.map Term.print, none⟩ = .ok (Term.lines terms) := by
  rw [Result.ofOutput, Term.lines, List.map_map]
  rfl

/-- A run without rules prints the terms of its file. -/
theorem runOptions_of_echoes {path : String} {terms : List Term} (h : o.Echoes path)
    (hterms : Holds inputs path terms) : runOptions o inputs = .ok (Term.lines terms) := by
  simp only [runOptions, h.list, Bool.false_eq_true, if_false]
  rw [processFiles_of_ok (compileRules_of_echoes h), process_of_echoes h hterms,
    ofOutput_map_print]

/-! ## All runs -/

theorem failure_eq_none_of_code {out : Output} (h : (Result.ofOutput out).code = 0) :
    out.failure = none := by
  unfold Result.ofOutput at h
  cases hfailure : out.failure with
  | none => rfl
  | some f => simp [hfailure] at h

/-- If a run prints and succeeds, then its files hold terms, and these are printed, rewritten. -/
theorem exists_holds_of_runOptions (hlist : o.list = false) (hprint : o.omits .print = false)
    (h : (runOptions o inputs).code = 0) :
    ∃ R rest terms, (compileRules .builtin o inputs).run.value = .ok (R, rest) ∧
      List.Forall₂ (Holds rest) o.files terms ∧
      runOptions o inputs = .ok (Term.lines (terms.flatten.map R.transform)) := by
  have hrun : runOptions o inputs = .ofOutput (processFiles .builtin o inputs) := by
    simp only [runOptions, hlist, Bool.false_eq_true, if_false]
  rw [hrun] at h ⊢
  have hsuccess := failure_eq_none_of_code h
  cases hrules : (compileRules .builtin o inputs).run.value with
  | error f =>
    rw [processFiles_of_error hrules] at hsuccess
    cases hsuccess
  | ok result =>
    obtain ⟨R, rest⟩ := result
    rw [processFiles_of_ok hrules] at hsuccess ⊢
    obtain ⟨terms, hterms, hprocess⟩ := exists_holds_of_process hprint hsuccess
    exact ⟨R, rest, terms, rfl, hterms, by rw [hprocess, ofOutput_map_print]⟩

/-- **What a run prints.** Let a run print terms and succeed. Then its files hold terms, and what is
printed has a line for each of these, in the order of the files and of the terms in them, namely the
written form of the rewritten term, which has no line feed in it. What is printed reads back as the
rewritten terms, and a run that has no rules and has this text for its only file prints the same. -/
theorem stdout_of_runOptions {o : Options} {inputs : Inputs} (hlist : o.list = false)
    (hprint : o.omits .print = false) (hcode : (runOptions o inputs).code = 0) :
    ∃ R rest terms, (compileRules .builtin o inputs).run.value = .ok (R, rest) ∧
      List.Forall₂ (Holds rest) o.files terms ∧
      let rewritten := terms.flatten.map R.transform
      (runOptions o inputs).stdout.toList.splitOn '\n' =
          rewritten.map (fun t => t.print.toList) ++ [[]] ∧
        (∀ t : Term, '\n' ∉ t.print.toList) ∧
        Term.readAll (runOptions o inputs).stdout = rewritten.map .ok ∧
        ∀ o' inputs' path, o'.Echoes path →
          (inputs'.read path).1 = .ok (runOptions o inputs).stdout →
            runOptions o' inputs' = .ok (runOptions o inputs).stdout := by
  obtain ⟨R, rest, terms, hrules, hterms, hrun⟩ := exists_holds_of_runOptions hlist hprint hcode
  refine ⟨R, rest, terms, hrules, hterms, ?_⟩
  rw [hrun]
  have hreadAll := Term.readAll_lines (terms.flatten.map R.transform)
  refine ⟨Term.splitOn_lines _, Term.newline_notMem_print, hreadAll, ?_⟩
  intro o' inputs' path hechoes htext
  exact runOptions_of_echoes hechoes ⟨_, htext, hreadAll⟩

/-- The options that name one file of terms. -/
def oneFile : Options := { Options.initial with files := ["prog.bml"] }

/-- Files that hold two blocks on one line, the first of which has a line feed in its name. -/
def lineFeedInputs : Inputs := ⟨fun _ => .ok "(blk \"a\\n\") (blk b)", .ok ""⟩

theorem stdout_of_runOptions_lineFeed :
    let stdout := (runOptions oneFile lineFeedInputs).stdout
    (oneFile.list = false ∧ oneFile.omits .print = false ∧
        (runOptions oneFile lineFeedInputs).code = 0) ∧
      stdout = "(blk \"a\\n\")\n(blk b)\n" ∧
      (∃ rewritten : List Term,
        stdout.toList.splitOn '\n' = rewritten.map (fun t => t.print.toList) ++ [[]] ∧
          Term.readAll stdout = rewritten.map .ok) ∧
      runOptions oneFile ⟨fun _ => .ok stdout, .ok ""⟩ = .ok stdout := by
  intro stdout
  have hechoes : oneFile.Echoes "prog.bml" := ⟨rfl, rfl, rfl, rfl, rfl⟩
  let blocks : List Term :=
    [⟨.block, ⟨"a\n", .empty, ()⟩, ⟨[], [], []⟩⟩, ⟨.block, ⟨"b", .empty, ()⟩, ⟨[], [], []⟩⟩]
  have hblocks : Holds lineFeedInputs "prog.bml" blocks := ⟨_, rfl, by cbv⟩
  have hlines : Term.lines blocks = "(blk \"a\\n\")\n(blk b)\n" := by cbv
  have hrun : runOptions oneFile lineFeedInputs = .ok (Term.lines blocks) :=
    runOptions_of_echoes hechoes hblocks
  have hcode : (runOptions oneFile lineFeedInputs).code = 0 := by rw [hrun]; rfl
  obtain ⟨R, rest, terms, -, -, hsplit, -, hread, hagain⟩ := stdout_of_runOptions rfl rfl hcode
  refine ⟨⟨rfl, rfl, hcode⟩, ?_, ⟨_, hsplit, hread⟩, hagain _ _ _ hechoes rfl⟩
  rw [← hlines]
  exact congrArg Result.stdout hrun

end Command

end TermRules
