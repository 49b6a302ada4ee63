import TermRules.Proofs.Builtin.Nodewise
import TermRules.Proofs.Command.Output

/-!
# Where a run stops

A run that does not work in parallel prints file by file. So it stops at the first file with which
something is wrong (`Fails`): it prints what the files before it hold, rewritten, but nothing of
that file or of those after it (`process_eq_of_fails`). In particular, the terms that stand in that
file before the first item that is no term are not printed.
-/

namespace TermRules.Command

variable {o : Options} {R : Ruleset} {inputs : Inputs} {path : String}

/-- If nothing is wrong with any of the files, then all of them hold terms. -/
theorem exists_holds_of_not_fails {files : List String}
    (h : ∀ p ∈ files, ∀ cause, ¬ Fails inputs p cause) :
    ∃ terms, List.Forall₂ (Holds inputs) files terms := by
  apply exists_holds_of_printAll (o := .initial) (R := .empty) rfl
  rw [Option.eq_none_iff_forall_ne_some]
  intro f hf
  obtain ⟨p, hp, hresult⟩ := List.mem_map.mp (mem_of_failure_printAll hf)
  obtain ⟨cause, hcause, -⟩ := resultOf_eq_error_iff.mp hresult
  exact h p hp cause hcause

/-- What the files before the first one with which something is wrong hold is printed, rewritten. -/
theorem printAll_of_fails (hprint : o.omits .print = false) {before after : List String}
    {terms : List (List Term)} {cause : Cause}
    (hbefore : List.Forall₂ (Holds inputs) before terms) (hpath : Fails inputs path cause) :
    printAll o ((before ++ path :: after).map (resultOf o R inputs)) =
      ⟨(terms.flatten.map R.transform).map Term.print, some ⟨some path, cause⟩⟩ := by
  have hresult : resultOf o R inputs path = .error ⟨some path, cause⟩ :=
    resultOf_eq_error_iff.mpr ⟨cause, hpath, rfl⟩
  rw [List.map_append, printAll_append, printAll_of_holds hprint hbefore, List.map_cons, hresult,
    printAll]
  simp [Output.andThen, Output.after, Output.fail]

/-- **Where a run stops.** Consider a run that does not work in parallel, omits no stage, and names
the standard input once at most among its files.

If something is wrong with a file, and with none before it, then what the files before it hold is
printed, rewritten, and nothing else, and the run fails for the first thing that is wrong with that
file, under its name. If nothing is wrong with any of the files, then what all of them hold is
printed, rewritten, and the run does not fail. -/
theorem process_eq_of_fails (R : Ruleset) (inputs : Inputs) {o : Options} (hjobs : o.jobs? = none)
    (homit : o.omit? = none) (honce : o.files.countP isStandardInput ≤ 1) :
    (∀ before path after cause, o.files = before ++ path :: after →
      (∀ p ∈ before, ∀ c, ¬ Fails inputs p c) → Fails inputs path cause →
        ∃ terms, List.Forall₂ (Holds inputs) before terms ∧
          process o R inputs =
            ⟨(terms.flatten.map R.transform).map Term.print, some ⟨some path, cause⟩⟩) ∧
      ((∀ p ∈ o.files, ∀ c, ¬ Fails inputs p c) →
        ∃ terms, List.Forall₂ (Holds inputs) o.files terms ∧
          process o R inputs = ⟨(terms.flatten.map R.transform).map Term.print, none⟩) := by
  have hprint : o.omits .print = false := by rw [Options.omits, homit]
  have hprocess : process o R inputs = printAll o (o.files.map (resultOf o R inputs)) := by
    rw [process_of_once honce, hjobs, sequential_eq_printAll honce]
    rfl
  rw [hprocess]
  constructor
  · intro before path after cause hfiles hbefore hpath
    obtain ⟨terms, hterms⟩ := exists_holds_of_not_fails hbefore
    exact ⟨terms, hterms, hfiles ▸ printAll_of_fails hprint hterms hpath⟩
  · intro hfiles
    obtain ⟨terms, hterms⟩ := exists_holds_of_not_fails hfiles
    exact ⟨terms, hterms, printAll_of_holds hprint hterms⟩

/-- The options that name the standard input between two files. -/
def threeFiles : Options := { Options.initial with files := ["a.bml", "-", "c.bml"] }

/-- Files that hold a block, and a standard input that breaks off after a block. -/
def brokenOffInputs : Inputs := ⟨fun _ => .ok "(blk b)", .ok "(blk b) (blk"⟩

/-- Only the block in the file before the standard input is printed. -/
theorem process_brokenOff :
    process threeFiles .coloring brokenOffInputs =
      ⟨["(blk b (@ color red))"], some ⟨some "-", .content (.read (.sexp (.unclosedOpen 8)))⟩⟩ := by
  let block : Term := ⟨.block, ⟨"b", .empty, ()⟩, ⟨[], [], []⟩⟩
  have hblock : Term.readAll "(blk b)" = [block].map .ok := by cbv
  have hfile : Holds brokenOffInputs "a.bml" [block] := ⟨_, by cbv, hblock⟩
  have hbrokenOff : Term.readAll "(blk b) (blk" =
      [block].map .ok ++ [.error (.sexp (.unclosedOpen 8))] := by cbv
  have hstandard : Fails brokenOffInputs "-" (.content (.read (.sexp (.unclosedOpen 8)))) :=
    .malformed (by cbv) hbrokenOff
  have hbefore : ∀ p ∈ ["a.bml"], ∀ c, ¬ Fails brokenOffInputs p c := by
    intro p hp
    obtain rfl := List.mem_singleton.mp hp
    exact exists_holds_iff.mp ⟨_, hfile⟩
  obtain ⟨hfirst, -⟩ :=
    process_eq_of_fails .coloring brokenOffInputs (o := threeFiles) rfl rfl (by cbv)
  obtain ⟨terms, hterms, hprocess⟩ := hfirst ["a.bml"] "-" ["c.bml"] _ rfl hbefore hstandard
  obtain _ | ⟨hfirst, _ | _⟩ := hterms
  rw [hprocess, hfirst.eq hfile]
  cbv

end TermRules.Command
