import TermRules.Proofs.Command.Processing
import TermRules.Proofs.Ruleset.Pieces

/-!
# The rules of a run

A run has rules that are given as texts, each of which has to be one rule, and files of rules, each
of which may hold any number of them. All of these are sources (`Options.sources`).

If each of the texts consists of one S-expression, then the rules are those of the sources one after
the other (`value_compileRules_eq_mapM`), as if all sources were compiled together, except that an
error comes with the name of the file that it is in. Otherwise the run fails
(`error_of_not_holdsOne`). Both together are `value_compileRules_of_files`.
-/

namespace TermRules.Command

/-! ## Sources of rules -/

/-- A text of rules, with the file that it was read from, if any. -/
structure Source where
  file? : Option String
  text : String

namespace Source

/-- The failure that an error in the text leads to. -/
def failure (s : Source) (err : CompileError) : Failure := ⟨s.file?, .content (.compile err)⟩

/-- The rules of the text on its own. -/
def compile (reg : Registry) (s : Source) : Except Failure Ruleset :=
  (Ruleset.parse reg s.text).outcome.mapError s.failure

end Source

/-- The contents of files of rules, with the names of the files. -/
def sourcesOf (paths contents : List String) : List Source :=
  (paths.zip contents).map fun file => ⟨some file.1, file.2⟩

theorem sourcesOf_cons (path text : String) (paths contents : List String) :
    sourcesOf (path :: paths) (text :: contents) =
      ⟨some path, text⟩ :: sourcesOf paths contents := rfl

/-- What the options name as rules, if the files of rules have the given contents. -/
def Options.sources (o : Options) (contents : List String) : List Source :=
  o.rules.map (Source.mk none) ++ sourcesOf o.ruleFiles contents

/-- The path names a file, not the standard input, and the file has the given content. -/
def Inputs.HasFile (inputs : Inputs) (path text : String) : Prop :=
  isStandardInput path = false ∧ inputs.file path = .ok text

variable {reg : Registry} {o : Options} {inputs : Inputs} {paths contents : List String}

theorem map_text_sources (h : o.ruleFiles.length = contents.length) :
    (o.sources contents).map Source.text = o.rules ++ contents := by
  rw [Options.sources, sourcesOf, List.map_append, List.map_map, List.map_map]
  congr 1
  · exact List.map_id o.rules
  · exact List.map_snd_zip h.ge

/-- All sources together are compiled as each of them is. -/
theorem outcome_compile_sources (h : o.ruleFiles.length = contents.length) :
    (Ruleset.compile reg (o.rules ++ contents)).outcome =
      ((o.sources contents).mapM fun s => (Ruleset.parse reg s.text).outcome).map fun rulesets =>
        ⟨rulesets.flatMap Ruleset.rules⟩ := by
  rw [Ruleset.outcome_compile_eq_mapM, ← map_text_sources h, List.mapM_map]
  rfl

/-! ## What a run makes of them -/

theorem value_compileFiles_of_files (hfiles : List.Forall₂ inputs.HasFile paths contents) :
    (compileFiles reg inputs paths).run.value =
      ((sourcesOf paths contents).mapM (Source.compile reg)).map fun rulesets =>
        (rulesets.flatMap Ruleset.rules, inputs) := by
  induction hfiles with
  | nil => rfl
  | @cons path text paths contents hpath _ ih =>
    have hread : inputs.read path = (.ok text, inputs) := by
      simp [Inputs.read, hpath.1, hpath.2]
    rw [value_compileFiles_cons, hread, ih, sourcesOf_cons, List.mapM_cons]
    change Source.compile reg ⟨some path, text⟩ >>= _ = _
    cases Source.compile reg ⟨some path, text⟩ with
    | error f => rfl
    | ok R => cases (sourcesOf paths contents).mapM (Source.compile reg) <;> rfl

/-- If the texts consist of one S-expression each, then the sources are compiled one by one. -/
theorem value_compileRules_eq_mapM (hfiles : List.Forall₂ inputs.HasFile o.ruleFiles contents)
    (hrules : ∀ text ∈ o.rules, Sexp.HoldsOne text) :
    (compileRules reg o inputs).run.value =
      ((o.sources contents).mapM (Source.compile reg)).map fun rulesets =>
        (⟨rulesets.flatMap Ruleset.rules⟩, inputs) := by
  have hinline : (o.rules.map (Source.mk none)).mapM (Source.compile reg) =
      (o.rules.mapM fun text => (Ruleset.parse reg text).outcome).mapError fun err =>
        ⟨none, .content (.compile err)⟩ := by
    rw [List.mapM_map, mapError_mapM]
    rfl
  have hparse := Rule.outcome_mapM_parse reg hrules
  rw [Compilation.outcome] at hparse
  rw [value_compileRules, value_compileFiles_of_files hfiles, hparse, Options.sources,
    List.mapM_append, hinline]
  cases o.rules.mapM fun text => (Ruleset.parse reg text).outcome with
  | error err => rfl
  | ok inline =>
    cases (sourcesOf o.ruleFiles contents).mapM (Source.compile reg) with
    | error f => rfl
    | ok rulesets =>
      exact congrArg (fun rules => Except.ok (Ruleset.mk rules, inputs)) List.flatMap_append.symm

/-- If one of the texts does not consist of one S-expression, then the run fails with an error in a
text. This is an error in the form of that text, if the texts before it are rules. -/
theorem error_of_not_holdsOne {before after : List String} {text : String}
    (hrules : o.rules = before ++ text :: after) (htext : ¬ Sexp.HoldsOne text) :
    ∃ err, (compileRules reg o inputs).run.value = .error ⟨none, .content (.compile err)⟩ ∧
      ((∀ b ∈ before, ∃ r, (Rule.parse reg b).outcome = .ok r) → err.kind = .form) := by
  obtain ⟨e, -, hparse⟩ := Rule.outcome_parse_of_not_holdsOne reg htext
  have hfail : ∀ err, (o.rules.mapM (Rule.parse reg)).outcome = .error err →
      (compileRules reg o inputs).run.value = .error ⟨none, .content (.compile err)⟩ := by
    intro err herr
    rw [Compilation.outcome] at herr
    rw [value_compileRules, herr]
    rfl
  cases houtcome : (o.rules.mapM (Rule.parse reg)).outcome with
  | ok rules =>
    rw [Compilation.outcome_mapM] at houtcome
    obtain ⟨r, hr⟩ := exists_mapM_eq_ok_iff.mp ⟨rules, houtcome⟩ text (by simp [hrules])
    rw [hparse] at hr
    cases hr
  | error err =>
    refine ⟨err, hfail err houtcome, fun hbefore => ?_⟩
    have hfirst := mapM_eq_error_iff.mpr ⟨before, text, after, hrules, hbefore, hparse⟩
    rw [Compilation.outcome_mapM, hfirst] at houtcome
    cases houtcome
    rfl

/-- **The rules of a run.** Let the files of rules be files that can be read.

If the texts given as rules consist of one S-expression each, then the run has the rules that these
texts and the contents of the files, one after the other, are compiled to. If they are not compiled,
then the run fails with the same error. It is the error of the first source that is not compiled on
its own, and the failure bears the name of the file if that source is a file.

If one of the texts does not consist of one S-expression, then the run fails with an error in one of
the texts, and this is an error in the form of a text if the texts before that one are rules. -/
theorem value_compileRules_of_files (reg : Registry) {o : Options} {inputs : Inputs}
    {contents : List String} (hfiles : List.Forall₂ inputs.HasFile o.ruleFiles contents) :
    let outcome := (Ruleset.compile reg (o.rules ++ contents)).outcome
    let value := (compileRules reg o inputs).run.value
    ((∀ text ∈ o.rules, Sexp.HoldsOne text) →
      (∀ R, outcome = .ok R → value = .ok (R, inputs)) ∧
        ∀ err, outcome = .error err →
          ∃ before s after, o.sources contents = before ++ s :: after ∧
            (∀ b ∈ before, ∃ R, (Ruleset.parse reg b.text).outcome = .ok R) ∧
            (Ruleset.parse reg s.text).outcome = .error err ∧
            value = .error ⟨s.file?, .content (.compile err)⟩) ∧
      ∀ before text after, o.rules = before ++ text :: after → ¬ Sexp.HoldsOne text →
        ∃ err, value = .error ⟨none, .content (.compile err)⟩ ∧
          ((∀ b ∈ before, ∃ r, (Rule.parse reg b).outcome = .ok r) → err.kind = .form) := by
  intro outcome value
  refine ⟨fun hrules => ?_, fun _ _ _ => error_of_not_holdsOne⟩
  have houtcome : outcome = _ := outcome_compile_sources hfiles.length_eq
  have hvalue : value = _ := value_compileRules_eq_mapM hfiles hrules
  refine ⟨fun R hR => ?_, fun err herr => ?_⟩
  · obtain ⟨rulesets, hrulesets, rfl⟩ := map_eq_ok.mp (houtcome.symm.trans hR)
    rw [hvalue]
    exact map_eq_ok.mpr ⟨rulesets, mapM_tagged_eq_ok Source.failure hrulesets, rfl⟩
  · obtain ⟨before, s, after, hsources, hbefore, hs, htagged⟩ :=
      mapM_tagged_eq_error Source.failure (map_eq_error.mp (houtcome.symm.trans herr))
    exact ⟨before, s, after, hsources, hbefore, hs, hvalue.trans (map_eq_error.mpr htagged)⟩

/-- Options that give the texts as rules and name a file of rules. -/
def textsAndFile (texts : List String) : Options :=
  { Options.initial with rules := texts, ruleFiles := ["rules.bml"] }

/-- Files that hold two rules, the second of which has an action of an unknown name. -/
def fadingInputs : Inputs := ⟨fun _ => .ok "(() ()) (() (fade))", .ok ""⟩

theorem value_compileRules_fading :
    List.Forall₂ fadingInputs.HasFile ["rules.bml"] ["(() ()) (() (fade))"] ∧
      (compileRules .empty (textsAndFile ["(() ())"]) fadingInputs).run.value =
        .error ⟨some "rules.bml", .content (.compile (.unbound "fade"))⟩ ∧
      ∃ err, (compileRules .empty (textsAndFile ["(() ())", "(() ()) x"]) fadingInputs).run.value =
          .error ⟨none, .content (.compile err)⟩ ∧ err.kind = .form := by
  have hfiles : List.Forall₂ fadingInputs.HasFile ["rules.bml"] ["(() ()) (() (fade))"] :=
    .cons ⟨by cbv, rfl⟩ .nil
  have hitems : Sexp.items "(() ())" = [.ok (.list [.list [], .list []])] := by cbv
  have hparse : (Rule.parse .empty "(() ())").outcome = .ok ⟨[], []⟩ := by cbv
  refine ⟨hfiles, ?_, ?_⟩
  · have hone : ∀ text ∈ (textsAndFile ["(() ())"]).rules, Sexp.HoldsOne text := by
      intro text htext
      obtain rfl := List.mem_singleton.mp htext
      exact ⟨_, hitems⟩
    have hunbound : (Ruleset.compile .empty ["(() ())", "(() ()) (() (fade))"]).outcome =
        .error (.unbound "fade") := by cbv
    obtain ⟨-, herror⟩ :=
      (value_compileRules_of_files .empty (o := textsAndFile ["(() ())"]) hfiles).1 hone
    obtain ⟨before, s, after, hsources, -, hs, hvalue⟩ := herror _ hunbound
    rcases before with _ | ⟨b, _ | ⟨c, before⟩⟩
    · cases hsources
      rw [Rule.outcome_parse_of_holdsOne .empty ⟨_, hitems⟩, hparse] at hs
      cases hs
    · cases hsources
      exact hvalue
    · simp [Options.sources, sourcesOf, textsAndFile] at hsources
  · have hmore : ¬ Sexp.HoldsOne "(() ()) x" := by
      have hitems : Sexp.items "(() ()) x" =
          [.ok (.list [.list [], .list []]), .ok (.atom "x")] := by cbv
      rintro ⟨x, hx⟩
      rw [hitems] at hx
      cases hx
    obtain ⟨err, hvalue, hkind⟩ :=
      (value_compileRules_of_files .empty (o := textsAndFile ["(() ())", "(() ()) x"]) hfiles).2
        ["(() ())"] _ [] rfl hmore
    refine ⟨err, hvalue, hkind fun b hb => ?_⟩
    obtain rfl := List.mem_singleton.mp hb
    exact ⟨_, hparse⟩

end TermRules.Command
