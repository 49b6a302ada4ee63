import Mathlib.Data.List.Basic
import TermRules.Command.Batch
import TermRules.Proofs.Outcome

/-!
# Results of files

The terms of a file are transformed one after the other or each on its own, depending on the mode.
Both do the same (`termsInTurn_eq_termsAtOnce`): they give the terms of the file, each of them
transformed (`termsOf`), or the failure to read them.

A file holds terms (`Holds`), or else something is wrong with it (`Fails`): it cannot be read, or it
has an item that is no term, of which the first counts (`exists_holds_iff`). The result for a file
consists of the terms that it holds, rewritten (`resultOf_eq_ok_iff`), or tells what is wrong with
it (`resultOf_eq_error_iff`).
-/

namespace TermRules.Command

variable {o : Options} {R : Ruleset} {inputs : Inputs} {path : String}

/-! ## The terms of a file -/

/-- The terms of a text that was read from a path, transformed by the rules unless that is
omitted. -/
def termsOf (o : Options) (R : Ruleset) (path text : String) : Except Failure (List Term) := do
  let terms ← readTerms path text
  return if o.omits .transform then terms else terms.map R.transform

/-- The terms of an input. -/
def termsOfInput (o : Options) (R : Ruleset) (path : String) :
    Except InputError String → Except Failure (List Term)
  | .ok text => termsOf o R path text
  | .error e => .error ⟨some path, .input e⟩

/-- Statistics that are added up on the way are those that are added up in the end. -/
theorem transformEach_eq (R : Ruleset) (stats : Stats) (terms : List Term) :
    transformEach R stats terms = do
      let results ← terms.mapM R.transformLogged
      return (results.unzip.1, results.unzip.2.foldl (· + ·) stats) := by
  induction terms generalizing stats with
  | nil => rfl
  | cons t terms ih => simp [transformEach, ih]

/-- Whether the terms of a file are transformed one after the other or each on its own makes no
difference to the terms, to the failure, and to what is reported. -/
theorem termsInTurn_eq_termsAtOnce (o : Options) (R : Ruleset) (path text : String) :
    termsInTurn o R path text = termsAtOnce o R path text := by
  unfold termsInTurn termsAtOnce
  congr 1
  funext terms
  split
  · rfl
  · simp only [transformEach_eq, liftM_bind, liftM_pure, bind_assoc, pure_bind]
    rfl

theorem value_termsAtOnce (o : Options) (R : Ruleset) (path text : String) :
    (termsAtOnce o R path text).run.value = termsOf o R path text := by
  unfold termsAtOnce termsOf
  cases readTerms path text with
  | error f => rfl
  | ok terms =>
    cases o.omits .transform with
    | true => rfl
    | false =>
      have hterms : (terms.mapM R.transformLogged).value.unzip.1 = terms.map R.transform := by
        rw [Traced.value_mapM, List.unzip_eq_map, List.map_map]
        rfl
      exact congrArg Except.ok hterms

/-- The terms of an input, if each is transformed on its own. -/
theorem value_textOf_termsAtOnce (content : Except InputError String) :
    (textOf path content >>= termsAtOnce o R path).run.value = termsOfInput o R path content := by
  cases content with
  | error e => rfl
  | ok text => exact value_termsAtOnce o R path text

/-- The terms of an input, if they are transformed one after the other. -/
theorem value_textOf_termsInTurn (content : Except InputError String) :
    (textOf path content >>= termsInTurn o R path).run.value = termsOfInput o R path content := by
  have hterms : termsInTurn o R path = termsAtOnce o R path :=
    funext (termsInTurn_eq_termsAtOnce o R path)
  rw [hterms, value_textOf_termsAtOnce]

/-! ## What files hold -/

/-- The path can be read, and its text consists of the terms. -/
def Holds (inputs : Inputs) (path : String) (terms : List Term) : Prop :=
  ∃ text, (inputs.read path).1 = .ok text ∧ Term.readAll text = terms.map .ok

/-- The path cannot be read, or its text has an item that is no term, and terms before it. -/
inductive Fails (inputs : Inputs) (path : String) : Cause → Prop
  | unreadable {e : InputError} (hread : (inputs.read path).1 = .error e) :
      Fails inputs path (.input e)
  | malformed {text : String} {terms : List Term} {e : Term.ReadError}
      {rest : List (Except Term.ReadError Term)} (hread : (inputs.read path).1 = .ok text)
      (hitems : Term.readAll text = terms.map .ok ++ .error e :: rest) :
      Fails inputs path (.content (.read e))

/-! ## Results -/

/-- The result for a path, if nothing was read before. -/
def resultOf (o : Options) (R : Ruleset) (inputs : Inputs) (path : String) :
    Except Failure (List Term) :=
  termsOfInput o R path (inputs.read path).1

theorem resultOf_standardInput (h : isStandardInput path = true) :
    resultOf o R inputs path = termsOfInput o R path inputs.standard := by
  simp [resultOf, Inputs.read, h]

theorem resultOf_file (h : isStandardInput path = false) :
    resultOf o R inputs path = termsOfInput o R path (inputs.file path) := by
  simp [resultOf, Inputs.read, h]

/-- A path has a result if it holds terms: these terms, rewritten. -/
theorem resultOf_eq_ok_iff (h : o.omits .transform = false) {result : List Term} :
    resultOf o R inputs path = .ok result ↔
      ∃ terms, Holds inputs path terms ∧ terms.map R.transform = result := by
  unfold resultOf Holds
  cases (inputs.read path).1 with
  | error e => simp [termsOfInput]
  | ok text =>
    rw [termsOfInput, termsOf, readTerms, bind_eq_ok]
    simp only [mapM_mapError_eq_ok_iff, h, Bool.false_eq_true, if_false, Except.ok.injEq,
      exists_eq_left']
    exact exists_congr fun terms => and_congr_right fun _ => ⟨Except.ok.inj, congrArg Except.ok⟩

/-- A path has no result just if something is wrong with it, and then fails for this. -/
theorem resultOf_eq_error_iff {f : Failure} :
    resultOf o R inputs path = .error f ↔
      ∃ cause, Fails inputs path cause ∧ ⟨some path, cause⟩ = f := by
  unfold resultOf
  cases hread : (inputs.read path).1 with
  | error e =>
    constructor
    · intro h
      cases h
      exact ⟨_, .unreadable hread, rfl⟩
    · rintro ⟨_, hread' | ⟨hread', -⟩, rfl⟩
      · cases hread.symm.trans hread'
        rfl
      · cases hread.symm.trans hread'
  | ok text =>
    rw [termsOfInput, termsOf, readTerms, bind_eq_error]
    constructor
    · rintro (h | ⟨_, -, h⟩)
      · obtain ⟨terms, e, rest, hitems, rfl⟩ := mapM_mapError_eq_error_iff.mp h
        exact ⟨_, .malformed hread hitems, rfl⟩
      · cases h
    · rintro ⟨_, hread' | ⟨hread', hitems⟩, rfl⟩
      · cases hread.symm.trans hread'
      · cases hread.symm.trans hread'
        exact .inl (mapM_mapError_eq_error_iff.mpr ⟨_, _, _, hitems, rfl⟩)

/-- A failure bears the name of the path that it arose in. -/
theorem file?_of_resultOf {f : Failure} (h : resultOf o R inputs path = .error f) :
    f.file? = some path := by
  obtain ⟨cause, -, rfl⟩ := resultOf_eq_error_iff.mp h
  rfl

/-! ## Terms or failures -/

/-- A path holds terms, or something is wrong with it, but not both. -/
theorem exists_holds_iff :
    (∃ terms, Holds inputs path terms) ↔ ∀ cause, ¬ Fails inputs path cause := by
  cases hresult : resultOf .initial .empty inputs path with
  | ok result =>
    obtain ⟨terms, hterms, -⟩ := (resultOf_eq_ok_iff rfl).mp hresult
    refine iff_of_true ⟨terms, hterms⟩ fun cause hcause => ?_
    cases hresult.symm.trans (resultOf_eq_error_iff.mpr ⟨cause, hcause, rfl⟩)
  | error f =>
    obtain ⟨cause, hcause, -⟩ := resultOf_eq_error_iff.mp hresult
    refine iff_of_false ?_ fun h => h cause hcause
    rintro ⟨terms, hterms⟩
    cases hresult.symm.trans ((resultOf_eq_ok_iff rfl).mpr ⟨terms, hterms, rfl⟩)

theorem Holds.eq {terms terms' : List Term} (h : Holds inputs path terms)
    (h' : Holds inputs path terms') : terms = terms' := by
  obtain ⟨text, htext, hterms⟩ := h
  obtain ⟨_, htext', hterms'⟩ := h'
  cases htext.symm.trans htext'
  exact List.map_injective_iff.mpr (fun _ _ => Except.ok.inj) (hterms.symm.trans hterms')

end TermRules.Command
