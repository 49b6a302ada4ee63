import TermRules.Application
import TermRules.Command.Inputs
import TermRules.Command.Options
import TermRules.Error

/-!
# Processing of files

* `compileRules` compiles the rules given as text, followed by those in files of rules.
* `sequential` reads, transforms (`termsInTurn`) and prints file by file.
* `parallel` reads the standard input, then transforms all files (`termsAtOnce`), and then prints
  them in their order.
* `process` is one of the two.
-/

namespace TermRules.Command

/-- Why the command fails. -/
inductive Cause
  | input (e : InputError)
  | content (e : Error)
  /-- The standard input is named more than once. -/
  | standardInputTwice
  deriving DecidableEq

/-- A failure of the command, with the file that it arose in. -/
structure Failure where
  file? : Option String
  cause : Cause
  deriving DecidableEq

namespace Failure

/-- The text of a failure. -/
def message (f : Failure) : String :=
  let text := match f.cause with
    | .input e => e.message
    | .content e => e.message
    | .standardInputTwice => "standard input can be read only once"
  match f.file? with
  | some path => s!"{path}: {text}"
  | none => text

end Failure

/-- The text of a path with the given content. -/
def textOf (path : String) (content : Except InputError String) :
    ExceptT Failure Logged String := do
  ExceptT.lift (Traced.emit (.read path))
  match content with
  | .ok text => return text
  | .error e => throw ⟨some path, .input e⟩

/-! ## Rules -/

/-- The rules of the texts, each of which is one rule. -/
def compileTexts (reg : Registry) (texts : List String) : ExceptT Failure Logged (List Rule) :=
  (texts.mapM (Rule.parse reg)).adapt fun e => ⟨none, .content (.compile e)⟩

/-- The rules of the files, and what there is to be read afterwards. -/
def compileFiles (reg : Registry) (inputs : Inputs) :
    List String → ExceptT Failure Logged (List Rule × Inputs)
  | [] => pure ([], inputs)
  | path :: paths => do
    let (content, inputs) := inputs.read path
    let text ← textOf path content
    let R ← (Ruleset.parse reg text).adapt fun e => ⟨some path, .content (.compile e)⟩
    let (rules, inputs) ← compileFiles reg inputs paths
    return (R.rules ++ rules, inputs)

/-- The rules that the options ask for, and what there is to be read afterwards. -/
def compileRules (reg : Registry) (o : Options) (inputs : Inputs) :
    ExceptT Failure Logged (Ruleset × Inputs) := do
  let inline ← compileTexts reg o.rules
  let (rules, inputs) ← compileFiles reg inputs o.ruleFiles
  let R : Ruleset := ⟨inline ++ rules⟩
  ExceptT.lift (Traced.emit (.compiledRules R.size))
  return (R, inputs)

/-! ## Terms -/

/-- What is printed, line by line, and the failure that it ends with. -/
structure Output where
  lines : List String
  failure : Option Failure
  deriving DecidableEq

namespace Output

/-- Nothing is printed. -/
def nothing : Output := ⟨[], none⟩

/-- Nothing is printed but a failure. -/
def fail (f : Failure) : Output := ⟨[], some f⟩

/-- The output with more lines before it. -/
def after (lines : List String) (out : Output) : Output := { out with lines := lines ++ out.lines }

end Output

/-- The terms of a text that was read from a path. -/
def readTerms (path text : String) : Except Failure (List Term) :=
  (Term.readAll text).mapM fun item => item.mapError fun e => ⟨some path, .content (.read e)⟩

/-- Reports the statistics for the terms of a path. -/
def report (path : String) (stats : Stats) : Logged Unit :=
  Traced.emit (.appliedTo path stats.visited stats.fired)

/-- Transforms terms one after the other, and adds up the statistics on the way. -/
def transformEach (R : Ruleset) (stats : Stats) : List Term → Logged (List Term × Stats)
  | [] => pure ([], stats)
  | t :: ts => do
    let (t, s) ← R.transformLogged t
    let (ts, stats) ← transformEach R (stats + s) ts
    return (t :: ts, stats)

/-- Reads the terms of a text that was read from a path, and transforms them one after the other
unless that is omitted. -/
def termsInTurn (o : Options) (R : Ruleset) (path text : String) :
    ExceptT Failure Logged (List Term) := do
  let terms ← readTerms path text
  if o.omits .transform then return terms
  let (terms, stats) ← transformEach R .zero terms
  report path stats
  return terms

/-- Reads the terms of a text that was read from a path, and transforms each on its own unless that
is omitted. The statistics are added up when all terms are there. The log is that of the terms in
their order, though the terms may be transformed in any order. -/
def termsAtOnce (o : Options) (R : Ruleset) (path text : String) :
    ExceptT Failure Logged (List Term) := do
  let terms ← readTerms path text
  if o.omits .transform then return terms
  let results ← ExceptT.lift (terms.mapM R.transformLogged)
  let (terms, stats) := results.unzip
  report path (stats.foldl (· + ·) .zero)
  return terms

/-- The lines that show terms. -/
def linesOf (o : Options) (terms : List Term) : List String :=
  if o.omits .print then [] else terms.map Term.print

/-- Reads, transforms and prints file by file, up to the first failure. -/
def sequential (o : Options) (R : Ruleset) (inputs : Inputs) : List String → Output
  | [] => .nothing
  | path :: paths =>
    let (content, inputs) := inputs.read path
    match (textOf path content >>= termsInTurn o R path).run.value with
    | .error f => .fail f
    | .ok terms => (sequential o R inputs paths).after (linesOf o terms)

/-- The result for each path in turn, and what is left of `results`. A path that names the standard
input has the result `standard`, if there is one; any other has the next of `results`. -/
def distribute {α : Type} (standard : Option α) :
    List α → List String → List (Option α) × List α
  | results, [] => ([], results)
  | results, path :: paths =>
    match standard, isStandardInput path with
    | some result, true =>
      let rest := distribute standard results paths
      (some result :: rest.1, rest.2)
    | _, _ =>
      let rest := distribute standard results.tail paths
      (results.head? :: rest.1, rest.2)

/-- Prints results in their order, up to the first failure. -/
def printAll (o : Options) : List (Except Failure (List Term)) → Output
  | [] => .nothing
  | .error f :: _ => .fail f
  | .ok terms :: results => (printAll o results).after (linesOf o terms)

/-- The results of the paths that do not name the standard input. -/
def fileResults (o : Options) (R : Ruleset) (inputs : Inputs) (paths : List String) :
    List (Except Failure (List Term)) :=
  (paths.filter fun path => !isStandardInput path).map fun path =>
    (textOf path (inputs.file path) >>= termsAtOnce o R path).run.value

/-- Prints the results of the paths in the order of the paths. A path without a result has no
terms. -/
def printPaths (o : Options) (standard : Option (Except Failure (List Term)))
    (results : List (Except Failure (List Term))) (paths : List String) : Output :=
  printAll o ((distribute standard results paths).1.map (·.getD (.ok [])))

/-- Transforms all files before the first is printed. The standard input is read before all
others. -/
def parallel (o : Options) (R : Ruleset) (inputs : Inputs) (paths : List String) : Output :=
  let results := fileResults o R inputs paths
  match paths.find? isStandardInput with
  | none => printPaths o none results paths
  | some path =>
    match (textOf path inputs.standard).run.value with
    | .error f => .fail f
    | .ok text => printPaths o (some (termsAtOnce o R path text).run.value) results paths

/-- Reads, transforms and prints the files. -/
def process (o : Options) (R : Ruleset) (inputs : Inputs) : Output :=
  if 1 < o.files.countP isStandardInput then .fail ⟨none, .standardInputTwice⟩
  else if o.jobs?.isSome then parallel o R inputs o.files
  else sequential o R inputs o.files

end TermRules.Command
