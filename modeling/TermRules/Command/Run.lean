import TermRules.Builtin.Change
import TermRules.Command.Batch
import TermRules.Command.Help
import TermRules.Registry.Catalogue

/-!
# Runs of the command

A run takes arguments and inputs to what is printed and to an exit code: 0 for success, 1 for a
failure and 2 for arguments that give no options.
-/

namespace TermRules.Command

/-- The name and version of the command. -/
def versionLine : String := "bmlrw 0.1.0"

/-- The text of a usage error. -/
def UsageError.message : UsageError → String
  | help | longHelp => "help is asked for"
  | version => "the version is asked for"
  | unknown => "unexpected argument"
  | missing => "a value is required but none was supplied"
  | malformed => "invalid value"
  | repeated => "an argument cannot be used multiple times"
  | surplus => "unexpected value for an argument"

/-- What a run prints and the code that it exits with. -/
structure Result where
  code : Nat
  stdout : String
  stderr : String
  deriving DecidableEq, Repr

namespace Result

/-- Success. -/
def ok (stdout : String) : Result := ⟨0, stdout, ""⟩

/-- The result for arguments that give no options. -/
def ofUsageError : UsageError → Result
  | .help => ok helpText
  | .longHelp => ok longHelpText
  | .version => ok (versionLine ++ "\n")
  | e => ⟨2, "", s!"error: {e.message}\n"⟩

/-- The result for an output. -/
def ofOutput (out : Output) : Result :=
  let stdout := String.join (out.lines.map (· ++ "\n"))
  match out.failure with
  | none => ok stdout
  | some f => ⟨1, stdout, s!"error: {f.message}\n"⟩

end Result

/-- The output for options that do not ask for the catalogue. -/
def processFiles (reg : Registry) (o : Options) (inputs : Inputs) : Output :=
  match (compileRules reg o inputs).run.value with
  | .error f => .fail f
  | .ok (R, inputs) => process o R inputs

/-- The run with the given options. -/
def runOptions (o : Options) (inputs : Inputs) : Result :=
  if o.list then .ok Registry.builtin.catalogue
  else .ofOutput (processFiles .builtin o inputs)

/-- The run with the given arguments. -/
def run (args : List String) (inputs : Inputs) : Result :=
  match Options.read args with
  | .error e => .ofUsageError e
  | .ok o => runOptions o inputs

end TermRules.Command
