import TermRules.Command.Stage
import TermRules.Text.Numeral

/-!
# Options of the command

Arguments are read from left to right. An argument names an option, with two hyphens and its long
name or with one hyphen and its letter, or it is a plain argument: the value of the option before
it, if that still lacks one, or else a file. The value of an option may also be attached to its
name. After the argument `--` all arguments are files.

What an option does with its value is settled only when the next argument shows that the value is
complete (`Pending`). An unknown option is reported before what is pending is settled, a known one
after it.
-/

namespace TermRules.Command

/-- Options of the command. -/
structure Options where
  /-- Rules given as text. -/
  rules : List String
  /-- Files of rules. -/
  ruleFiles : List String
  /-- Whether to print the catalogue instead. -/
  list : Bool
  /-- The first stage to omit. -/
  omit? : Option Stage
  /-- Whether to work in parallel, and with how many tasks if a number is given. -/
  jobs? : Option (Option Nat)
  /-- Files of terms. -/
  files : List String
  deriving DecidableEq, Repr

namespace Options

/-- The options of a command without arguments. -/
def initial : Options := ⟨[], [], false, none, none, []⟩

/-- Whether a stage is to be omitted. -/
def omits (o : Options) (s : Stage) : Bool :=
  match o.omit? with
  | some first => first.omitsFrom s
  | none => false

end Options

/-- Why arguments do not give options: help or the version is asked for, or there is an error. -/
inductive UsageError
  | help
  | longHelp
  | version
  /-- There is no such option. -/
  | unknown
  /-- An option lacks its value, or a file has no name. -/
  | missing
  /-- The value of an option cannot be read. -/
  | malformed
  /-- An option is given twice that may be given once. -/
  | repeated
  /-- An option has a value but takes none. -/
  | surplus
  deriving DecidableEq, Repr

/-! ## Names of options -/

/-- Options without a value. -/
inductive Switch
  | list
  | help
  | longHelp
  | version
  deriving DecidableEq, Repr

/-- Options with a value. -/
inductive Setting
  | rule
  | ruleFile
  | omitted
  | jobs
  deriving DecidableEq, Repr

/-- What the name of an option stands for. -/
inductive OptionName
  | switch (s : Switch)
  | setting (s : Setting)
  deriving DecidableEq, Repr

/-- The option of a long name. -/
def longOption? : String → Option OptionName
  | "rule" => some (.setting .rule)
  | "rules" => some (.setting .ruleFile)
  | "list" => some (.switch .list)
  | "omit" => some (.setting .omitted)
  | "jobs" => some (.setting .jobs)
  | "help" => some (.switch .longHelp)
  | "version" => some (.switch .version)
  | _ => none

/-- The option of a letter. -/
def shortOption? : Char → Option OptionName
  | 'r' => some (.setting .rule)
  | 'f' => some (.setting .ruleFile)
  | 'j' => some (.setting .jobs)
  | 'h' => some (.switch .help)
  | 'V' => some (.switch .version)
  | _ => none

/-! ## Arguments -/

/-- The form of an argument. -/
inductive Argument
  /-- The argument `--`. -/
  | escape
  /-- A long name after two hyphens, and what follows an equality sign. -/
  | long (name : String) (value : Option String)
  /-- A letter after one hyphen, and what follows it. -/
  | short (letter : Char) (rest : String)
  | plain (text : String)
  deriving DecidableEq, Repr

namespace Argument

/-- A long name and what follows its equality sign. -/
def ofLong (text : List Char) : Argument :=
  match text.dropWhile (· != '=') with
  | [] => long (String.ofList text) none
  | _ :: value => long (String.ofList (text.takeWhile (· != '='))) (some (String.ofList value))

/-- The form of an argument. -/
def ofText (text : String) : Argument :=
  match text.toList with
  | ['-', '-'] => escape
  | '-' :: '-' :: rest => ofLong rest
  | '-' :: letter :: rest => short letter (String.ofList rest)
  | _ => plain text

/-- The value attached to a letter. An equality sign before it is left out. -/
def attached? (rest : String) : Option String :=
  match rest.toList with
  | [] => none
  | '=' :: value => some (String.ofList value)
  | value => some (String.ofList value)

end Argument

/-! ## Settling values -/

/-- What is read but not settled. -/
inductive Pending
  | nothing
  /-- An option with its value, if it has one by now. -/
  | setting (s : Setting) (value : Option String)
  /-- Files. -/
  | files (paths : List String)
  deriving DecidableEq, Repr

namespace Options

/-- The options with the value of one more option. -/
def set (o : Options) : Setting → Option String → Except UsageError Options
  | .rule, some text => .ok { o with rules := o.rules ++ [text] }
  | .ruleFile, some path =>
    if path.isEmpty then .error .missing else .ok { o with ruleFiles := o.ruleFiles ++ [path] }
  | .omitted, some text =>
    if o.omit?.isSome then .error .repeated
    else
      match Stage.read text with
      | .ok stage => .ok { o with omit? := some stage }
      | .error _ => .error .malformed
  | .jobs, none => if o.jobs?.isSome then .error .repeated else .ok { o with jobs? := some none }
  | .jobs, some text =>
    if o.jobs?.isSome then .error .repeated
    else
      match Text.readNumeral Text.maxWord64 text with
      | .ok n => .ok { o with jobs? := some (some n) }
      | .error _ => .error .malformed
  | _, none => .error .missing

/-- The options with more files. -/
def addFiles (o : Options) (paths : List String) : Except UsageError Options :=
  if paths.any String.isEmpty then .error .missing else .ok { o with files := o.files ++ paths }

/-- The options with what is pending. -/
def settle (o : Options) : Pending → Except UsageError Options
  | .nothing => .ok o
  | .setting s value => o.set s value
  | .files paths => o.addFiles paths

/-- The options with one more option, which takes no value. -/
def turnOn (o : Options) : Switch → Except UsageError Options
  | .list => if o.list then .error .repeated else .ok { o with list := true }
  | .help => .error .help
  | .longHelp => .error .longHelp
  | .version => .error .version

end Options

/-! ## Reading arguments -/

/-- Arguments read so far. -/
structure Reading where
  options : Options
  pending : Pending

namespace Reading

/-- No arguments are read. -/
def start : Reading := ⟨.initial, .nothing⟩

/-- The options, when all arguments are read. -/
def finish (s : Reading) : Except UsageError Options := s.options.settle s.pending

/-- Reads a file. -/
def file (s : Reading) (path : String) : Except UsageError Reading :=
  match s.pending with
  | .files paths => .ok { s with pending := .files (paths ++ [path]) }
  | pending => do return ⟨← s.options.settle pending, .files [path]⟩

/-- Reads a plain argument: a value that is lacking, or a file. -/
def plain (s : Reading) (text : String) : Except UsageError Reading :=
  match s.pending with
  | .setting name none => .ok { s with pending := .setting name (some text) }
  | _ => s.file text

/-- Reads an option with the value attached to it. -/
def setting (s : Reading) (name : Setting) (value : Option String) : Except UsageError Reading := do
  let options ← s.finish
  match value with
  | some text => return ⟨← options.set name (some text), .nothing⟩
  | none => return ⟨options, .setting name none⟩

/-- Reads an option without a value. -/
def switch (s : Reading) (name : Switch) : Except UsageError Reading := do
  return ⟨← (← s.finish).turnOn name, .nothing⟩

/-- Reads an argument before the argument `--`. -/
def step (s : Reading) : Argument → Except UsageError Reading
  | .escape => .ok s
  | .long name value =>
    match longOption? name with
    | none => .error .unknown
    | some (.switch name) => if value.isSome then .error .surplus else s.switch name
    | some (.setting name) => s.setting name value
  | .short letter rest =>
    match shortOption? letter with
    | none => .error .unknown
    | some (.switch name) => s.switch name
    | some (.setting name) => s.setting name (Argument.attached? rest)
  | .plain text => s.plain text

/-- Reads the remaining arguments. -/
def readAll (s : Reading) : List String → Except UsageError Options
  | [] => s.finish
  | text :: texts =>
    match Argument.ofText text with
    | .escape => do (← texts.foldlM file s).finish
    | argument => do (← s.step argument).readAll texts

end Reading

/-- The options that arguments give. -/
def Options.read (args : List String) : Except UsageError Options := Reading.start.readAll args

end TermRules.Command
