/-!
# Inputs of the command

The contents of files and of the standard input. The standard input is used up by reading it:
whoever reads it again finds it empty.
-/

namespace TermRules.Command

/-- Why an input cannot be read. -/
inductive InputError
  | notFound
  | isDirectory
  | notText
  /-- Another error of the system, with its description and number. -/
  | system (description : String) (code : Nat)
  deriving DecidableEq, Repr

namespace InputError

/-- The error of the system with the given description and number. -/
def ofSystem (description : String) (code : Nat) : InputError :=
  if code = 2 then notFound else if code = 21 then isDirectory else system description code

/-- The text of the error. -/
def message : InputError → String
  | notFound => "No such file or directory (os error 2)"
  | isDirectory => "Is a directory (os error 21)"
  | notText => "stream did not contain valid UTF-8"
  | system description code => s!"{description} (os error {code})"

end InputError

/-- The parts of a path between its slashes. -/
def pathParts : List Char → List (List Char)
  | [] => [[]]
  | c :: cs =>
    if c = '/' then [] :: pathParts cs
    else
      match pathParts cs with
      | [] => [[c]]
      | part :: parts => (c :: part) :: parts

/-- Whether a path names the standard input: it is `-`, possibly followed by parts that do not
matter. -/
def isStandardInput (path : String) : Bool :=
  match pathParts path.toList with
  | ['-'] :: rest => rest.all fun part => part == [] || part == ['.']
  | _ => false

/-- What there is to be read. -/
structure Inputs where
  file : String → Except InputError String
  standard : Except InputError String

/-- The content of a path, and what there is to be read afterwards. -/
def Inputs.read (inputs : Inputs) (path : String) : Except InputError String × Inputs :=
  if isStandardInput path then (inputs.standard, { inputs with standard := .ok "" })
  else (inputs.file path, inputs)

end TermRules.Command
