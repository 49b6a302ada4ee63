import TermRules.Command.Run

/-!
# The command line

Reads the inputs that the arguments name, runs the command on them and prints its result.
-/

namespace TermRules.Main

open Command

/-- The input error for a description and an error number, which may be negated. -/
def systemError (code : UInt32) (details : String) : InputError :=
  .ofSystem details.capitalize (if code < 0x80000000 then code else 0 - code).toNat

/-- The input error that stands for an error of the system. -/
def inputError : IO.Error → InputError
  | .alreadyExists _ code details | .otherError code details | .resourceBusy code details
  | .resourceVanished code details | .unsupportedOperation code details
  | .hardwareFault code details | .unsatisfiedConstraints code details
  | .illegalOperation code details | .protocolError code details | .timeExpired code details
  | .interrupted _ code details | .noFileOrDirectory _ code details
  | .invalidArgument _ code details | .permissionDenied _ code details
  | .resourceExhausted _ code details | .inappropriateType _ code details
  | .noSuchThing _ code details => systemError code details
  | .unexpectedEof => .system "unexpected end of file" 0
  | .userError details => .system details 0

/-- The text of some bytes. -/
def decode (bytes : ByteArray) : Except InputError String :=
  match String.fromUTF8? bytes with
  | some text => .ok text
  | none => .error .notText

/-- The content of a file. -/
def readFile (path : String) : IO (Except InputError String) :=
  try return decode (← IO.FS.readBinFile path)
  catch e => return .error (inputError e)

/-- What is left of the standard input. -/
def readStandardInput : IO (Except InputError String) := do
  try return decode (← (← IO.getStdin).readBinToEnd)
  catch e => return .error (inputError e)

/-- The paths that a run with the given arguments may read. -/
def namedPaths (args : List String) : List String :=
  match Options.read args with
  | .ok o => if o.list then [] else o.ruleFiles ++ o.files
  | .error _ => []

/-- The contents of the given paths. -/
def readInputs (paths : List String) : IO Inputs := do
  let standard ← if paths.any isStandardInput then readStandardInput else pure (.ok "")
  let contents ← (paths.filter fun path => !isStandardInput path).mapM fun path =>
    return (path, ← readFile path)
  return { file := fun path => (contents.lookup path).getD (.error .notFound), standard }

end TermRules.Main

/-- The command. -/
def main (args : List String) : IO UInt32 := do
  let inputs ← TermRules.Main.readInputs (TermRules.Main.namedPaths args)
  let result := TermRules.Command.run args inputs
  IO.print result.stdout
  IO.eprint result.stderr
  return result.code.toUInt32
