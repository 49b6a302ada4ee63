import TermRules.Text.Occurs

/-!
# Help

The help of the command describes its files and its options, in two forms. The short one has one
line for each, with its summary in a column of its own. The long one has a paragraph for each, with
all that there is to say. The layout is the customary one of command lines.
-/

namespace TermRules.Command

/-- An entry of the help: what an argument looks like, what it is for in short, and what else there
is to say, line by line. A line without text separates paragraphs. -/
structure HelpEntry where
  shown : String
  summary : String
  details : List String

namespace HelpEntry

/-- The text without a full stop at its end. -/
def withoutStop (text : String) : String :=
  match text.toList.reverse with
  | '.' :: rest => String.ofList rest.reverse
  | _ => text

/-- The line of an entry in the short help, which has its summary behind `width` characters. -/
def shortLine (width : Nat) (e : HelpEntry) : String :=
  let shown := Text.padTo width e.shown
  let summary := withoutStop e.summary
  s!"  {shown}  {summary}"

/-- The lines of an entry in the long help, and a line without text. -/
def longLines (e : HelpEntry) : List String :=
  s!"  {e.shown}" :: (e.summary :: e.details).map ("          " ++ ·) ++ [""]

/-- The lines of some entries in the short help, and a line without text. -/
def shortSection (entries : List HelpEntry) : List String :=
  let width := (entries.map fun e => e.shown.length).foldl max 0
  entries.map (shortLine width) ++ [""]

/-- The entries of the files. -/
def files : List HelpEntry :=
  [⟨"[FILE]...", "Files to process", ["", "To read from standard input, use \"-\" as file name."]⟩]

/-- The entries of the options; `more` is how to get the other help. -/
def options (more : String) : List HelpEntry :=
  [⟨"-r, --rule <RULE>", "Rule given as text (repeatable)",
      ["", "Rules given with this option are applied before rules from files."]⟩,
    ⟨"-f, --rules <FILE>", "File containing rules (repeatable)", []⟩,
    ⟨"    --list", "Print the available predicates and actions, then exit", []⟩,
    ⟨"    --omit <STAGE>", "Perform only operations until (excluding) the given stage.",
      ["", "Possible values are: rewrite, print."]⟩,
    ⟨"-j, --jobs [<N>]", "Rewrite concurrently",
      ["", "If this option is used, program files and their terms are rewritten in parallel. " ++
        "If this option is given with a number n, then maximally n rewriting tasks are " ++
        "concurrently executed. If this option is given without an extra argument, then the " ++
        "number of concurrently executed tasks is determined automatically from the number of " ++
        "CPUs."]⟩,
    ⟨"-h, --help", s!"Print help ({more})", []⟩,
    ⟨"-V, --version", "Print version", []⟩]

end HelpEntry

/-- What the command is for. -/
def about : String := "Rewrite program terms with BML rules"

/-- How the command is called. -/
def usage : String := "Usage: bmlrw [OPTIONS] [FILE]..."

/-- The short help of the command. -/
def helpText : String := "\n".intercalate <|
  [about, "", usage, "", "Arguments:"] ++ HelpEntry.shortSection HelpEntry.files ++
    ["Options:"] ++ HelpEntry.shortSection (HelpEntry.options "see more with '--help'")

/-- The long help of the command. -/
def longHelpText : String := "\n".intercalate <|
  [about, "",
    "Every FILE is read as a sequence of program terms. Every term is rewritten with the given " ++
      "rules and printed on its own line.",
    "", usage, "", "Arguments:"] ++ HelpEntry.files.flatMap HelpEntry.longLines ++
    ["Options:"] ++
      (HelpEntry.options "see a summary with '-h'").flatMap HelpEntry.longLines

end TermRules.Command
