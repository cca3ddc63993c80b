/-!
Help pages. A page has sections of rows; a row tells what can be written on the left and what it
stands for on the right. A page with choices to explain has a long form too, in which what a row
stands for comes below it.
-/
namespace ModWeave.Cli

/-- A row of a page. -/
structure HelpRow where
  left : String
  text : String
  /-- The value that stands when none is given. -/
  default? : Option String := none
  /-- The values that can be given, with what they stand for. -/
  choices : List (String × String) := []
deriving DecidableEq, Repr

structure HelpSection where
  title : String
  rows : List HelpRow
deriving DecidableEq, Repr

structure HelpPage where
  about : String
  /-- What a command line looks like, behind the program's name. -/
  usage : String
  sections : List HelpSection
deriving DecidableEq, Repr

/-- A text with blanks behind it up to a width. -/
def padded (width : Nat) (text : String) : String :=
  String.ofList (text.toList.rightpad width ' ')

/-- The greatest length among some texts. -/
def widest (texts : List String) : Nat := (texts.map String.length).foldl max 0

namespace HelpRow

def defaultNote (r : HelpRow) : List String :=
  (r.default?.map fun value => s!"[default: {value}]").toList

def choicesNote (r : HelpRow) : List String :=
  if r.choices.isEmpty then []
  else ["[possible values: " ++ ", ".intercalate (r.choices.map (·.1)) ++ "]"]

/-- The row on one line, its right side behind a left one of some width. -/
def short (width : Nat) (r : HelpRow) : String :=
  "  " ++ padded width r.left ++ "  " ++ " ".intercalate (r.text :: r.defaultNote ++ r.choicesNote)

/-- What stands before a line of the right side in the long form. -/
def indent : String := "\n" ++ padded 10 ""

/-- The choices one below the other. -/
def choiceList (r : HelpRow) : String :=
  if r.choices.isEmpty then ""
  else
    let width := widest (r.choices.map (·.1))
    "\n" ++ indent ++ "Possible values:" ++ String.join (r.choices.map fun (name, text) =>
      indent ++ "- " ++ padded (width + 2) (name ++ ": ") ++ text)

/-- The row with its right side below it. -/
def long (r : HelpRow) : String :=
  "  " ++ r.left ++ indent ++ r.text ++ r.choiceList ++
    String.join (r.defaultNote.map fun note => indent ++ indent ++ note)

end HelpRow

namespace HelpSection

def short (s : HelpSection) : String :=
  let width := widest (s.rows.map (·.left))
  s.title ++ ":\n" ++ "\n".intercalate (s.rows.map (·.short width))

def long (s : HelpSection) : String :=
  s.title ++ ":\n" ++ "\n\n".intercalate (s.rows.map (·.long))

end HelpSection

namespace HelpPage

/-- Whether the page has choices to explain. -/
def hasLong (p : HelpPage) : Bool := p.sections.any (·.rows.any (!·.choices.isEmpty))

/-- The page as a text, in its long form if that is wanted and there is one. -/
def text (p : HelpPage) (long : Bool) : String :=
  let sections := p.sections.map fun s => if long && p.hasLong then s.long else s.short
  "\n\n".intercalate (p.about :: ("Usage: modmerge" ++ p.usage) :: sections) ++ "\n"

end HelpPage

/-- The section of options, which ends with the one that asks for help. -/
def optionSection (rows : List HelpRow) (help : String) : HelpSection :=
  ⟨"Options", rows ++ [{ left := "-h, --help", text := help }]⟩

/-- The page of a command whose arguments have names alone. -/
def plainPage (about name : String) (arguments : List String) : HelpPage where
  about := about
  usage := String.join ((name :: arguments).map (" " ++ ·))
  sections :=
    (if arguments.isEmpty then []
      else [⟨"Arguments", arguments.map fun left => { left, text := "" }⟩]) ++
    [optionSection [] "Print help"]

/-- The page of the merge. What its last row says depends on the form that is wanted. -/
def mergePage (long : Bool) : HelpPage where
  about := "Merge mods over a base archive"
  usage := " merge [OPTIONS] --base <BASE> --output <OUTPUT> <MODS>..."
  sections := [
    ⟨"Arguments", [{ left := "<MODS>...", text := "Mod archives, lowest priority first" }]⟩,
    optionSection [
      { left := "    --base <BASE>", text := "Base (vanilla) archive" },
      { left := "    --output <OUTPUT>", text := "Output archive; its extension picks the format" },
      { left := "    --policy <POLICY>"
        text := "How to settle conflicts that need a decision"
        default? := some "prompt"
        choices := [
          ("prompt", "Ask for every conflict"),
          ("base", "Keep the earlier mod's version"),
          ("mod", "Take the later mod's version")] },
      { left := "    --keep-temp", text := "Keep extracted files after the run" }]
      (if long then "Print help (see a summary with '-h')"
        else "Print help (see more with '--help')")]

/-- The page of the command that shows pages. -/
def helpPage : HelpPage where
  about := "Print this message or the help of the given subcommand(s)"
  usage := " help [COMMAND]..."
  sections :=
    [⟨"Arguments", [{ left := "[COMMAND]...", text := "Print help for the subcommand(s)" }]⟩]

/-- The pages of all commands. -/
def commandPages (long : Bool) : List (String × HelpPage) := [
  ("merge", mergePage long),
  ("index", plainPage "List every file of an archive with its provenance" "index" ["<ARCHIVE>"]),
  ("tree", plainPage "Print the signature tree of a script or XML file" "tree" ["<SCRIPT>"]),
  ("compare", plainPage "Print the conflicts between two versions of a script or XML file" "compare"
    ["<BASE>", "<MODDED>"]),
  ("setup", plainPage "Run interactive setup wizard" "setup" []),
  ("help", helpPage)]

/-- The page of the program. -/
def programPage : HelpPage where
  about := "Merge game mod archives script construct by script construct"
  usage := " [OPTIONS] <COMMAND>"
  sections := [
    ⟨"Commands", (commandPages false).map fun (left, page) => { left, text := page.about }⟩,
    optionSection [
      { left := "    --data-dir <DATA_DIR>"
        text := "Path to the data directory (settings and logs)"
        default? := some ".modmerge" },
      { left := "    --config <CONFIG>", text := "Settings file [default: <data-dir>/settings.json]" },
      { left := "-v, --verbose", text := "Log at debug level" }]
      "Print help"]

/-- Help on a command, or on the program. -/
def helpText (topic? : Option String) (long : Bool) : String :=
  let page? := topic?.bind fun name => (commandPages long).lookup name
  (page?.getD programPage).text long

end ModWeave.Cli
