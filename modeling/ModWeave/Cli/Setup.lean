import ModWeave.Settings
import ModWeave.Text.Letters

/-! The questions that the operator is asked for new settings. -/
namespace ModWeave.Cli

/-- A question: how it is put, the answer that stands when none is given, and the settings that an
answer leads to, if it is one. -/
structure Question where
  text : String
  current : Settings → String
  answer? : Settings → String → Option Settings

/-- The text without blanks around it. -/
def trimmed (cs : List Char) : List Char :=
  ((cs.dropWhile Text.isBlank).reverse.dropWhile Text.isBlank).reverse

/-- Extensions between commas. Blanks and dots before them are left out. -/
def extensionsOf (text : String) : List String :=
  ((Text.segments (· == ',') text.toList).map fun part =>
    String.ofList ((trimmed part).dropWhile (· == '.'))).filter (· ≠ "")

namespace Question

def languages : List String := ["en", "zh"]

def language : Question where
  text := "Message language (en, zh)"
  current s := (s.language.filter (· ∈ languages)).getD "en"
  answer? s word := if word ∈ languages then some { s with language := some word } else none

def autoMerge : Question where
  text := "Take changes only one side made without asking? (yes, no)"
  current s := if s.merge.autoMergeNovel then "yes" else "no"
  answer? s word :=
    ([("yes", true), ("no", false)].lookup word).map fun b =>
      { s with merge := { s.merge with autoMergeNovel := b } }

def correction : Question where
  text := "Mod files at a different path than the base (smart, keep)"
  current s := s.merge.pathCorrection.name
  answer? s word :=
    ([("smart", PathCorrection.smart), ("keep", .keep)].lookup word).map fun c =>
      { s with merge := { s.merge with pathCorrection := c } }

def extensions : Question where
  text := "Script extensions (comma separated)"
  current s := ",".intercalate s.merge.scriptExtensions
  answer? s words := some { s with merge := { s.merge with scriptExtensions := extensionsOf words } }

def maxTrees : Question where
  text := "Parsed scripts kept in memory"
  current s := toString s.cache.maxTrees
  answer? s word := do
    let n ← word.toNat?
    if n < UInt64.size then some { s with cache := { s.cache with maxTrees := n } } else none

/-- All questions in the order they are put. -/
def all : List Question := [language, autoMerge, correction, extensions, maxTrees]

end Question
end ModWeave.Cli
