import ModWeave.Document.Decode
import ModWeave.Document.Reading
import ModWeave.Document.Writing
import ModWeave.Text.Path
import ModWeave.Text.Segments
import ModWeave.Tree.Language

/-! What the operator sets for all runs. Settings are kept as a JSON document; what it leaves out has a
default. -/
namespace ModWeave

/-- What happens to a file that the base has under another path. -/
inductive PathCorrection where
  /-- It gets the path that the base has. -/
  | smart
  /-- It keeps its own. -/
  | keep
deriving DecidableEq, Repr

structure MergeSettings where
  /-- Whether a change that only one side made is taken without asking. -/
  autoMergeNovel : Bool
  pathCorrection : PathCorrection
  scriptExtensions : List String
  markupExtensions : List String
deriving DecidableEq, Repr

structure CacheSettings where
  /-- How many parsed trees are kept. -/
  maxTrees : Nat
  /-- For how many seconds they are. -/
  lifetime : Nat
deriving DecidableEq, Repr

structure Settings where
  merge : MergeSettings
  cache : CacheSettings
  /-- The folder for scratch folders, if it is not the system's. -/
  tempRoot : Option String
  language : Option String
  /-- A file with more messages, or others. -/
  messagesFile : Option String
deriving DecidableEq, Repr

namespace PathCorrection

def name : PathCorrection → String
  | smart => "smart"
  | keep => "keep"

end PathCorrection

namespace MergeSettings

def default : MergeSettings := ⟨true, .smart, ["scr", "def", "loot"], ["xml"]⟩

/-- Whether a name has one of some extensions, in either case. -/
def hasExtension (extensions : List String) (name : String) : Bool :=
  match Text.afterLast? '.' name.toList with
  | some extension => extensions.any fun e => e.toList.map Char.toLower = extension.map Char.toLower
  | none => false

def isScript (s : MergeSettings) (name : String) : Bool := hasExtension s.scriptExtensions name

def isMarkup (s : MergeSettings) (name : String) : Bool := hasExtension s.markupExtensions name

/-- The language that a file is merged in, if it can be. -/
def language? (s : MergeSettings) (name : String) : Option Language :=
  if s.isMarkup name then some .markup else if s.isScript name then some .script else none

def toDocument (s : MergeSettings) : Document :=
  .ofFields [("auto_merge_novel", .bool s.autoMergeNovel),
    ("path_correction", .ofString s.pathCorrection.name),
    ("script_extensions", .ofStrings s.scriptExtensions),
    ("xml_extensions", .ofStrings s.markupExtensions)]

def ofDocument? (d : Document) : Option MergeSettings := do
  let fields ← d.structure?
    ["auto_merge_novel", "path_correction", "script_extensions", "xml_extensions"]
  match fields with
  | [novel, correction, script, markup] =>
    return {
      autoMergeNovel := ← Document.orElse? novel default.autoMergeNovel Document.toBool?
      pathCorrection := ← Document.orElse? correction default.pathCorrection
        (Document.choice? [("smart", .smart), ("keep", .keep)])
      scriptExtensions := ← Document.orElse? script default.scriptExtensions Document.toStrings?
      markupExtensions := ← Document.orElse? markup default.markupExtensions Document.toStrings? }
  | _ => none

end MergeSettings

namespace CacheSettings

def default : CacheSettings := ⟨64, 600⟩

def toDocument (s : CacheSettings) : Document :=
  .ofFields [("max_trees", .natural s.maxTrees), ("ttl_secs", .natural s.lifetime)]

def ofDocument? (d : Document) : Option CacheSettings := do
  match ← d.structure? ["max_trees", "ttl_secs"] with
  | [maxTrees, lifetime] =>
    return {
      maxTrees := ← Document.orElse? maxTrees default.maxTrees Document.toWord?
      lifetime := ← Document.orElse? lifetime default.lifetime Document.toWord? }
  | _ => none

end CacheSettings

namespace Settings

def default : Settings := ⟨.default, .default, none, none, none⟩

def toDocument (s : Settings) : Document :=
  .ofFields [("merge", s.merge.toDocument), ("cache", s.cache.toDocument),
    ("temp_root", .ofString? s.tempRoot), ("language", .ofString? s.language),
    ("messages_file", .ofString? s.messagesFile)]

def ofDocument? (d : Document) : Option Settings := do
  let string? (field : Option Document) : Option (Option String) :=
    Document.orElse? field none (Document.toOption? Document.toString?)
  match ← d.structure? ["merge", "cache", "temp_root", "language", "messages_file"] with
  | [merge, cache, tempRoot, language, messagesFile] =>
    return {
      merge := ← Document.orElse? merge .default MergeSettings.ofDocument?
      cache := ← Document.orElse? cache .default CacheSettings.ofDocument?
      tempRoot := ← string? tempRoot
      language := ← string? language
      messagesFile := ← string? messagesFile }
  | _ => none

/-- The text that settings are saved as. -/
def text (s : Settings) : List Char := s.toDocument.pretty

/-- The settings that a text holds. -/
def parse? (cs : List Char) : Option Settings := (Document.parse? cs).bind ofDocument?

/-- The language of messages: the one set, else that of the environment. An empty one is none. -/
def messageLanguage (s : Settings) (environment : Option String) : Option String :=
  (s.language <|> environment).filter (· ≠ "")

end Settings
end ModWeave
