import ModWeave.Document.Decode
import ModWeave.Document.Reading

/-!
Messages to the operator. A message is a key and what goes into the holes of the text that a catalog
has for it; a hole is an opening brace with a closing one behind it.
-/
namespace ModWeave

structure Message where
  key : String
  arguments : List String
deriving DecidableEq, Repr

/-- Texts for messages. Those in `texts` come before the English ones, the first of a key before
later ones. -/
structure Catalog where
  texts : List (String × String)
deriving DecidableEq, Repr

namespace Catalog

/-- A text whose holes are written as percent signs. -/
def withHoles (text : String) : String :=
  String.ofList (text.toList.flatMap fun c => if c = '%' then ['{', '}'] else [c])

def english : List (String × String) := [
  ("BASE_NOT_FOUND", "Base archive not found: %"),
  ("BASE_INDEXED", "Indexed % files from % in % ms"),
  ("MOD_EXTRACTED", "Extracted % files from %"),
  ("MOD_LIST", "Merging % mod(s) over %"),
  ("DUPLICATE_ENTRY", "Duplicate entry % in %, the copy from % wins"),
  ("PATH_SUGGESTION", "% does not match the base layout, the base ships it as %"),
  ("PATH_CORRECTED", "Using corrected path % for %"),
  ("PATH_UNKNOWN", "% is not part of the base archive, keeping it as an addition"),
  ("FILE_COPIED", "Copied %"),
  ("FILE_IDENTICAL", "% is identical in all mods"),
  ("FILE_NOT_SCRIPT", "% cannot be merged, using the copy from %"),
  ("FILE_MERGED", "Merged % (% mods)"),
  ("FILE_MERGED_WITH_CONFLICTS", "Merged % with % conflict(s) resolved"),
  ("FILE_PARSE_FAILED", "Could not parse %: %, using the copy from %"),
  ("FILE_FAILED", "Failed to process %: %"),
  ("FILE_FAILED_FALLBACK", "Failed to merge %: %, using the copy from %"),
  ("PACK_CREATED", "Merged archive written to %"),
  ("REPORT_WRITTEN", "Resolution report written to %"),
  ("CONFLICT_MODIFICATION", "%: % and % both change % (line % / line %)"),
  ("CONFLICT_REMOVAL", "%: % removes % defined by % (line %)"),
  ("CHOICE_BASE", "Keep the version from %"),
  ("CHOICE_MERGE", "Use the version from %"),
  ("CHOICE_ALL_BASE", "Keep % for all remaining conflicts"),
  ("CHOICE_ALL_MERGE", "Use % for all remaining conflicts"),
  ("CHOICE_PROMPT", "Choose a resolution"),
  ("SUMMARY", "Processed % files: % copied, % merged, % merged with conflicts, % failed")]

def chinese : List (String × String) := [
  ("BASE_NOT_FOUND", "基准压缩包不存在：%"),
  ("BASE_INDEXED", "已索引 % 个文件（%），耗时 % 毫秒"),
  ("MOD_EXTRACTED", "已解压 % 个文件（来自 %）"),
  ("DUPLICATE_ENTRY", "检测到重复文件 %（%），使用来自 % 的版本"),
  ("PATH_SUGGESTION", "% 与基准路径不一致，基准路径为 %"),
  ("PATH_CORRECTED", "使用修正后的路径 %（原路径 %）"),
  ("FILE_MERGED", "已合并 %（% 个模组）"),
  ("FILE_MERGED_WITH_CONFLICTS", "已合并 %，解决了 % 个冲突"),
  ("FILE_FAILED_FALLBACK", "合并 % 失败：%，使用来自 % 的版本"),
  ("CHOICE_BASE", "保留 % 的版本"),
  ("CHOICE_MERGE", "使用 % 的版本"),
  ("CHOICE_ALL_BASE", "剩余冲突全部保留 %"),
  ("CHOICE_ALL_MERGE", "剩余冲突全部使用 %"),
  ("CHOICE_PROMPT", "请选择解决方案")]

/-- The catalog of a language, told by the first two letters of its name in either case. There is
English, and Chinese for some messages. -/
def ofLanguage (language : Option String) : Catalog :=
  match (language.map fun l => l.toList.map Char.toLower) with
  | some ('z' :: 'h' :: _) => ⟨chinese.map fun (key, text) => (key, withHoles text)⟩
  | _ => ⟨[]⟩

/-- The catalog with more texts, or others. Of several for one key the last one counts. -/
def override (c : Catalog) (texts : List (String × String)) : Catalog := ⟨texts.reverse ++ c.texts⟩

/-- The catalog with the texts in a JSON document. -/
def overrideBy? (c : Catalog) (document : List Char) : Option Catalog :=
  ((Document.parse? document).bind Document.toTexts?).map c.override

/-- The text for a key. An empty one counts as none. -/
def text? (c : Catalog) (key : String) : Option String :=
  (c.texts.lookup key).filter (· ≠ "") <|> (english.lookup key).map withHoles

/-- Fills the holes of a text in order. Holes that nothing is left for stay. -/
def fill : List Char → List String → List Char
  | '{' :: '}' :: rest, argument :: arguments => argument.toList ++ fill rest arguments
  | '{' :: '}' :: rest, [] => '{' :: '}' :: fill rest []
  | c :: rest, arguments => c :: fill rest arguments
  | [], _ => []

/-- A message as it is shown. A key without a text stands for itself. -/
def render (c : Catalog) (m : Message) : String :=
  match c.text? m.key with
  | some text => String.ofList (fill text.toList m.arguments)
  | none => m.key

end Catalog
end ModWeave
