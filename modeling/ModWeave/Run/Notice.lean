import ModWeave.Run.Message
import ModWeave.Run.Report

/-! What a merge run tells the operator, and what it asks. -/
namespace ModWeave

inductive NoticeLevel where
  | success
  | warning
  | error
deriving DecidableEq, Repr

/-- One thing that a run tells. -/
inductive Notice where
  | baseNotFound (path : String)
  | modList (mods : Nat) (base : String)
  /-- The time is in milliseconds. -/
  | baseIndexed (files : Nat) (archive : String) (time : Nat)
  | modExtracted (files : Nat) (archive : String)
  | duplicateEntry (entry archive kept : String)
  | pathSuggestion (entry canonical : String)
  | pathCorrected (canonical entry : String)
  | pathUnknown (entry : String)
  | fileCopied (entry : String)
  | fileIdentical (entry : String)
  | fileNotMergeable (entry source : String)
  | fileMerged (entry : String) (mods : Nat)
  | fileMergedWithConflicts (entry : String) (conflicts : Nat)
  | fileParseFailed (entry failed reason source : String)
  | fileFailed (entry reason : String) (fallback : Option String)
  | packCreated (output : String)
  | reportWritten (path : String)
  | summary (s : Summary)
deriving DecidableEq, Repr

namespace Notice

def level : Notice → NoticeLevel
  | duplicateEntry .. | pathSuggestion .. | pathUnknown _ | fileNotMergeable .. | fileParseFailed .. =>
    .warning
  | baseNotFound _ | fileFailed .. => .error
  | _ => .success

def message : Notice → Message
  | baseNotFound path => ⟨"BASE_NOT_FOUND", [path]⟩
  | modList mods base => ⟨"MOD_LIST", [toString mods, base]⟩
  | baseIndexed files archive time => ⟨"BASE_INDEXED", [toString files, archive, toString time]⟩
  | modExtracted files archive => ⟨"MOD_EXTRACTED", [toString files, archive]⟩
  | duplicateEntry entry archive kept => ⟨"DUPLICATE_ENTRY", [entry, archive, kept]⟩
  | pathSuggestion entry canonical => ⟨"PATH_SUGGESTION", [entry, canonical]⟩
  | pathCorrected canonical entry => ⟨"PATH_CORRECTED", [canonical, entry]⟩
  | pathUnknown entry => ⟨"PATH_UNKNOWN", [entry]⟩
  | fileCopied entry => ⟨"FILE_COPIED", [entry]⟩
  | fileIdentical entry => ⟨"FILE_IDENTICAL", [entry]⟩
  | fileNotMergeable entry source => ⟨"FILE_NOT_SCRIPT", [entry, source]⟩
  | fileMerged entry mods => ⟨"FILE_MERGED", [entry, toString mods]⟩
  | fileMergedWithConflicts entry conflicts =>
    ⟨"FILE_MERGED_WITH_CONFLICTS", [entry, toString conflicts]⟩
  | fileParseFailed entry failed reason source =>
    ⟨"FILE_PARSE_FAILED", [s!"{entry} ({failed})", reason, source]⟩
  | fileFailed entry reason (some source) => ⟨"FILE_FAILED_FALLBACK", [entry, reason, source]⟩
  | fileFailed entry reason none => ⟨"FILE_FAILED", [entry, reason]⟩
  | packCreated output => ⟨"PACK_CREATED", [output]⟩
  | reportWritten path => ⟨"REPORT_WRITTEN", [path]⟩
  | summary s => ⟨"SUMMARY",
      [s.processed, s.copied, s.merged, s.mergedWithConflicts, s.failed].map toString⟩

end Notice

namespace Conflict

/-- A conflict in one line. -/
def message (c : Conflict) : Message :=
  match c.mod with
  | some m => ⟨"CONFLICT_MODIFICATION", [c.names.file, c.names.base, c.names.mod, c.location,
      toString c.base.node.line, toString m.node.line]⟩
  | none => ⟨"CONFLICT_REMOVAL", [c.names.file, c.names.mod, c.location, c.names.base,
      toString c.base.node.line]⟩

/-- A choice, as it is offered for a conflict. -/
def choiceMessage (c : Conflict) : Choice → Message
  | .keepBase => ⟨"CHOICE_BASE", [c.names.base]⟩
  | .takeMod => ⟨"CHOICE_MERGE", [c.names.mod]⟩
  | .keepAllBase => ⟨"CHOICE_ALL_BASE", [c.names.base]⟩
  | .takeAllMod => ⟨"CHOICE_ALL_MERGE", [c.names.mod]⟩

/-- A choice with its number. -/
def choiceLabel (c : Conflict) (texts : Catalog) (choice : Choice) : String :=
  s!"{choice.number}. " ++ texts.render (c.choiceMessage choice)

end Conflict

end ModWeave
