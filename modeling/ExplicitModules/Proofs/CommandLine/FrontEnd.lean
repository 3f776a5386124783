import ExplicitModules.CommandLine.Answer
import ExplicitModules.Proofs.CommandLine.Flags
import ExplicitModules.Proofs.Conversion.Account
import ExplicitModules.Proofs.Text.JsonReading

/-!
# The command line as a front end

The answer to a command line relays the run that its options ask for: by the exit code whether there
is a report, on standard output the modified files as they are noted or the report alone. What is
logged, and how, makes no difference to it.
-/
namespace ExplicitModules.CommandLine
set_option autoImplicit false
open Text (JsonValue jsonString objectText readObject?)

def reportMembers (report : Report) : List (String × JsonValue) := [
  ("schema_version", .number reportVersion),
  ("root_dir", .string report.root.text),
  ("files_checked", .number report.filesChecked),
  ("files_modified", .strings (report.filesModified.map Path.text)),
  ("specifiers_rewritten", .number report.specifiersReplaced),
  ("dry_run", .boolean report.dryRun)]

theorem toList_reportJson (report : Report) :
    (reportJson report).toList = objectText (reportMembers report) := by
  have hFiles : (String.intercalate ","
      (report.filesModified.map fun p => jsonString p.text)).toList =
        [','].intercalate ((report.filesModified.map Path.text).map fun text =>
          (jsonString text).toList) := by
    rw [String.toList_intercalate, List.map_map, List.map_map]
    rfl
  have hVersion : "\x7b\"schema_version\":".toList =
      '\x7b' :: ((jsonString "schema_version").toList ++ [':']) := by decide +kernel
  have hRoot : ",\"root_dir\":".toList =
      ',' :: ((jsonString "root_dir").toList ++ [':']) := by decide +kernel
  have hChecked : ",\"files_checked\":".toList =
      ',' :: ((jsonString "files_checked").toList ++ [':']) := by decide +kernel
  have hModified : ",\"files_modified\":[".toList =
      ',' :: ((jsonString "files_modified").toList ++ [':', '[']) := by decide +kernel
  have hReplaced : ",\"specifiers_rewritten\":".toList =
      ',' :: ((jsonString "specifiers_rewritten").toList ++ [':']) := by decide +kernel
  have hDry : ",\"dry_run\":".toList =
      ',' :: ((jsonString "dry_run").toList ++ [':']) := by decide +kernel
  unfold reportJson
  dsimp only
  simp only [String.toList_append, hFiles, hVersion, hRoot, hChecked, hModified, hReplaced, hDry]
  simp only [objectText, reportMembers, List.map_cons, List.map_nil, List.intercalate_cons_cons,
    List.intercalate_singleton, Text.memberText, JsonValue.text, List.append_assoc,
    List.cons_append, List.nil_append]
  rfl

/-- The answer `a` relays the run with the given result, as the options `o` ask for it. -/
structure Relays (o : Options) (result : Conversion.Result) (a : Answer) : Prop where
  succeeds : a.code = 0 ↔ ∃ report, result.report = .ok report
  fails : a.code = 1 ↔ ∃ fault, result.report = .error fault
  tree : a.tree = result.tree
  told : o.json = false → a.output = lines ((result.events.filterMap Event.modifiedPath?).map
    fun p => (if o.dryRun then "Would modify: " else "Modified: ") ++ p.text)
  reported : o.json = true → ∀ report, result.report = .ok report →
    ∃ line, a.output = line ++ "\n" ∧ '\n' ∉ line.toList ∧
      readObject? line.toList = some (reportMembers report)
  silent : o.json = true → ∀ fault, result.report = .error fault → a.output = ""

theorem filterMap_modifiedLine? (dryRun : Bool) (events : List Event) :
    events.filterMap (modifiedLine? dryRun) = (events.filterMap Event.modifiedPath?).map
      fun p => (if dryRun then "Would modify: " else "Modified: ") ++ p.text := by
  rw [List.map_filterMap]
  refine List.filterMap_congr fun e _ => ?_
  cases e <;> rfl

section Convert

variable (names : Conversion.TemporaryNames) (t : FileTree) (workingDirectory : Path)

theorem convert_relays (o : Options) :
    Relays o (Conversion.run names t (o.projectOptions workingDirectory) o.conversionSettings)
      (o.convert names t workingDirectory) := by
  unfold Options.convert
  generalize Conversion.run names t (o.projectOptions workingDirectory) o.conversionSettings = result
  obtain ⟨tree, events, report⟩ := result
  constructor
  case succeeds | fails => cases report <;> simp [Except.isOk, Except.toBool]
  case tree => rfl
  case told =>
    intro hPlain
    dsimp only
    rw [Options.outputOf, hPlain, if_neg Bool.false_ne_true, filterMap_modifiedLine?]
  case reported =>
    rintro hJson report rfl
    refine ⟨reportJson report, ?_, ?_, ?_⟩
    · simp only [Options.outputOf, hJson, if_true]
    · rw [toList_reportJson]
      exact Text.newline_not_mem_objectText _
    · rw [toList_reportJson]
      exact Text.readObject?_objectText (List.cons_ne_nil _ _)
  case silent =>
    rintro hJson fault rfl
    simp only [Options.outputOf, hJson, if_true]

theorem convert_eq_of_agree {jsonMatters : Prop} {o o' : Options} (h : o.Agree jsonMatters o') :
    (o.convert names t workingDirectory).code = (o'.convert names t workingDirectory).code ∧
      (o.convert names t workingDirectory).tree = (o'.convert names t workingDirectory).tree ∧
      (jsonMatters → (o.convert names t workingDirectory).output =
        (o'.convert names t workingDirectory).output) := by
  have hOptions : o.projectOptions workingDirectory = o'.projectOptions workingDirectory := by
    simp only [Options.projectOptions, Options.shownDirectory, h.project, h.directory]
  obtain ⟨hTree, hReport, hTold⟩ := Conversion.run_debug names t
    (o'.projectOptions workingDirectory) o.conversionSettings.debug o'.conversionSettings.debug
    o'.dryRun
  have hModified := congrArg (List.filterMap Event.modifiedPath?) hTold
  rw [Conversion.filterMap_essential, Conversion.filterMap_essential] at hModified
  have hSettings : o.conversionSettings = ⟨o.conversionSettings.debug, o'.dryRun⟩ := by
    rw [← h.dryRun]
    rfl
  unfold Options.convert
  rw [hOptions, hSettings]
  refine ⟨?_, hTree, fun hMatters => ?_⟩
  · dsimp only
    rw [hReport]
    rfl
  · dsimp only [Options.outputOf]
    rw [h.json hMatters, h.dryRun, hReport, filterMap_modifiedLine?, filterMap_modifiedLine?, hModified]
    rfl

end Convert

end ExplicitModules.CommandLine
