import ExplicitModules.Proofs.Conversion.Result
import ExplicitModules.Proofs.Conversion.Steps

/-!
# The account of a run

The events of a run, file after file and declaration after declaration, and the report as a tally of
them. The events of debugging are told besides the others: neither the others nor the tree nor the end
of the run depend on whether they are told.
-/
namespace ExplicitModules
set_option autoImplicit false
open Source

namespace Event

def isReplacement : Event → Bool
  | .specifierReplaced .. => true
  | _ => false

def modifiedPath? : Event → Option Path
  | .fileModified path => some path
  | _ => none

def isDebugging : Event → Bool
  | .fileChecked _ | .probeMissed _ | .noReplacement .. => true
  | .specifierReplaced .. | .fileModified _ => false

end Event

namespace Conversion

/-- The files that decide about `s`, if it takes an extension. -/
def lookedFor (root : Path) (s : Specifier) : List Path :=
  if s.extension = "" then (Replacement.candidates root s).map Candidate.path else []

def declarationAccount (t : FileTree) (root : Path) (debug : Bool) (p : Path) (d : Declaration) :
    List Event :=
  let s := Specifier.ofText p d.specifier.value
  match replacement? t root p d with
  | some r => [.specifierReplaced p d r.specifier]
  | none =>
    if debug = true ∧ s.isRelative = true ∧ d.hasAttributes = false then
      (lookedFor root s).map .probeMissed ++ [.noReplacement p d.specifier.value]
    else []

def declarationAccounts (t : FileTree) (root : Path) (debug : Bool) (p : Path) : List Event :=
  match t.readText p with
  | .ok text => (declarations text).flatMap (declarationAccount t root debug p)
  | .error _ => []

def fileAccount (t : FileTree) (root : Path) (settings : ConversionSettings) (p : Path) :
    List Event :=
  let told := declarationAccounts t root settings.debug p
  (if settings.debug then [.fileChecked p] else []) ++ told ++
    if told.any Event.isReplacement then [.fileModified p] else []

/-- The tree that the file `p` leaves: if it gets an edit, it is replaced, unless the run is dry. -/
def treeAfter (t : FileTree) (root : Path) (dryRun : Bool) (p : Path) : FileTree :=
  match t.readText p with
  | .error _ => t
  | .ok text =>
    if explicitEdits t root p text = [] ∨ dryRun = true then t
    else
      match t.replaceFile p (explicitText t root p text).toUTF8 with
      | .ok u => u
      | .error _ => t

/-- The accounts of files that are converted one after the other, each in the tree that the ones
before have left. -/
def accounts (root : Path) (settings : ConversionSettings) : FileTree → List Path → List Event
  | _, [] => []
  | t, p :: rest =>
    fileAccount t root settings p ++ accounts root settings (treeAfter t root settings.dryRun p) rest

def Progress.after (progress : Progress) (tree : FileTree) (checked : Nat) (told : List Event) :
    Progress where
  tree := tree
  events := progress.events ++ told
  report := { progress.report with
    filesChecked := progress.report.filesChecked + checked
    filesModified := progress.report.filesModified ++ told.filterMap Event.modifiedPath?
    specifiersReplaced := progress.report.specifiersReplaced + told.countP Event.isReplacement }

theorem Progress.after_after (progress : Progress) (t u : FileTree) (n m : Nat)
    (told more : List Event) :
    (progress.after t n told).after u m more = progress.after u (n + m) (told ++ more) := by
  simp only [Progress.after, List.filterMap_append, List.countP_append, List.append_assoc,
    Nat.add_assoc]

section Declaration

variable (t : FileTree) (root : Path) (debug : Bool) (p : Path) (d : Declaration)

/-- For a specifier that stays all that could be looked for was looked for. -/
theorem tried_eq_lookedFor {t : FileTree} {root : Path} {s : Specifier}
    (hNone : (Replacement.decisionFor t root s false).replacement = none)
    (hRelative : s.isRelative = true) :
    (Replacement.decisionFor t root s false).tried = lookedFor root s := by
  unfold Replacement.decisionFor at hNone ⊢
  rw [hRelative, if_neg (show ¬(false || !true) = true from nofun)] at hNone ⊢
  unfold lookedFor
  split at hNone
  · cases hNone
  · rename_i hData
    rw [if_neg hData]
    split
    · rename_i hPlain
      rw [if_pos hPlain] at hNone
      have hMissed := List.find?_eq_none.mp (Option.map_eq_none_iff.mp hNone)
      refine congrArg (List.map Candidate.path) (List.takeWhile_eq_self_iff.mpr fun c hC => ?_)
      simp only [hMissed c hC, Bool.not_false]
    · rfl

theorem declarationEvents_eq_account :
    declarationEvents t root debug p = declarationAccount t root debug p := by
  funext d
  unfold declarationEvents declarationAccount replacement?
  dsimp only
  cases hDecision : (Replacement.decisionFor t root (.ofText p d.specifier.value)
      d.hasAttributes).replacement with
  | some r => rfl
  | none =>
    dsimp only
    simp only [Bool.and_eq_true, Bool.not_eq_true', and_assoc]
    split
    · rename_i hTold
      obtain ⟨-, hRelative, hPlain⟩ := hTold
      rw [hPlain] at hDecision ⊢
      rw [tried_eq_lookedFor hDecision hRelative]
      rfl
    · rfl

/-- A declaration is told to be replaced once if it has a replacement. -/
theorem countP_declarationAccount :
    (declarationAccount t root debug p d).countP Event.isReplacement =
      (writtenText? t root p d).toList.length := by
  unfold declarationAccount writtenText?
  dsimp only
  cases replacement? t root p d with
  | some r => rfl
  | none =>
    dsimp only
    split
    · simp [List.countP_map, Event.isReplacement, Function.comp_def]
    · rfl

theorem filterMap_declarationAccount :
    (declarationAccount t root debug p d).filterMap Event.modifiedPath? = [] := by
  unfold declarationAccount
  dsimp only
  split
  · rfl
  · split
    · simp [List.filterMap_map, Event.modifiedPath?, Function.comp_def]
    · rfl

/-- Besides debugging nothing is told of a declaration but that it was replaced. -/
theorem filter_declarationAccount :
    (declarationAccount t root debug p d).filter (fun e => !e.isDebugging) =
      declarationAccount t root false p d := by
  unfold declarationAccount
  dsimp only
  split
  · rfl
  · rw [if_neg (show ¬(false = true ∧ _) from fun hTold => Bool.false_ne_true hTold.1)]
    split
    · simp [List.filter_map, Event.isDebugging, Function.comp_def]
    · rfl

end Declaration

section File

variable (t : FileTree) (root : Path) (debug : Bool) (settings : ConversionSettings) (p : Path)

theorem declarationAccounts_of_ok {text : String} (hText : t.readText p = .ok text) :
    declarationAccounts t root debug p = fileEvents t root debug p text := by
  simp only [declarationAccounts, hText, fileEvents, declarationEvents_eq_account]

theorem countP_fileEvents (text : String) :
    (fileEvents t root debug p text).countP Event.isReplacement =
      (explicitEdits t root p text).length := by
  unfold fileEvents explicitEdits
  rw [declarationEvents_eq_account]
  induction declarations text with
  | nil => rfl
  | cons d ds ih =>
    rw [List.flatMap_cons, List.countP_append, ih, countP_declarationAccount, editsBy_cons,
      List.length_append]
    cases writtenText? t root p d <;> rfl

theorem any_fileEvents (text : String) :
    (fileEvents t root debug p text).any Event.isReplacement = true ↔
      explicitEdits t root p text ≠ [] := by
  rw [List.any_eq_true, ← List.countP_pos_iff, countP_fileEvents, List.length_pos_iff]

theorem filterMap_fileEvents (text : String) :
    (fileEvents t root debug p text).filterMap Event.modifiedPath? = [] := by
  unfold fileEvents
  rw [declarationEvents_eq_account, List.filterMap_flatMap]
  simp [filterMap_declarationAccount]

theorem fileAccount_of_ok {text : String} (hText : t.readText p = .ok text) :
    fileAccount t root settings p =
      visitEvents settings p ++ fileEvents t root settings.debug p text ++
        if explicitEdits t root p text = [] then [] else [.fileModified p] := by
  unfold fileAccount visitEvents
  simp only [declarationAccounts_of_ok t root _ p hText, any_fileEvents, ne_eq, ite_not]

theorem fileAccount_of_error {e : FileError} (hText : t.readText p = .error e) :
    fileAccount t root settings p = visitEvents settings p := by
  simp only [fileAccount, visitEvents, declarationAccounts, hText, List.append_nil, List.any_nil,
    Bool.false_eq_true, if_false]

theorem treeAfter_of_saves {names : TemporaryNames} {text : String} {u : FileTree}
    (hText : t.readText p = .ok text) (hSome : explicitEdits t root p text ≠ [])
    (hSaves : Saves names root settings t p text u) : treeAfter t root settings.dryRun p = u := by
  unfold treeAfter
  simp only [hText, hSome, false_or]
  rcases hSaves with ⟨hDry, rfl⟩ | ⟨hReal, -, hReplace⟩
  · rw [if_pos hDry]
  · rw [if_neg (hReal ▸ Bool.false_ne_true), hReplace]

theorem countP_visitEvents : (visitEvents settings p).countP Event.isReplacement = 0 := by
  unfold visitEvents
  split <;> rfl

theorem filterMap_visitEvents : (visitEvents settings p).filterMap Event.modifiedPath? = [] := by
  unfold visitEvents
  split <;> rfl

def accountBeforeSave (t : FileTree) (root : Path) (settings : ConversionSettings) (p : Path) :
    List Event :=
  visitEvents settings p ++ declarationAccounts t root settings.debug p

theorem examined_eq_after {progress : Progress} {text : String}
    (hRead : progress.tree.readText p = .ok text) :
    examined root settings progress p text =
      progress.after progress.tree 1 (accountBeforeSave progress.tree root settings p) := by
  simp only [examined, Progress.after, accountBeforeSave, declarationAccounts_of_ok _ _ _ _ hRead,
    List.filterMap_append, List.countP_append, countP_visitEvents, filterMap_visitEvents,
    countP_fileEvents, filterMap_fileEvents, List.append_nil, Nat.zero_add]

/-- Converting a file is telling its account, or that before saving if it ends the run there, and
counting what was told. -/
theorem convertFile_account (names : TemporaryNames) (progress : Progress) :
    (convertFile names root settings progress p).progress =
      if (convertFile names root settings progress p).fault = none then
        progress.after (treeAfter progress.tree root settings.dryRun p) 1
          (fileAccount progress.tree root settings p)
      else progress.after progress.tree 1 (accountBeforeSave progress.tree root settings p) := by
  cases hRead : progress.tree.readText p with
  | error e =>
    rw [convertFile_of_error hRead, if_neg nofun]
    simp only [Progress.after, visited, accountBeforeSave, declarationAccounts, hRead,
      countP_visitEvents, filterMap_visitEvents, List.append_nil, Nat.add_zero]
  | ok text =>
    have hExamined := examined_eq_after root settings p hRead
    rcases convertFile_of_readText names root settings hRead with
      ⟨hNone, hFile⟩ | ⟨hSome, ⟨u, hSaves, hFile⟩ | ⟨f, -, hFile⟩⟩
    · have hTree : treeAfter progress.tree root settings.dryRun p = progress.tree := by
        simp only [treeAfter, hRead, hNone, true_or, if_true]
      rw [hFile, if_pos rfl, hTree, fileAccount_of_ok _ _ _ _ hRead, if_pos hNone, List.append_nil,
        ← declarationAccounts_of_ok _ _ _ _ hRead]
      exact hExamined
    · rw [hFile, if_pos rfl, treeAfter_of_saves _ _ _ _ hRead hSome hSaves,
        fileAccount_of_ok _ _ _ _ hRead, if_neg hSome, ← declarationAccounts_of_ok _ _ _ _ hRead]
      dsimp only
      rw [hExamined]
      simp only [noted, Progress.after, accountBeforeSave, List.filterMap_append,
        List.countP_append, List.append_assoc]
      rfl
    · rw [hFile, if_neg nofun]
      exact hExamined

end File

/-- Whether a file ends a run depends on the tree, and not on what is told. -/
theorem convertFile_fault_eq {names : TemporaryNames} {root p : Path}
    {settings settings' : ConversionSettings} {progress progress' : Progress}
    (hDry : settings.dryRun = settings'.dryRun) (hTree : progress.tree = progress'.tree) :
    (convertFile names root settings progress p).fault =
      (convertFile names root settings' progress' p).fault := by
  refine Option.ext fun fault => ?_
  rw [convertFile_fault_iff, convertFile_fault_iff, hTree]
  simp only [Blocked, hDry]

/-- A run that comes through its files tells their accounts and counts what was told. -/
theorem convertFiles_account {names : TemporaryNames} {root : Path} {settings : ConversionSettings}
    {progress : Progress} {ps : List Path}
    (h : (convertFiles names root settings progress ps).fault = none) :
    (convertFiles names root settings progress ps).progress =
      progress.after (ps.foldl (fun t p => treeAfter t root settings.dryRun p) progress.tree)
        ps.length (accounts root settings progress.tree ps) := by
  induction ps generalizing progress with
  | nil =>
    simp only [convertFiles, Progress.after, accounts, List.foldl_nil, List.length_nil,
      List.append_nil, List.filterMap_nil, List.countP_nil, Nat.add_zero]
  | cons p rest ih =>
    cases hFault : (convertFile names root settings progress p).fault with
    | some fault =>
      rw [convertFiles_cons_of_some hFault, hFault] at h
      cases h
    | none =>
      rw [convertFiles_cons_of_none hFault] at h ⊢
      rw [ih h, convertFile_account, if_pos hFault, Progress.after_after, List.foldl_cons, accounts,
        List.length_cons, Nat.add_comm 1]
      rfl

def essential (events : List Event) : List Event :=
  events.filter fun e => !e.isDebugging

theorem countP_essential (events : List Event) :
    (essential events).countP Event.isReplacement = events.countP Event.isReplacement := by
  rw [essential, List.countP_filter]
  refine List.countP_congr fun e _ => ?_
  cases e <;> simp [Event.isReplacement, Event.isDebugging]

theorem filterMap_essential (events : List Event) :
    (essential events).filterMap Event.modifiedPath? = events.filterMap Event.modifiedPath? := by
  rw [essential, List.filterMap_filter]
  refine List.filterMap_congr fun e _ => ?_
  cases e <;> rfl

theorem essential_append (events more : List Event) :
    essential (events ++ more) = essential events ++ essential more :=
  List.filter_append events more

/-- Two runs that differ at most in what they tell for debugging. -/
structure Alike (one other : Progress) : Prop where
  tree : one.tree = other.tree
  report : one.report = other.report
  told : essential one.events = essential other.events

section Debugging

variable {one other : Progress} (names : TemporaryNames) (root : Path) (debug debug' dryRun : Bool)

theorem essential_accountBeforeSave (t : FileTree) (p : Path) :
    essential (accountBeforeSave t root { debug, dryRun } p) =
      declarationAccounts t root false p := by
  have hVisit : essential (visitEvents { debug, dryRun } p) = [] := by
    cases debug <;> rfl
  rw [accountBeforeSave, essential_append, hVisit, List.nil_append]
  unfold declarationAccounts
  cases t.readText p with
  | error e => rfl
  | ok text => simp only [essential, List.filter_flatMap, filter_declarationAccount]

theorem essential_fileAccount (t : FileTree) (p : Path) :
    essential (fileAccount t root { debug, dryRun } p) = fileAccount t root { dryRun } p := by
  have hLead : essential (accountBeforeSave t root { debug, dryRun } p) =
      accountBeforeSave t root { dryRun } p :=
    (essential_accountBeforeSave root debug dryRun t p).trans (List.nil_append _).symm
  cases hRead : t.readText p with
  | error e =>
    simp only [accountBeforeSave, declarationAccounts, hRead, List.append_nil] at hLead
    rw [fileAccount_of_error _ _ _ _ hRead, fileAccount_of_error _ _ _ _ hRead]
    exact hLead
  | ok text =>
    rw [accountBeforeSave, accountBeforeSave, declarationAccounts_of_ok _ _ _ _ hRead,
      declarationAccounts_of_ok _ _ _ _ hRead] at hLead
    rw [fileAccount_of_ok _ _ _ _ hRead, fileAccount_of_ok _ _ _ _ hRead, essential_append, hLead]
    split <;> rfl

theorem Alike.after {told told' : List Event} (h : Alike one other) (t : FileTree) (checked : Nat)
    (hTold : essential told = essential told') :
    Alike (one.after t checked told) (other.after t checked told') where
  tree := rfl
  report := by
    simp only [Progress.after, h.report, ← filterMap_essential told, ← countP_essential told, hTold,
      filterMap_essential, countP_essential]
  told := by
    simp only [Progress.after, essential_append, h.told, hTold]

theorem Alike.convertFile (h : Alike one other) (p : Path) :
    Alike (convertFile names root { debug, dryRun } one p).progress
      (convertFile names root { debug := debug', dryRun } other p).progress := by
  have hSame : (Conversion.convertFile names root { debug, dryRun } one p).fault =
      (Conversion.convertFile names root { debug := debug', dryRun } other p).fault :=
    convertFile_fault_eq rfl h.tree
  rw [convertFile_account, convertFile_account, hSame, h.tree]
  split
  · apply h.after
    rw [essential_fileAccount, essential_fileAccount]
  · apply h.after
    rw [essential_accountBeforeSave, essential_accountBeforeSave]

/-- Debugging changes nothing about a run over files but what is told besides. -/
theorem Alike.convertFiles (h : Alike one other) (ps : List Path) :
    Alike (convertFiles names root { debug, dryRun } one ps).progress
        (convertFiles names root { debug := debug', dryRun } other ps).progress ∧
      (Conversion.convertFiles names root { debug, dryRun } one ps).fault =
        (Conversion.convertFiles names root { debug := debug', dryRun } other ps).fault := by
  induction ps generalizing one other with
  | nil => exact ⟨h, rfl⟩
  | cons p rest ih =>
    have hFile := h.convertFile names root debug debug' dryRun p
    have hSame : (Conversion.convertFile names root { debug, dryRun } one p).fault =
        (Conversion.convertFile names root { debug := debug', dryRun } other p).fault :=
      convertFile_fault_eq rfl h.tree
    cases hFault : (Conversion.convertFile names root { debug, dryRun } one p).fault with
    | some fault =>
      rw [convertFiles_cons_of_some hFault, convertFiles_cons_of_some (hSame.symm.trans hFault)]
      exact ⟨hFile, hSame⟩
    | none =>
      rw [convertFiles_cons_of_none hFault, convertFiles_cons_of_none (hSame.symm.trans hFault)]
      exact ih hFile

end Debugging

/-- Debugging changes neither the tree that a run leaves nor how it ends. -/
theorem run_debug (names : TemporaryNames) (t : FileTree) (options : ProjectOptions)
    (debug debug' dryRun : Bool) :
    (run names t options { debug, dryRun }).tree =
        (run names t options { debug := debug', dryRun }).tree ∧
      (run names t options { debug, dryRun }).report =
        (run names t options { debug := debug', dryRun }).report ∧
      essential (run names t options { debug, dryRun }).events =
        essential (run names t options { debug := debug', dryRun }).events := by
  cases hLoad : Project.load t options with
  | error e =>
    rw [run_of_load_error _ hLoad, run_of_load_error _ hLoad]
    exact ⟨rfl, rfl, rfl⟩
  | ok project =>
    have hStart : Alike ⟨t, [], { root := project.root, dryRun }⟩
        ⟨t, [], { root := project.root, dryRun }⟩ := ⟨rfl, rfl, rfl⟩
    obtain ⟨⟨hTree, hReport, hTold⟩, hFault⟩ :=
      hStart.convertFiles names project.root debug debug' dryRun project.sourceFiles
    rw [run_of_load_ok _ hLoad, run_of_load_ok _ hLoad]
    refine ⟨hTree, ?_, hTold⟩
    simp only [runOver, hReport, hFault]

/-- A run that ends with a report told the accounts of all sources in their order, and the report is
the tally of what was told. Whether debugging or not, a run leaves the same tree, ends the same way
and tells the same things besides. -/
theorem run_accounts (names : TemporaryNames) (t : FileTree) (options : ProjectOptions)
    (settings : ConversionSettings) :
    (∀ report, (run names t options settings).report = .ok report →
      ∃ project, Project.load t options = .ok project ∧
        (run names t options settings).events =
          accounts project.root settings t project.sourceFiles ∧
        report = {
          root := project.root
          filesChecked := project.sourceFiles.length
          filesModified := (run names t options settings).events.filterMap Event.modifiedPath?
          specifiersReplaced := (run names t options settings).events.countP Event.isReplacement
          dryRun := settings.dryRun }) ∧
      ∀ debug,
        (run names t options { settings with debug }).tree = (run names t options settings).tree ∧
        (run names t options { settings with debug }).report =
          (run names t options settings).report ∧
        essential (run names t options { settings with debug }).events =
          essential (run names t options settings).events := by
  refine ⟨fun report hReport => ?_, fun debug => run_debug names t options _ _ _⟩
  obtain ⟨project, outcome, hLoad, rfl, hFault, hRun, rfl⟩ := run_eq_ok hReport
  refine ⟨project, hLoad, ?_⟩
  rw [hRun]
  dsimp only
  rw [convertFiles_account hFault]
  simp only [Progress.after, List.nil_append, Nat.zero_add, and_self]

/-- A source with a specifier to replace, one that is looked for in vain, one with an attribute clause
and the name of a package. -/
def mixedSource : FileTree := ⟨[
  (["w"], .directory 0o755),
  (["w", "tsconfig.json"], .file "\x7b files: ['a.ts', 'b.ts'] \x7d".toUTF8 0o644),
  (["w", "a.ts"], .file ("import './b'; import './ghost'; import './c.json' with \x7b type: 'json' \x7d;"
    ++ "import 'pkg';").toUTF8 0o644),
  (["w", "b.ts"], .file "".toUTF8 0o644)]⟩

def mixedReport : Report :=
  ⟨⟨"/w"⟩, 2, [⟨"/w/a.ts"⟩], 1, false⟩

theorem mixedSource_accounts :
    (run workNames mixedSource workOptions { debug := true }).report = .ok mixedReport ∧
      (run workNames mixedSource workOptions { debug := true }).events =
        fileAccount mixedSource ⟨"/w"⟩ { debug := true } ⟨"/w/a.ts"⟩ ++ [.fileChecked ⟨"/w/b.ts"⟩] ∧
      (run workNames mixedSource workOptions {}).report = .ok mixedReport := by
  have hReport : (run workNames mixedSource workOptions { debug := true }).report =
      .ok mixedReport := by decide +kernel
  have hProject : Project.load mixedSource workOptions =
      .ok ⟨⟨"/w"⟩, some ⟨"/w/tsconfig.json"⟩, [⟨"/w/a.ts"⟩, ⟨"/w/b.ts"⟩]⟩ := by decide +kernel
  obtain ⟨hAccounts, hDebug⟩ := run_accounts workNames mixedSource workOptions { debug := true }
  obtain ⟨project, hLoad, hEvents, -⟩ := hAccounts mixedReport hReport
  rw [hProject] at hLoad
  obtain rfl := Except.ok.inj hLoad
  refine ⟨hReport, hEvents.trans ?_, (hDebug false).2.1.trans hReport⟩
  rw [accounts, accounts, accounts]
  decide +kernel

end Conversion
end ExplicitModules
