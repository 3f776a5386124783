import ExplicitModules.Proofs.Conversion.Decisions
import ExplicitModules.Proofs.Conversion.File
import ExplicitModules.Proofs.FileTree.Saving
import Mathlib.Algebra.GroupWithZero.Nat
import Mathlib.Data.List.Basic

/-!
# Converting all files

The files of a run are converted one after the other, each in the tree that the ones before have
left. `Faithful` says that everything done so far is what the first tree alone decides; one more file
keeps it, and so it holds at the end of every run.
-/
namespace ExplicitModules
set_option autoImplicit false
open Source Text

def FileTree.EndsInLink (t : FileTree) (p : Path) : Prop :=
  ∃ entry, t.locate false p = .ok entry ∧ t.IsLinkAt entry

namespace Conversion

/-- No place that the declarations of the file `p` look for in vain is refused for its links. -/
def ProbesReach (t : FileTree) (root p : Path) : Prop :=
  ∀ text, t.readText p = .ok text → ∀ d ∈ declarations text,
    ∀ missed ∈ (Replacement.decisionFor t root (.ofText p d.specifier.value) d.hasAttributes).tried,
      t.locate true missed ≠ .error .tooManyLinks

def isEdited (t : FileTree) (root p : Path) : Bool :=
  match t.readText p with
  | .ok text => !(explicitEdits t root p text).isEmpty
  | .error _ => false

/-- No earlier source that is a link and gets an edit can bring a place within reach that is looked
for in vain for a later source. -/
def SavesReach (t : FileTree) (root : Path) (sources : List Path) : Prop :=
  sources.Pairwise fun q p => isEdited t root q = true → t.EndsInLink q → ProbesReach t root p

def story (t : FileTree) (root : Path) (settings : ConversionSettings) (p : Path) : List Event :=
  match t.readText p with
  | .ok text => visitEvents settings p ++ fileEvents t root settings.debug p text ++
      if (explicitEdits t root p text).isEmpty then [] else [.fileModified p]
  | .error _ => []

def editCount (t : FileTree) (root p : Path) : Nat :=
  match t.readText p with
  | .ok text => (explicitEdits t root p text).length
  | .error _ => 0

/-- The state of a run that began in `t` and is through with the files `done`. -/
structure Faithful (t : FileTree) (root : Path) (settings : ConversionSettings) (done : List Path)
    (progress : Progress) : Prop where
  readable : ∀ p ∈ done, ∃ text, t.readText p = .ok text
  refilled : t.Refilled progress.tree
  kept : ∀ loc, (∀ p ∈ progress.report.filesModified, t.locate false p ≠ .ok loc) →
    progress.tree.node? loc = t.node? loc
  modified : progress.report.filesModified = done.filter (isEdited t root)
  saved : ∀ p ∈ progress.report.filesModified, ∃ text mode entry, t.readText p = .ok text ∧
    t.modeOf p = .ok mode ∧ t.locate false p = .ok entry ∧
    progress.tree.node? entry = some (.file (explicitText t root p text).toUTF8 mode)
  told : progress.events = done.flatMap (story t root settings)
  counted : progress.report.filesChecked = done.length ∧
    progress.report.specifiersReplaced = (done.map (editCount t root)).sum

section Step

variable {names : TemporaryNames} {t : FileTree} {root p : Path} {settings : ConversionSettings}
  {done rest : List Path}
  {progress : Progress}

theorem SavesReach.of_split {q : Path} (h : SavesReach t root (done ++ p :: rest)) (hQ : q ∈ done)
    (hEdited : isEdited t root q) (hEnds : t.EndsInLink q) : ProbesReach t root p :=
  (List.pairwise_append.mp h).2.2 q hQ p List.mem_cons_self hEdited hEnds

/-- While no link has given way to a file, only contents have changed. -/
theorem Faithful.sameShape (h : Faithful t root settings done progress)
    (hLinks : ∀ q ∈ done, isEdited t root q → ¬t.EndsInLink q) : t.SameShape progress.tree := by
  apply h.refilled.sameShape
  intro loc target hNode
  rw [h.kept loc, hNode]
  intro q hQ hEntry
  rw [h.modified] at hQ
  obtain ⟨hDone, hEdited⟩ := List.mem_filter.mp hQ
  exact hLinks q hDone hEdited ⟨loc, hEntry, target, hNode⟩

/-- The tree in which a run is differs from the first in no file that decides about `p`. -/
theorem Faithful.not_isFile (h : Faithful t root settings done progress)
    (hLinks : (∃ q ∈ done, isEdited t root q ∧ t.EndsInLink q) → ProbesReach t root p)
    {text : String} (hText : t.readText p = .ok text) {d : Declaration}
    (hD : d ∈ declarations text) :
    ∀ missed ∈ (Replacement.decisionFor t root (.ofText p d.specifier.value)
      d.hasAttributes).tried, progress.tree.isFile missed = false := by
  intro missed hMissed
  rw [← Replacement.not_isFile_of_mem_tried hMissed]
  by_cases hLink : ∃ q ∈ done, isEdited t root q ∧ t.EndsInLink q
  · exact h.refilled.isFile_eq (hLinks hLink text hText d hD missed hMissed)
  · apply (h.sameShape ?_).isFile_eq
    intro q hQ hEdited hEnds
    exact hLink ⟨q, hQ, hEdited, hEnds⟩

theorem Faithful.decisionFor_eq (h : Faithful t root settings done progress)
    (hLinks : (∃ q ∈ done, isEdited t root q ∧ t.EndsInLink q) → ProbesReach t root p)
    {text : String} (hText : t.readText p = .ok text) {d : Declaration}
    (hD : d ∈ declarations text) :
    Replacement.decisionFor progress.tree root (.ofText p d.specifier.value) d.hasAttributes =
      Replacement.decisionFor t root (.ofText p d.specifier.value) d.hasAttributes := by
  apply Replacement.decisionFor_eq
  · intro q hQ
    rw [h.refilled.isFile_eq, hQ]
    obtain ⟨loc, hLoc, -⟩ := FileTree.isFile_iff.mp hQ
    rw [hLoc]
    exact nofun
  · exact h.not_isFile hLinks hText hD

theorem explicitEdits_congr {u : FileTree} {text : String}
    (h : ∀ d ∈ declarations text,
      Replacement.decisionFor u root (.ofText p d.specifier.value) d.hasAttributes =
        Replacement.decisionFor t root (.ofText p d.specifier.value) d.hasAttributes) :
    explicitEdits u root p text = explicitEdits t root p text := by
  apply List.filterMap_congr
  intro d hD
  simp only [writtenText?, replacement?, h d hD]

theorem fileEvents_congr {u : FileTree} (debug : Bool) {text : String}
    (h : ∀ d ∈ declarations text,
      Replacement.decisionFor u root (.ofText p d.specifier.value) d.hasAttributes =
        Replacement.decisionFor t root (.ofText p d.specifier.value) d.hasAttributes) :
    fileEvents u root debug p text = fileEvents t root debug p text := by
  apply List.flatMap_congr
  intro d hD
  simp only [declarationEvents, h d hD]

theorem Faithful.readable_concat (h : Faithful t root settings done progress) {text : String}
    (hText : t.readText p = .ok text) : ∀ q ∈ done ++ [p], ∃ text, t.readText q = .ok text := by
  rw [List.forall_mem_append, List.forall_mem_singleton]
  exact ⟨h.readable, text, hText⟩

theorem Faithful.told_examined (h : Faithful t root settings done progress) {text : String}
    (hText : t.readText p = .ok text)
    (hEvents : fileEvents progress.tree root settings.debug p text =
      fileEvents t root settings.debug p text) :
    (examined root settings progress p text).events ++
        (if (explicitEdits t root p text).isEmpty then [] else [.fileModified p]) =
      (done ++ [p]).flatMap (story t root settings) := by
  dsimp only [Conversion.examined]
  rw [h.told, List.flatMap_append, List.flatMap_singleton, story, hText, hEvents, List.append_assoc]

theorem Faithful.counted_examined (h : Faithful t root settings done progress) {text : String}
    (hText : t.readText p = .ok text)
    (hEdits : explicitEdits progress.tree root p text = explicitEdits t root p text) :
    (examined root settings progress p text).report.filesChecked = (done ++ [p]).length ∧
      (examined root settings progress p text).report.specifiersReplaced =
        ((done ++ [p]).map (editCount t root)).sum := by
  obtain ⟨hChecked, hReplaced⟩ := h.counted
  dsimp only [Conversion.examined]
  simp only [hChecked, hReplaced, hEdits, List.length_append, List.length_singleton,
    List.map_append, List.sum_append, List.map_singleton, List.sum_singleton, editCount, hText]
  exact ⟨trivial, trivial⟩

/-- The state after a file without edits, if that is all that happened to it. -/
theorem Faithful.examined (h : Faithful t root settings done progress) {text : String}
    (hText : t.readText p = .ok text) (hNone : explicitEdits t root p text = [])
    (hEdits : explicitEdits progress.tree root p text = explicitEdits t root p text)
    (hEvents : fileEvents progress.tree root settings.debug p text =
      fileEvents t root settings.debug p text) :
    Faithful t root settings (done ++ [p]) (examined root settings progress p text) where
  readable := h.readable_concat hText
  refilled := h.refilled
  kept := h.kept
  modified := by
    have hPlain : isEdited t root p = false := by simp [isEdited, hText, hNone]
    rw [List.filter_append, List.filter_singleton, hPlain, ← h.modified]
    exact (List.append_nil _).symm
  saved := h.saved
  told := by
    rw [← h.told_examined hText hEvents, hNone]
    exact (List.append_nil _).symm
  counted := h.counted_examined hText hEdits

/-- The state after a file that was saved at `entry`, an entry no earlier file was saved at. -/
theorem Faithful.noted (h : Faithful t root settings done progress) {text : String} {mode : Nat}
    {entry : Location} (hText : t.readText p = .ok text)
    (hSome : explicitEdits t root p text ≠ [])
    (hEdits : explicitEdits progress.tree root p text = explicitEdits t root p text)
    (hEvents : fileEvents progress.tree root settings.debug p text =
      fileEvents t root settings.debug p text)
    (hMode : t.modeOf p = .ok mode) (hEntry : t.locate false p = .ok entry)
    (hRoot : entry ≠ [])
    (hRefills : t.Refills entry (some (.file (explicitText t root p text).toUTF8 mode)))
    (hNew : ∀ q ∈ progress.report.filesModified, t.locate false q ≠ .ok entry) :
    Faithful t root settings (done ++ [p])
      (noted (Conversion.examined root settings progress p text)
        (progress.tree.put entry (.file (explicitText t root p text).toUTF8 mode)) p) where
  readable := h.readable_concat hText
  refilled := h.refilled.put hRoot hRefills
  kept := by
    intro loc hLoc
    dsimp only [Conversion.noted, Conversion.examined] at hLoc ⊢
    rw [FileTree.node?_put_of_ne_nil loc _ hRoot]
    have hOther : loc ≠ entry := by
      rintro rfl
      exact hLoc p (List.mem_append_right _ (List.mem_singleton_self p)) hEntry
    rw [if_neg hOther]
    exact h.kept loc fun q hQ => hLoc q (List.mem_append_left _ hQ)
  modified := by
    have hEdited : isEdited t root p = true := by simp [isEdited, hText, hSome]
    dsimp only [Conversion.noted, Conversion.examined]
    rw [List.filter_append, List.filter_singleton, hEdited, ← h.modified]
    rfl
  saved := by
    intro q hQ
    dsimp only [Conversion.noted, Conversion.examined] at hQ ⊢
    rcases List.mem_append.mp hQ with hOld | hLast
    · obtain ⟨textQ, modeQ, entryQ, hTextQ, hModeQ, hEntryQ, hNodeQ⟩ := h.saved q hOld
      refine ⟨textQ, modeQ, entryQ, hTextQ, hModeQ, hEntryQ, ?_⟩
      have hOther : entryQ ≠ entry := by
        rintro rfl
        exact hNew q hOld hEntryQ
      rw [FileTree.node?_put_of_ne_nil entryQ _ hRoot, if_neg hOther]
      exact hNodeQ
    · rw [List.mem_singleton.mp hLast]
      refine ⟨text, mode, entry, hText, hMode, hEntry, ?_⟩
      rw [FileTree.node?_put_of_ne_nil entry _ hRoot, if_pos rfl]
  told := by
    rw [← h.told_examined hText hEvents, if_neg (by simpa using hSome)]
    rfl
  counted := h.counted_examined hText hEdits

theorem Faithful.pending (h : Faithful t root settings done progress)
    (hApart : t.LeadApart (done ++ p :: rest)) :
    (∀ q ∈ progress.report.filesModified, q ∈ done ++ p :: rest) ∧
      p ∉ progress.report.filesModified := by
  have hModified : ∀ q ∈ progress.report.filesModified, q ∈ done := by
    intro q hQ
    rw [h.modified] at hQ
    exact (List.mem_filter.mp hQ).1
  refine ⟨fun q hQ => List.mem_append_left _ (hModified q hQ), fun hP => ?_⟩
  exact (List.pairwise_append.mp hApart.2).2.2 p (hModified p hP) p List.mem_cons_self rfl

theorem Faithful.readText_pending (h : Faithful t root settings done progress)
    (hApart : t.LeadApart (done ++ p :: rest)) : progress.tree.readText p = t.readText p := by
  obtain ⟨hSources, hNew⟩ := h.pending hApart
  exact hApart.readText_eq hSources h.refilled h.kept
    (List.mem_append_right done List.mem_cons_self) hNew

theorem Faithful.convertFile (h : Faithful t root settings done progress)
    (hApart : t.LeadApart (done ++ p :: rest))
    (hLinks : (∃ q ∈ done, isEdited t root q ∧ t.EndsInLink q) → ProbesReach t root p)
    (hSettings : settings.dryRun = false)
    (hOk : (convertFile names root settings progress p).fault = none) :
    Faithful t root settings (done ++ [p]) (convertFile names root settings progress p).progress := by
  have hMem : p ∈ done ++ p :: rest := List.mem_append_right _ List.mem_cons_self
  obtain ⟨hSources, hNew⟩ := h.pending hApart
  obtain ⟨text, hRead, hEnd⟩ := convertFile_eq_ok hOk
  have hText : t.readText p = .ok text := by
    rw [← h.readText_pending hApart, hRead]
  have hSame := fun d hD => h.decisionFor_eq hLinks hText (d := d) hD
  have hEdits := explicitEdits_congr hSame
  have hEvents := fileEvents_congr settings.debug hSame
  rw [hEdits] at hEnd
  rcases hEnd with ⟨hNone, hFile⟩ | ⟨hSome, tree, hSaves, hFile⟩
  · rw [hFile]
    exact h.examined hText hNone hEdits hEvents
  · obtain ⟨mode, entry, hMode, hEntry, hRoot, hRefills, rfl⟩ :=
      h.refilled.exists_put (hApart.1 p hMem) (hSaves.replaceFile_eq hSettings)
    have hWritten : explicitText progress.tree root p text = explicitText t root p text := by
      unfold explicitText
      rw [hEdits]
    rw [hWritten] at hRefills
    rw [hFile, hWritten]
    refine h.noted hText hSome hEdits hEvents hMode hEntry hRoot hRefills fun q hQ hEntryQ => ?_
    have hFileQ := hApart.1 q (hSources q hQ)
    have hLocQ := FileTree.locate_eq_of_entry_eq hFileQ (hApart.1 p hMem)
      (hEntryQ.trans hEntry.symm)
    exact hNew (hApart.eq_of_locate (hSources q hQ) hMem hLocQ ▸ hQ)

/-- A run that comes through all its files is faithful to its end. -/
theorem Faithful.convertFiles (h : Faithful t root settings done progress)
    (hApart : t.LeadApart (done ++ rest)) (hLinks : SavesReach t root (done ++ rest))
    (hSettings : settings.dryRun = false)
    (hOk : (convertFiles names root settings progress rest).fault = none) :
    Faithful t root settings (done ++ rest)
      (convertFiles names root settings progress rest).progress := by
  induction rest generalizing done progress with
  | nil =>
    rw [List.append_nil]
    exact h
  | cons p rest ih =>
    unfold Conversion.convertFiles at hOk ⊢
    cases hFault : (Conversion.convertFile names root settings progress p).fault with
    | some e =>
      simp only [hFault] at hOk
      cases hOk
    | none =>
      simp only [hFault] at hOk ⊢
      have hLink : (∃ q ∈ done, isEdited t root q ∧ t.EndsInLink q) → ProbesReach t root p := by
        rintro ⟨q, hQ, hEdited, hEnds⟩
        exact hLinks.of_split hQ hEdited hEnds
      have hNext := h.convertFile hApart hLink hSettings hFault
      have hSplit : done ++ p :: rest = done ++ [p] ++ rest := by simp
      rw [hSplit] at hApart hLinks ⊢
      exact ih hNext hApart hLinks hOk

end Step

theorem Faithful.start (t : FileTree) (root : Path) (settings : ConversionSettings) :
    Faithful t root settings [] ⟨t, [], { root, dryRun := settings.dryRun }⟩ where
  readable := nofun
  refilled := .refl t
  kept _ _ := rfl
  modified := rfl
  saved := nofun
  told := rfl
  counted := ⟨rfl, rfl⟩

theorem run_eq_ok {names : TemporaryNames} {t : FileTree} {options : ProjectOptions}
    {settings : ConversionSettings} {report : Report}
    (h : (run names t options settings).report = .ok report) :
    ∃ project outcome, Project.load t options = .ok project ∧
      outcome = convertFiles names project.root settings
        ⟨t, [], { root := project.root, dryRun := settings.dryRun }⟩ project.sourceFiles ∧
      outcome.fault = none ∧
      run names t options settings =
        ⟨outcome.progress.tree, outcome.progress.events, .ok report⟩ ∧
      outcome.progress.report = report := by
  unfold run at h ⊢
  cases hLoad : Project.load t options with
  | error e =>
    rw [hLoad] at h
    cases h
  | ok project =>
    simp only [hLoad] at h ⊢
    refine ⟨project, _, rfl, rfl, ?_⟩
    cases hFault : (convertFiles names project.root settings
        ⟨t, [], { root := project.root, dryRun := settings.dryRun }⟩ project.sourceFiles).fault with
    | some e =>
      simp only [hFault] at h
      cases h
    | none =>
      simp only [hFault] at h ⊢
      rw [Except.ok.inj h]
      exact ⟨trivial, rfl, rfl⟩

end Conversion
end ExplicitModules
