import ExplicitModules.Proofs.Conversion.Document
import ExplicitModules.Proofs.Source.AtomicSave

/-!
# Converting one file

All that happens to a file in a run, from its text and the tree alone: it is read, what is decided
about its declarations is told, and it is saved if it got an edit. A save goes through, unless no
temporary file can be made beside the file.
-/
namespace ExplicitModules.Conversion
set_option autoImplicit false
open Source

def visitEvents (settings : ConversionSettings) (p : Path) : List Event :=
  if settings.debug then [.fileChecked p] else []

def visited (settings : ConversionSettings) (progress : Progress) (p : Path) : Progress where
  tree := progress.tree
  events := progress.events ++ visitEvents settings p
  report := { progress.report with filesChecked := progress.report.filesChecked + 1 }

/-- The run after the decisions about the file `p` with the text `text`, which is not saved yet. -/
def examined (root : Path) (settings : ConversionSettings) (progress : Progress) (p : Path)
    (text : String) : Progress where
  tree := progress.tree
  events := progress.events ++
    (visitEvents settings p ++ fileEvents progress.tree root settings.debug p text)
  report := { progress.report with
    filesChecked := progress.report.filesChecked + 1
    specifiersReplaced :=
      progress.report.specifiersReplaced + (explicitEdits progress.tree root p text).length }

def noted (progress : Progress) (tree : FileTree) (p : Path) : Progress where
  tree := tree
  events := progress.events ++ [.fileModified p]
  report := { progress.report with filesModified := progress.report.filesModified ++ [p] }

/-- What becomes of the tree when the file `p` with the text `text` gets an edit. -/
def Saves (names : TemporaryNames) (root : Path) (settings : ConversionSettings) (t : FileTree)
    (p : Path) (text : String) (u : FileTree) : Prop :=
  settings.dryRun = true ∧ u = t ∨
    settings.dryRun = false ∧ (∃ made, t.makeTemporary (directoryOf p) (names p) = .ok made) ∧
      t.replaceFile p (explicitText t root p text).toUTF8 = .ok u

def Blocked (names : TemporaryNames) (settings : ConversionSettings) (t : FileTree) (p : Path)
    (f : TemporaryFault) : Prop :=
  settings.dryRun = false ∧ t.makeTemporary (directoryOf p) (names p) = .error f

section File

variable {names : TemporaryNames} {root p : Path} {settings : ConversionSettings}
  {progress : Progress} {text : String}

theorem Saves.replaceFile_eq {t u : FileTree} (h : Saves names root settings t p text u)
    (hReal : settings.dryRun = false) :
    t.replaceFile p (explicitText t root p text).toUTF8 = .ok u := by
  rcases h with ⟨hDry, -⟩ | ⟨-, -, hReplace⟩
  · exact absurd (hReal.symm.trans hDry) Bool.false_ne_true
  · exact hReplace

theorem Saves.not_blocked {t u : FileTree} {f : TemporaryFault}
    (h : Saves names root settings t p text u) : ¬Blocked names settings t p f := by
  rintro ⟨hReal, hFault⟩
  rcases h with ⟨hDry, -⟩ | ⟨-, ⟨made, hMade⟩, -⟩
  · exact Bool.false_ne_true (hReal.symm.trans hDry)
  · cases hMade.symm.trans hFault

/-- A file that was read is saved, unless no temporary file can be made beside it. -/
theorem saveThrough_explicit (names : List String) {t : FileTree} (root : Path)
    (hRead : t.readText p = .ok text) :
    (∃ made u, t.makeTemporary (directoryOf p) names = .ok made ∧
        t.replaceFile p (explicitText t root p text).toUTF8 = .ok u ∧
        (explicitDocument t root p text).saveThrough names t = ⟨u, none⟩) ∨
      ∃ f, t.makeTemporary (directoryOf p) names = .error f ∧
        (explicitDocument t root p text).saveThrough names t = ⟨t, some (.temporary f)⟩ := by
  obtain ⟨u, hReplace⟩ := FileTree.exists_replaceFile (FileTree.isFile_of_readText hRead)
    (explicitText t root p text).toUTF8
  have hSave : (explicitDocument t root p text).saveAtOnce t = .ok u := by
    rw [Document.saveAtOnce_eq t (render?_explicit t root p text)]
    exact congrArg _ hReplace
  rcases (explicitDocument t root p text).saveThrough_cases names t with
    ⟨made, v, hMade, hOnce, hThrough⟩ | ⟨f, hOnce, -⟩ | hStopped
  · obtain rfl := Except.ok.inj (hSave.symm.trans hOnce)
    exact Or.inl ⟨made, u, hMade, hReplace, hThrough⟩
  · cases hSave.symm.trans hOnce
  · exact Or.inr hStopped

/-- A file that can be read is converted, and it is saved if it gets an edit, unless that is
blocked. -/
theorem convertFile_of_readText (names : TemporaryNames) (root : Path)
    (settings : ConversionSettings) (hRead : progress.tree.readText p = .ok text) :
    explicitEdits progress.tree root p text = [] ∧
        convertFile names root settings progress p =
          ⟨examined root settings progress p text, none⟩ ∨
      explicitEdits progress.tree root p text ≠ [] ∧
        ((∃ u, Saves names root settings progress.tree p text u ∧
            convertFile names root settings progress p =
              ⟨noted (examined root settings progress p text) u p, none⟩) ∨
          ∃ f, Blocked names settings progress.tree p f ∧
            convertFile names root settings progress p =
              ⟨examined root settings progress p text, some (.temporary f)⟩) := by
  have hDocument : Document.read progress.tree p = .ok (.ofText p text) := by
    rw [Document.read, hRead]
    rfl
  have hEdits := makeAllExplicit_eq progress.tree root settings.debug p text
  have hFile : convertFile names root settings progress p =
      if explicitEdits progress.tree root p text = [] then
        ⟨examined root settings progress p text, none⟩
      else finishFile names settings (examined root settings progress p text)
        (explicitDocument progress.tree root p text) := by
    unfold convertFile
    simp only [Progress.tell, hDocument, hEdits, List.length_eq_zero_iff, examined, visitEvents,
      List.append_assoc]
  rw [hFile]
  by_cases hNone : explicitEdits progress.tree root p text = []
  · exact Or.inl ⟨hNone, if_pos hNone⟩
  refine Or.inr ⟨hNone, ?_⟩
  rw [if_neg hNone, finishFile]
  cases hDry : settings.dryRun with
  | true => exact Or.inl ⟨progress.tree, Or.inl ⟨hDry, rfl⟩, rfl⟩
  | false =>
    simp only [Bool.false_eq_true, if_false]
    rcases saveThrough_explicit (names p) root hRead with
      ⟨made, u, hMade, hReplace, hSave⟩ | ⟨f, hFault, hSave⟩
    · refine Or.inl ⟨u, Or.inr ⟨hDry, ⟨made, hMade⟩, hReplace⟩, ?_⟩
      dsimp only [examined, explicitDocument] at hSave ⊢
      rw [hSave]
      rfl
    · refine Or.inr ⟨f, ⟨hDry, hFault⟩, ?_⟩
      dsimp only [examined, explicitDocument] at hSave ⊢
      rw [hSave]
      rfl

theorem convertFile_of_error {e : FileError} (hRead : progress.tree.readText p = .error e) :
    convertFile names root settings progress p =
      ⟨visited settings progress p, some (.file e)⟩ := by
  have hDocument : Document.read progress.tree p = .error e := by
    rw [Document.read, hRead]
    rfl
  unfold convertFile
  simp only [Progress.tell, hDocument]
  rfl

/-- A file that is converted without fault was read, and it was saved if it got an edit. -/
theorem convertFile_eq_ok (h : (convertFile names root settings progress p).fault = none) :
    ∃ text, progress.tree.readText p = .ok text ∧
      (explicitEdits progress.tree root p text = [] ∧
          convertFile names root settings progress p =
            ⟨examined root settings progress p text, none⟩ ∨
        explicitEdits progress.tree root p text ≠ [] ∧
          ∃ u, Saves names root settings progress.tree p text u ∧
            convertFile names root settings progress p =
              ⟨noted (examined root settings progress p text) u p, none⟩) := by
  cases hRead : progress.tree.readText p with
  | error e =>
    rw [convertFile_of_error hRead] at h
    cases h
  | ok text =>
    refine ⟨text, rfl, ?_⟩
    rcases convertFile_of_readText names root settings hRead with
      hNone | ⟨hSome, hSaved | ⟨f, -, hFile⟩⟩
    · exact Or.inl hNone
    · exact Or.inr ⟨hSome, hSaved⟩
    · rw [hFile] at h
      cases h

end File

end ExplicitModules.Conversion
