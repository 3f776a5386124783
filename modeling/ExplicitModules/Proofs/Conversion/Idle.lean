import ExplicitModules.Proofs.Conversion.Run

/-!
# Runs with nothing to do

A run reports no replacement and leaves the tree exactly if the project can be loaded, all its
sources can be read and no declaration in them has a replacement.
-/
namespace ExplicitModules.Conversion
set_option autoImplicit false
open Source

/-- The outcome of a run in `t` that had nothing to do. -/
structure IsIdle (t : FileTree) (result : Result) : Prop where
  report : ∃ report, result.report = .ok report ∧ report.specifiersReplaced = 0 ∧
    report.filesModified = []
  tree : result.tree = t

/-- The file `p` can be read and is explicit already. -/
def Settled (t : FileTree) (root p : Path) : Prop :=
  ∃ text, t.readText p = .ok text ∧ ∀ d ∈ declarations text, replacement? t root p d = none

theorem explicitEdits_eq_nil_iff {t : FileTree} {root p : Path} {text : String} :
    explicitEdits t root p text = [] ↔ ∀ d ∈ declarations text, replacement? t root p d = none := by
  unfold explicitEdits editsBy
  rw [List.filterMap_eq_nil_iff]
  simp only [writtenText?, Option.map_eq_none_iff]

theorem convertFile_settled (names : TemporaryNames) {root p : Path}
    (settings : ConversionSettings) {progress : Progress} (h : Settled progress.tree root p) :
    ∃ text, convertFile names root settings progress p =
        ⟨examined root settings progress p text, none⟩ ∧
      explicitEdits progress.tree root p text = [] := by
  obtain ⟨text, hRead, hNone⟩ := h
  have hEdits := explicitEdits_eq_nil_iff.mpr hNone
  rcases convertFile_of_readText names root settings hRead with ⟨-, hFile⟩ | ⟨hSome, -⟩
  · exact ⟨text, hFile, hEdits⟩
  · exact absurd hEdits hSome

theorem convertFiles_settled (names : TemporaryNames) {root : Path}
    (settings : ConversionSettings) (progress : Progress) {paths : List Path}
    (h : ∀ p ∈ paths, Settled progress.tree root p) :
    (convertFiles names root settings progress paths).fault = none ∧
      (convertFiles names root settings progress paths).progress.tree = progress.tree ∧
      (convertFiles names root settings progress paths).progress.report.specifiersReplaced =
        progress.report.specifiersReplaced ∧
      (convertFiles names root settings progress paths).progress.report.filesModified =
        progress.report.filesModified := by
  induction paths generalizing progress with
  | nil => exact ⟨rfl, rfl, rfl, rfl⟩
  | cons p rest ih =>
    rw [List.forall_mem_cons] at h
    obtain ⟨text, hFile, hEdits⟩ := convertFile_settled names settings h.1
    have hRest := ih (examined root settings progress p text) h.2
    unfold convertFiles
    simp only [hFile]
    refine ⟨hRest.1, hRest.2.1, hRest.2.2.1.trans ?_, hRest.2.2.2⟩
    simp only [examined, hEdits, List.length_nil, Nat.add_zero]

section Files

variable {names : TemporaryNames} {root : Path} {settings : ConversionSettings}

theorem convertFile_counted {progress : Progress} {p : Path}
    (h : (convertFile names root settings progress p).fault = none) :
    ∃ text, progress.tree.readText p = .ok text ∧
      (convertFile names root settings progress p).progress.report.specifiersReplaced =
        progress.report.specifiersReplaced + (explicitEdits progress.tree root p text).length := by
  obtain ⟨text, hRead, ⟨-, hFile⟩ | ⟨-, tree, -, hFile⟩⟩ := convertFile_eq_ok h
  · exact ⟨text, hRead, by rw [hFile]; rfl⟩
  · exact ⟨text, hRead, by rw [hFile]; rfl⟩

theorem le_convertFiles {progress : Progress} {paths : List Path}
    (h : (convertFiles names root settings progress paths).fault = none) :
    progress.report.specifiersReplaced ≤
      (convertFiles names root settings progress paths).progress.report.specifiersReplaced := by
  induction paths generalizing progress with
  | nil => exact Nat.le_refl _
  | cons p rest ih =>
    unfold convertFiles at h ⊢
    cases hFault : (convertFile names root settings progress p).fault with
    | some e =>
      simp only [hFault] at h
      cases h
    | none =>
      simp only [hFault] at h ⊢
      obtain ⟨text, -, hCount⟩ := convertFile_counted hFault
      have hRest := ih h
      omega

theorem settled_of_convertFiles {progress : Progress} {paths : List Path}
    (h : (convertFiles names root settings progress paths).fault = none)
    (hCount : (convertFiles names root settings progress paths).progress.report.specifiersReplaced =
      progress.report.specifiersReplaced) :
    ∀ p ∈ paths, Settled progress.tree root p := by
  induction paths generalizing progress with
  | nil => exact nofun
  | cons p rest ih =>
    unfold convertFiles at h hCount
    cases hFault : (convertFile names root settings progress p).fault with
    | some e =>
      simp only [hFault] at h
      cases h
    | none =>
      simp only [hFault] at h hCount
      obtain ⟨text, hRead, hAdded⟩ := convertFile_counted hFault
      have hLe := le_convertFiles h
      have hEdits : explicitEdits progress.tree root p text = [] :=
        List.length_eq_zero_iff.mp (by omega)
      have hFirst : Settled progress.tree root p :=
        ⟨text, hRead, explicitEdits_eq_nil_iff.mp hEdits⟩
      obtain ⟨text', hFile, -⟩ := convertFile_settled names settings hFirst
      have hTree : (convertFile names root settings progress p).progress.tree = progress.tree := by
        rw [hFile]
        rfl
      rw [List.forall_mem_cons]
      refine ⟨hFirst, ?_⟩
      rw [← hTree]
      apply ih h
      rw [hCount, hAdded, hEdits]
      rfl

end Files

/-- A run has nothing to do exactly if all sources are explicit already. -/
theorem run_isIdle_iff {names : TemporaryNames} {t : FileTree} {options : ProjectOptions}
    {debug : Bool} :
    IsIdle t (run names t options { debug }) ↔ ∃ project, Project.load t options = .ok project ∧
      ∀ p ∈ project.sourceFiles, Settled t project.root p := by
  constructor
  · rintro ⟨⟨report, hReport, hNone, -⟩, -⟩
    obtain ⟨project, outcome, hLoad, rfl, hFault, -, rfl⟩ := run_eq_ok hReport
    exact ⟨project, hLoad, settled_of_convertFiles hFault hNone⟩
  · rintro ⟨project, hLoad, hSettled⟩
    obtain ⟨hFault, hTree, hCount, hModified⟩ :=
      convertFiles_settled names { debug } ⟨t, [], { root := project.root, dryRun := false }⟩ hSettled
    unfold run
    rw [hLoad]
    dsimp only
    rw [hFault]
    exact ⟨⟨_, rfl, hCount, hModified⟩, hTree⟩

end ExplicitModules.Conversion
