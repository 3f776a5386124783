import ExplicitModules.Proofs.Conversion.File
import ExplicitModules.Proofs.FileTree.Saving

/-!
# A run file by file

A file that can be read is converted, and if it gets an edit it is saved, which fails only for want of
a temporary file. So a run stops only at a file that cannot be read or saved, after it has come through
all the files before.
-/
namespace ExplicitModules.Conversion
set_option autoImplicit false
open Source

def runOver (names : TemporaryNames) (t : FileTree) (root : Path) (settings : ConversionSettings)
    (ps : List Path) : Outcome :=
  convertFiles names root settings ⟨t, [], { root, dryRun := settings.dryRun }⟩ ps

section Step

variable {names : TemporaryNames} {root p : Path} {settings : ConversionSettings}
  {progress : Progress}

/-- A file ends a run if it cannot be read, or if it gets an edit and saving it is blocked. -/
theorem convertFile_fault_iff {fault : Fault} :
    (convertFile names root settings progress p).fault = some fault ↔
      (∃ e, fault = .file e ∧ progress.tree.readText p = .error e) ∨
      ∃ text f, fault = .temporary f ∧ progress.tree.readText p = .ok text ∧
        explicitEdits progress.tree root p text ≠ [] ∧ Blocked names settings progress.tree p f := by
  cases hRead : progress.tree.readText p with
  | error e =>
    rw [convertFile_of_error hRead]
    constructor
    · intro hFault
      exact Or.inl ⟨e, (Option.some.inj hFault).symm, rfl⟩
    · rintro (⟨e', rfl, hSame⟩ | ⟨_, _, -, hText, -⟩)
      · rw [Except.error.inj hSame]
      · cases hText
  | ok text =>
    simp only [reduceCtorEq, and_false, exists_false, false_or, Except.ok.injEq]
    rcases convertFile_of_readText names root settings hRead with
      ⟨hNone, hFile⟩ | ⟨hSome, ⟨u, hSaves, hFile⟩ | ⟨f, hBlocked, hFile⟩⟩
    · rw [hFile]
      refine iff_of_false nofun ?_
      rintro ⟨_, f, -, rfl, hSome, -⟩
      exact hSome hNone
    · rw [hFile]
      refine iff_of_false nofun ?_
      rintro ⟨_, f, -, rfl, -, hBlocked⟩
      exact hSaves.not_blocked hBlocked
    · rw [hFile, Option.some.injEq, eq_comm]
      constructor
      · rintro rfl
        exact ⟨text, f, rfl, rfl, hSome, hBlocked⟩
      · rintro ⟨_, f', rfl, rfl, -, hBlocked'⟩
        rw [Except.error.inj (hBlocked.2.symm.trans hBlocked'.2)]

/-- A dry run writes nothing. -/
theorem tree_convertFile_dryRun (hDry : settings.dryRun = true) (progress : Progress) (p : Path) :
    (convertFile names root settings progress p).progress.tree = progress.tree := by
  cases hRead : progress.tree.readText p with
  | error e =>
    rw [convertFile_of_error hRead]
    rfl
  | ok text =>
    rcases convertFile_of_readText names root settings hRead with
      ⟨-, hFile⟩ | ⟨-, ⟨u, hSaves, hFile⟩ | ⟨f, hBlocked, -⟩⟩
    · rw [hFile]
      rfl
    · rw [hFile]
      rcases hSaves with ⟨-, rfl⟩ | ⟨hReal, -⟩
      · rfl
      · exact absurd (hReal.symm.trans hDry) Bool.false_ne_true
    · exact absurd (hBlocked.1.symm.trans hDry) Bool.false_ne_true

/-- What has been told stays told. -/
theorem events_prefix_convertFile (names : TemporaryNames) (root : Path)
    (settings : ConversionSettings) (progress : Progress) (p : Path) :
    progress.events <+: (convertFile names root settings progress p).progress.events := by
  cases hRead : progress.tree.readText p with
  | error e =>
    rw [convertFile_of_error hRead]
    exact List.prefix_append _ _
  | ok text =>
    rcases convertFile_of_readText names root settings hRead with
      ⟨-, hFile⟩ | ⟨-, ⟨u, -, hFile⟩ | ⟨f, -, hFile⟩⟩
    · rw [hFile]
      exact List.prefix_append _ _
    · rw [hFile]
      exact (List.prefix_append _ _).trans (List.prefix_append _ _)
    · rw [hFile]
      exact List.prefix_append _ _

theorem convertFiles_cons_of_none {rest : List Path}
    (h : (convertFile names root settings progress p).fault = none) :
    convertFiles names root settings progress (p :: rest) =
      convertFiles names root settings (convertFile names root settings progress p).progress rest := by
  rw [convertFiles]
  simp only [h]

theorem convertFiles_cons_of_some {rest : List Path} {fault : Fault}
    (h : (convertFile names root settings progress p).fault = some fault) :
    convertFiles names root settings progress (p :: rest) =
      convertFile names root settings progress p := by
  rw [convertFiles]
  simp only [h]

/-- What every file keeps, a run keeps. -/
theorem convertFiles_keeps {motive : FileTree → Prop} (names : TemporaryNames) (root : Path)
    (settings : ConversionSettings)
    (step : ∀ progress p, motive progress.tree →
      motive (convertFile names root settings progress p).progress.tree)
    (ps : List Path) (h : motive progress.tree) :
    motive (convertFiles names root settings progress ps).progress.tree := by
  induction ps generalizing progress with
  | nil => exact h
  | cons p ps ih =>
    have hHere := step progress p h
    cases hFault : (convertFile names root settings progress p).fault with
    | some fault =>
      rw [convertFiles_cons_of_some hFault]
      exact hHere
    | none =>
      rw [convertFiles_cons_of_none hFault]
      exact ih hHere

theorem events_prefix_convertFiles (names : TemporaryNames) (root : Path)
    (settings : ConversionSettings) (progress : Progress) (ps : List Path) :
    progress.events <+: (convertFiles names root settings progress ps).progress.events := by
  induction ps generalizing progress with
  | nil => exact List.prefix_refl _
  | cons p ps ih =>
    have hHere := events_prefix_convertFile names root settings progress p
    cases hFault : (convertFile names root settings progress p).fault with
    | some fault =>
      rw [convertFiles_cons_of_some hFault]
      exact hHere
    | none =>
      rw [convertFiles_cons_of_none hFault]
      exact hHere.trans (ih _)

/-- A run over more files goes on from where the run over the first of them ends. -/
theorem convertFiles_append {front : List Path} (back : List Path)
    (h : (convertFiles names root settings progress front).fault = none) :
    convertFiles names root settings progress (front ++ back) =
      convertFiles names root settings (convertFiles names root settings progress front).progress
        back := by
  induction front generalizing progress with
  | nil => rfl
  | cons p front ih =>
    cases hFault : (convertFile names root settings progress p).fault with
    | some fault =>
      rw [convertFiles_cons_of_some hFault, hFault] at h
      cases h
    | none =>
      rw [convertFiles_cons_of_none hFault] at h
      rw [List.cons_append, convertFiles_cons_of_none hFault, convertFiles_cons_of_none hFault]
      exact ih h

theorem convertFiles_append_of_some {front : List Path} {fault : Fault} (back : List Path)
    (h : (convertFiles names root settings progress front).fault = some fault) :
    convertFiles names root settings progress (front ++ back) =
      convertFiles names root settings progress front := by
  induction front generalizing progress with
  | nil => cases h
  | cons p front ih =>
    rw [List.cons_append]
    cases hFault : (convertFile names root settings progress p).fault with
    | some _ => rw [convertFiles_cons_of_some hFault, convertFiles_cons_of_some hFault]
    | none =>
      rw [convertFiles_cons_of_none hFault] at h
      rw [convertFiles_cons_of_none hFault, convertFiles_cons_of_none hFault]
      exact ih h

theorem convertFiles_singleton : convertFiles names root settings progress [p] =
    convertFile names root settings progress p := by
  cases hFault : (convertFile names root settings progress p).fault with
  | some _ => exact convertFiles_cons_of_some hFault
  | none =>
    rw [convertFiles_cons_of_none hFault, convertFiles, ← hFault]

/-- A run that ends with a fault has come to the file with that fault. -/
theorem exists_faulty {ps : List Path} {fault : Fault}
    (h : (convertFiles names root settings progress ps).fault = some fault) :
    ∃ done p later, ps = done ++ p :: later ∧
      (convertFiles names root settings progress done).fault = none ∧
      convertFiles names root settings progress ps =
        convertFile names root settings (convertFiles names root settings progress done).progress p := by
  induction ps generalizing progress with
  | nil => cases h
  | cons p rest ih =>
    cases hFault : (convertFile names root settings progress p).fault with
    | some _ => exact ⟨[], p, rest, rfl, rfl, convertFiles_cons_of_some hFault⟩
    | none =>
      rw [convertFiles_cons_of_none hFault] at h
      obtain ⟨done, q, later, rfl, hDone, hEnd⟩ := ih h
      refine ⟨p :: done, q, later, rfl, ?_, ?_⟩
      · rw [convertFiles_cons_of_none hFault]
        exact hDone
      · rw [convertFiles_cons_of_none hFault, convertFiles_cons_of_none hFault]
        exact hEnd

end Step

/-- A run that comes through its files has come through all but the last and through the last. -/
theorem runOver_concat {names : TemporaryNames} {t : FileTree} {root p : Path}
    {settings : ConversionSettings} {done : List Path}
    (h : (runOver names t root settings (done ++ [p])).fault = none) :
    (runOver names t root settings done).fault = none ∧
      runOver names t root settings (done ++ [p]) =
        convertFile names root settings (runOver names t root settings done).progress p := by
  cases hDone : (runOver names t root settings done).fault with
  | some fault =>
    rw [runOver, convertFiles_append_of_some [p] hDone] at h
    exact absurd (h.symm.trans hDone) nofun
  | none =>
    refine ⟨rfl, ?_⟩
    rw [runOver, convertFiles_append [p] hDone, convertFiles_singleton]
    rfl

theorem run_of_load_error {names : TemporaryNames} {t : FileTree} {options : ProjectOptions}
    {fault : Fault} (settings : ConversionSettings) (h : Project.load t options = .error fault) :
    run names t options settings = ⟨t, [], .error fault⟩ := by
  rw [run, h]

theorem run_of_load_ok {names : TemporaryNames} {t : FileTree} {options : ProjectOptions}
    {project : Project} (settings : ConversionSettings) (h : Project.load t options = .ok project) :
    run names t options settings =
      ⟨(runOver names t project.root settings project.sourceFiles).progress.tree,
        (runOver names t project.root settings project.sourceFiles).progress.events,
        match (runOver names t project.root settings project.sourceFiles).fault with
        | some fault => .error fault
        | none => .ok (runOver names t project.root settings project.sourceFiles).progress.report⟩ := by
  rw [run, h]
  cases hFault : (runOver names t project.root settings project.sourceFiles).fault with
  | some fault =>
    rw [runOver] at hFault
    simp only [hFault, runOver]
  | none =>
    rw [runOver] at hFault
    simp only [hFault, runOver]

end ExplicitModules.Conversion
