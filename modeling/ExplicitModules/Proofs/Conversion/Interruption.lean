import ExplicitModules.Proofs.Conversion.Result
import ExplicitModules.Proofs.Conversion.Steps
import ExplicitModules.Proofs.Project.Selection
import Mathlib.Data.List.Induction

/-!
# Conversions that end with a fault

A run ends with a fault if the project cannot be loaded, or if one of its sources cannot be read, or
gets an edit and cannot be saved for want of a temporary file. It leaves what a run over the sources
before that one leaves: every entry that has changed is that of a modified file and holds its whole
explicit text. A later source is as it was, unless its path leads to a file that was modified under
another path.
-/
namespace ExplicitModules.Conversion
set_option autoImplicit false
open Source

/-- What is at `loc` is the whole explicit text of one of the files `done`, as that was when its turn
came, with the mode that it had. -/
def Rewritten (names : TemporaryNames) (t : FileTree) (root : Path) (settings : ConversionSettings)
    (done : List Path) (u : FileTree) (loc : Location) : Prop :=
  ∃ front p back text mode, done = front ++ p :: back ∧
    (runOver names t root settings front).progress.tree.readText p = .ok text ∧
    t.locate false p = .ok loc ∧ t.modeOf p = .ok mode ∧
    u.node? loc = some (.file
      (explicitText (runOver names t root settings front).progress.tree root p text).toUTF8 mode)

/-- The state of a run that began in `t` and is through with the files `done`, of which some may lead
to the same file. -/
structure Orderly (names : TemporaryNames) (t : FileTree) (root : Path)
    (settings : ConversionSettings) (done : List Path) (progress : Progress) : Prop where
  refilled : t.Refilled progress.tree
  modified : progress.report.filesModified.Sublist done
  files : ∀ p ∈ progress.report.filesModified, t.isFile p = true
  kept : ∀ loc, (∀ p ∈ progress.report.filesModified, t.locate false p ≠ .ok loc) →
    progress.tree.node? loc = t.node? loc
  whole : ∀ loc, progress.tree.node? loc = t.node? loc ∨
    Rewritten names t root settings done progress.tree loc

section Step

variable {names : TemporaryNames} {t u : FileTree} {root p : Path}
  {settings : ConversionSettings} {done : List Path} {progress : Progress} {loc : Location}

theorem Rewritten.concat (h : Rewritten names t root settings done u loc) (p : Path)
    {u' : FileTree} (hSame : u'.node? loc = u.node? loc) :
    Rewritten names t root settings (done ++ [p]) u' loc := by
  obtain ⟨front, q, back, text, mode, rfl, hText, hEntry, hMode, hNode⟩ := h
  exact ⟨front, q, back ++ [p], text, mode, by simp, hText, hEntry, hMode, hSame.trans hNode⟩

theorem Rewritten.exists_text (h : Rewritten names t root settings done u loc) :
    ∃ text mode, u.node? loc = some (.file (String.toUTF8 text) mode) := by
  obtain ⟨front, p, back, text, mode, -, -, -, -, hNode⟩ := h
  exact ⟨_, mode, hNode⟩

theorem Orderly.start (names : TemporaryNames) (t : FileTree) (root : Path)
    (settings : ConversionSettings) :
    Orderly names t root settings [] (runOver names t root settings []).progress where
  refilled := .refl t
  modified := .slnil
  files := nofun
  kept _ _ := rfl
  whole _ := Or.inl rfl

theorem Orderly.isFile (h : Orderly names t root settings done progress)
    (hReach : t.locate true p ≠ .error .tooManyLinks) {text : String}
    (hText : progress.tree.readText p = .ok text) : t.isFile p = true := by
  rw [← h.refilled.isFile_eq hReach]
  exact FileTree.isFile_of_readText hText

theorem Orderly.examined (h : Orderly names t root settings done progress) (p : Path) (text : String) :
    Orderly names t root settings (done ++ [p]) (examined root settings progress p text) where
  refilled := h.refilled
  modified := h.modified.trans (List.sublist_append_left done [p])
  files := h.files
  kept := h.kept
  whole loc := (h.whole loc).imp_right fun hOld => hOld.concat p rfl

theorem Orderly.noted
    (h : Orderly names t root settings done (runOver names t root settings done).progress)
    (hReach : t.locate true p ≠ .error .tooManyLinks) {text : String}
    (hText : (runOver names t root settings done).progress.tree.readText p = .ok text)
    (hSaves : Saves names root settings (runOver names t root settings done).progress.tree p text u) :
    Orderly names t root settings (done ++ [p]) (noted (Conversion.examined root settings
      (runOver names t root settings done).progress p text) u p) := by
  have hFile := h.isFile hReach hText
  have hModified : ∀ q ∈ (runOver names t root settings done).progress.report.filesModified ++ [p],
      t.isFile q = true := by
    rw [List.forall_mem_append, List.forall_mem_singleton]
    exact ⟨h.files, hFile⟩
  rcases hSaves with ⟨-, rfl⟩ | ⟨-, -, hReplace⟩
  · exact {
      refilled := h.refilled
      modified := h.modified.append (.refl [p])
      files := hModified
      kept := fun place hPlace => h.kept place fun q hQ =>
        hPlace q (List.mem_append_left _ hQ)
      whole := fun place => (h.whole place).imp_right fun hOld => hOld.concat p rfl }
  · obtain ⟨mode, entry, hMode, hEntry, hRoot, hRefills, rfl⟩ :=
      h.refilled.exists_put hFile hReplace
    have hPut := fun place node => FileTree.node?_put_of_ne_nil
      (t := (runOver names t root settings done).progress.tree) place node hRoot
    refine ⟨h.refilled.put hRoot hRefills, h.modified.append (.refl [p]), hModified, ?_, ?_⟩
    · intro place hPlace
      have hOther : place ≠ entry := by
        rintro rfl
        exact hPlace p (List.mem_append_right _ (List.mem_singleton_self p)) hEntry
      refine (hPut place _).trans ?_
      rw [if_neg hOther]
      exact h.kept place fun q hQ => hPlace q (List.mem_append_left _ hQ)
    · intro place
      by_cases hPlace : place = entry
      · subst hPlace
        refine Or.inr ⟨done, p, [], text, mode, rfl, hText, hEntry, hMode, ?_⟩
        exact (hPut place _).trans (if_pos rfl)
      · have hSame := (hPut place (.file (explicitText
            (runOver names t root settings done).progress.tree root p text).toUTF8 mode)).trans
          (if_neg hPlace)
        exact (h.whole place).imp hSame.trans fun hOld => hOld.concat p hSame

/-- A run over files of which none is refused for its links is orderly to its end. -/
theorem orderly_runOver (hReach : ∀ p ∈ done, t.locate true p ≠ .error .tooManyLinks)
    (hOk : (runOver names t root settings done).fault = none) :
    Orderly names t root settings done (runOver names t root settings done).progress := by
  induction done using List.reverseRecOn with
  | nil => exact .start names t root settings
  | append_singleton done p ih =>
    rw [List.forall_mem_append, List.forall_mem_singleton] at hReach
    -- the last file is converted in the state that those in front of it have left
    obtain ⟨hDone, hLast⟩ := runOver_concat hOk
    have hOrderly := ih hReach.1 hDone
    rw [hLast] at hOk ⊢
    obtain ⟨text, hRead, ⟨-, hFile⟩ | ⟨-, u, hSaves, hFile⟩⟩ := convertFile_eq_ok hOk
    · rw [hFile]
      exact hOrderly.examined p text
    · rw [hFile]
      exact hOrderly.noted hReach.2 hRead hSaves

/-- A file that cannot be read in the state of a run could not be read at its start. -/
theorem Orderly.readText_error (h : Orderly names t root settings done progress)
    (hReach : t.locate true p ≠ .error .tooManyLinks) {e : FileError}
    (hRead : progress.tree.readText p = .error e) : t.readText p = .error e := by
  -- what has been rewritten is text
  have hText : ∀ place, progress.tree.locate true p = .ok place →
      ¬Rewritten names t root settings done progress.tree place := by
    intro place hPlace hRewritten
    obtain ⟨text, mode, hNode⟩ := hRewritten.exists_text
    rw [FileTree.readText_of_locate hPlace, FileTree.textAt_of_node? hNode] at hRead
    cases hRead
  rcases h.refilled.locate hReach with hSame | ⟨-, entry, loc, hT, hU, hLeads, hFile, hIsFile⟩
  · cases hLoc : t.locate true p with
    | error e' =>
      rw [hLoc] at hSame
      rw [(FileTree.locate_error hSame).1] at hRead
      rw [(FileTree.locate_error hLoc).1, hRead]
    | ok loc =>
      rw [hLoc] at hSame
      have hNode := (h.whole loc).resolve_right (hText loc hSame)
      rw [← FileTree.readText_eq_of_locate hLoc hSame hNode, hRead]
  · have hNode := (h.whole entry).resolve_right (hText entry hU)
    obtain ⟨_, _, hFileNode⟩ := FileTree.isFileAt_iff.mp hIsFile
    exact absurd (hNode.symm.trans hFileNode) (hLeads.node?_ne_file _ _)

/-- A file that no modified one leads to has its text and its mode. -/
theorem Orderly.untouched (h : Orderly names t root settings done progress)
    (hSource : t.isFile p = true ∨ t.Unspellable p)
    (hApart : ∀ q ∈ progress.report.filesModified, t.locate true q ≠ t.locate true p) :
    progress.tree.readText p = t.readText p ∧ progress.tree.modeOf p = t.modeOf p := by
  rcases hSource with hFile | hShort
  · obtain ⟨loc, hT, hU, hNode⟩ := h.refilled.locate_eq_of_apart h.kept
      (fun q hQ => ⟨h.files q hQ, hApart q hQ⟩) hFile
    exact ⟨FileTree.readText_eq_of_locate hT hU hNode, FileTree.modeOf_eq_of_locate hT hU hNode⟩
  · obtain ⟨e, hT⟩ : ∃ e, t.locate true p = .error e := by
      rcases hShort with hLong | hNul
      · exact ⟨_, hLong⟩
      · exact ⟨_, hNul⟩
    rcases h.refilled.locate hShort.ne_tooManyLinks with hSame | ⟨-, _, _, hOk, -⟩
    · obtain ⟨hText, hMode⟩ := FileTree.locate_error (hSame.trans hT)
      obtain ⟨hText', hMode'⟩ := FileTree.locate_error hT
      rw [hText, hMode, hText', hMode']
      exact ⟨rfl, rfl⟩
    · rw [hT] at hOk
      cases hOk

end Step

/-- What stops a run over `done` and more files at the next one, `p`, with which fault, and what has
been told by then. -/
def IsStopped (names : TemporaryNames) (t : FileTree) (root : Path) (settings : ConversionSettings)
    (done : List Path) (p : Path) (fault : Fault) (result : Result) : Prop :=
  let told := (runOver names t root settings done).progress.events ++ visitEvents settings p
  (∃ e, fault = .file e ∧ t.readText p = .error e ∧ result.tree.readText p = .error e ∧
    result.events = told) ∨
  ∃ text f, fault = .temporary f ∧ result.tree.readText p = .ok text ∧
    explicitEdits result.tree root p text ≠ [] ∧ Blocked names settings result.tree p f ∧
    result.events = told ++ fileEvents result.tree root settings.debug p text

/-- A run over `done` and more files, of which the next is `p`, has come through `done` and stopped
at `p`, which cannot be read or saved. -/
structure StopsAt (names : TemporaryNames) (t : FileTree) (root : Path)
    (settings : ConversionSettings) (done : List Path) (p : Path) (fault : Fault)
    (result : Result) : Prop where
  done_ok : (runOver names t root settings done).fault = none
  tree : result.tree = (runOver names t root settings done).progress.tree
  stopped : IsStopped names t root settings done p fault result
  modified : (runOver names t root settings done).progress.report.filesModified.Sublist done
  frame : ∀ loc, (∀ q ∈ (runOver names t root settings done).progress.report.filesModified,
    t.locate false q ≠ .ok loc) → result.tree.node? loc = t.node? loc
  whole : ∀ loc, result.tree.node? loc = t.node? loc ∨
    Rewritten names t root settings done result.tree loc

/-- A file that ends an orderly run leaves the tree as it was. -/
theorem Orderly.isStopped {names : TemporaryNames} {t : FileTree} {root p : Path}
    {settings : ConversionSettings} {done : List Path} {fault : Fault}
    (h : Orderly names t root settings done (runOver names t root settings done).progress)
    (hReach : t.locate true p ≠ .error .tooManyLinks) {outcome : Outcome}
    (hOutcome : outcome =
      convertFile names root settings (runOver names t root settings done).progress p)
    (hFault : outcome.fault = some fault) :
    outcome.progress.tree = (runOver names t root settings done).progress.tree ∧
      IsStopped names t root settings done p fault
        ⟨outcome.progress.tree, outcome.progress.events, .error fault⟩ := by
  subst hOutcome
  cases hRead : (runOver names t root settings done).progress.tree.readText p with
  | error e =>
    rw [convertFile_of_error hRead] at hFault ⊢
    obtain rfl := Option.some.inj hFault
    exact ⟨rfl, Or.inl ⟨e, rfl, h.readText_error hReach hRead, hRead, rfl⟩⟩
  | ok text =>
    rcases convertFile_of_readText names root settings hRead with
      ⟨-, hFile⟩ | ⟨hSome, ⟨u, -, hFile⟩ | ⟨f, hBlocked, hFile⟩⟩
    · rw [hFile] at hFault
      cases hFault
    · rw [hFile] at hFault
      cases hFault
    · rw [hFile] at hFault ⊢
      obtain rfl := Option.some.inj hFault
      refine ⟨rfl, Or.inr ⟨text, f, rfl, hRead, hSome, hBlocked, ?_⟩⟩
      exact (List.append_assoc _ _ _).symm

/-- A run that ends with a fault has loaded no project and done nothing, or it has stopped at the
first source that cannot be read or saved, with all later sources as they were that lead to no
modified file. -/
theorem run_stopsAt {names : TemporaryNames} {t : FileTree} (hNamed : t.Named)
    {options : ProjectOptions} {settings : ConversionSettings} {fault : Fault}
    (hReport : (run names t options settings).report = .error fault) :
    (Project.load t options = .error fault ∧
      run names t options settings = ⟨t, [], .error fault⟩) ∨
    ∃ project done p later, Project.load t options = .ok project ∧
      project.sourceFiles = done ++ p :: later ∧
      StopsAt names t project.root settings done p fault (run names t options settings) ∧
      ∀ q ∈ p :: later,
        (∀ m ∈ (runOver names t project.root settings done).progress.report.filesModified,
          t.locate true m ≠ t.locate true q) →
        (run names t options settings).tree.readText q = t.readText q ∧
          (run names t options settings).tree.modeOf q = t.modeOf q := by
  cases hLoad : Project.load t options with
  | error e =>
    have hRun : run names t options settings = _ := run_of_load_error settings hLoad
    rw [hRun] at hReport ⊢
    obtain rfl := Except.error.inj hReport
    exact Or.inl ⟨rfl, rfl⟩
  | ok project =>
    right
    have hSources := fun q => Project.isFile_of_mem_sourceFiles hNamed hLoad (p := q)
    have hRun : run names t options settings = _ := run_of_load_ok settings hLoad
    rw [hRun] at hReport ⊢
    dsimp only at hReport
    split at hReport
    · rename_i e hFault
      obtain rfl := Except.error.inj hReport
      obtain ⟨done, p, later, hSplit, hDone, hEnd⟩ := exists_faulty hFault
      have hReach : ∀ q ∈ project.sourceFiles, t.locate true q ≠ .error .tooManyLinks := by
        intro q hQ
        rcases hSources q hQ with hFile | hShort
        · exact FileTree.locate_ne_error_of_isFile hFile
        · exact hShort.ne_tooManyLinks
      rw [hSplit, List.forall_mem_append] at hReach
      -- up to `p` the run is orderly, so a `p` that cannot be read could not be at the start either
      have hOrderly := orderly_runOver hReach.1 hDone
      obtain ⟨hTree, hStopped⟩ := hOrderly.isStopped (hReach.2 p List.mem_cons_self) hEnd hFault
      refine ⟨project, done, p, later, rfl, hSplit, ?_, ?_⟩
      · refine ⟨hDone, hTree, hStopped, hOrderly.modified, ?_, ?_⟩
        · intro loc hLoc
          exact (congrArg (·.node? loc) hTree).trans (hOrderly.kept loc hLoc)
        · rw [runOver, hTree]
          exact hOrderly.whole
      · intro q hQ hApart
        rw [runOver, hTree]
        exact hOrderly.untouched (hSources q (hSplit ▸ List.mem_append_right done hQ)) hApart
    · cases hReport

/-- Four sources, of which the second is not text and the third is the first behind a link. -/
def aliasedSource : FileTree := ⟨[
  (["w"], .directory 0o755),
  (["w", "tsconfig.json"],
    .file "\x7b files: ['a.ts', 'b.ts', 'd/a.ts', 'x.ts'] \x7d".toUTF8 0o644),
  (["w", "a.ts"], .file "import './x';".toUTF8 0o644),
  (["w", "b.ts"], .file ⟨#[0xff]⟩ 0o644),
  (["w", "d"], .link "."),
  (["w", "x.ts"], .file "".toUTF8 0o644)]⟩

def aliasedProject : Project :=
  ⟨⟨"/w"⟩, some ⟨"/w/tsconfig.json"⟩, [⟨"/w/a.ts"⟩, ⟨"/w/b.ts"⟩, ⟨"/w/d/a.ts"⟩, ⟨"/w/x.ts"⟩]⟩

theorem named_aliasedSource : aliasedSource.Named := by decide +kernel

theorem load_aliasedSource : Project.load aliasedSource workOptions = .ok aliasedProject := by
  decide +kernel

theorem report_aliasedSource :
    (run workNames aliasedSource workOptions {}).report = .error (.file .notText) := by decide +kernel

theorem aliasedSource_stopsAt :
    aliasedSource.Named ∧
    (run workNames aliasedSource workOptions {}).report = .error (.file .notText) ∧
    ∃ done p later, aliasedProject.sourceFiles = done ++ p :: later ∧
      StopsAt workNames aliasedSource ⟨"/w"⟩ {} done p (.file .notText)
        (run workNames aliasedSource workOptions {}) ∧
      ∀ q ∈ p :: later,
        (∀ m ∈ (runOver workNames aliasedSource ⟨"/w"⟩ {} done).progress.report.filesModified,
          aliasedSource.locate true m ≠ aliasedSource.locate true q) →
        (run workNames aliasedSource workOptions {}).tree.readText q = aliasedSource.readText q ∧
          (run workNames aliasedSource workOptions {}).tree.modeOf q = aliasedSource.modeOf q := by
  refine ⟨named_aliasedSource, report_aliasedSource, ?_⟩
  rcases run_stopsAt named_aliasedSource report_aliasedSource with
    ⟨hLoad, -⟩ | ⟨project, done, p, later, hLoad, hRest⟩
  · rw [load_aliasedSource] at hLoad
    cases hLoad
  · rw [load_aliasedSource] at hLoad
    obtain rfl := Except.ok.inj hLoad
    exact ⟨done, p, later, hRest⟩

/-- A later source need not be as it was: its path can lead through a link to a file that has been
modified. -/
theorem not_forall_later_untouched :
    ¬∀ (names : TemporaryNames) (t : FileTree) (options : ProjectOptions)
      (settings : ConversionSettings) (fault : Fault), t.Named →
      (run names t options settings).report = .error fault →
      (Project.load t options = .error fault ∧
        run names t options settings = ⟨t, [], .error fault⟩) ∨
      ∃ project done p later, Project.load t options = .ok project ∧
        project.sourceFiles = done ++ p :: later ∧
        StopsAt names t project.root settings done p fault (run names t options settings) ∧
        ∀ q ∈ p :: later, (run names t options settings).tree.readText q = t.readText q := by
  intro hAll
  have hChanged : (run workNames aliasedSource workOptions {}).tree.readText ⟨"/w/d/a.ts"⟩ ≠
      aliasedSource.readText ⟨"/w/d/a.ts"⟩ := by decide +kernel
  have hReadable : ∀ q ∈ aliasedProject.sourceFiles, q ≠ ⟨"/w/b.ts"⟩ →
      aliasedSource.readText q = .ok "import './x';" ∨ aliasedSource.readText q = .ok "" := by
    decide +kernel
  rcases hAll workNames aliasedSource workOptions {} _ named_aliasedSource report_aliasedSource with
    ⟨hLoad, -⟩ | ⟨project, done, p, later, hLoad, hSplit, hStop, hLater⟩
  · rw [load_aliasedSource] at hLoad
    cases hLoad
  · rw [load_aliasedSource] at hLoad
    obtain rfl := Except.ok.inj hLoad
    obtain ⟨e, -, hRead, -⟩ | ⟨_, _, hUnsaved, -⟩ := hStop.stopped
    swap
    · cases hUnsaved
    have hP : p = ⟨"/w/b.ts"⟩ := by
      by_contra hOther
      rcases hReadable p (hSplit ▸ by simp) hOther with hText | hText
      · rw [hText] at hRead
        cases hRead
      · rw [hText] at hRead
        cases hRead
    subst hP
    have hBehind : later = [⟨"/w/d/a.ts"⟩, ⟨"/w/x.ts"⟩] := by
      rcases done with _ | ⟨first, _ | ⟨second, done⟩⟩
      · exact absurd (List.cons.inj hSplit).1 (by decide)
      · exact (List.cons.inj (List.cons.inj hSplit).2).2.symm
      · -- the unreadable source is named once
        have hMem : (⟨"/w/b.ts"⟩ : Path) ∈ [⟨"/w/d/a.ts"⟩, (⟨"/w/x.ts"⟩ : Path)] := by
          rw [(List.cons.inj (List.cons.inj hSplit).2).2]
          simp
        exact absurd hMem (by decide)
    exact hChanged (hLater _ (by simp [hBehind]))

end ExplicitModules.Conversion
