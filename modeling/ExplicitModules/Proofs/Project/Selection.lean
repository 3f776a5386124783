import ExplicitModules.Project.Basic
import ExplicitModules.Proofs.FileTree.Walking
import ExplicitModules.Proofs.Path.Insertion
import ExplicitModules.Proofs.Project.Reloading

/-!
# Which files are sources

A path is a source if it is listed by name or selected by an include pattern. In either case it leads
to a file, unless it is too long to be looked up. Collecting fails if a listed path does not lead to a
file, or if a walk comes to a directory that it keeps and cannot open.
-/
namespace ExplicitModules
set_option autoImplicit false
open FileTree (Named)

namespace Project

section Selection

variable {t : FileTree} {allowJs : Bool} {excluded : List Glob.Pattern} {base root p : Path}
  {pattern : String} {compiled : Glob.Pattern} {settings : Settings} {paths : List Path}

/-- What an include pattern selects if its walk does not fail. -/
def foundFiles (t : FileTree) (allowJs : Bool) (excluded : List Glob.Pattern) (base : Path)
    (pattern : String) : List Path :=
  match Glob.Pattern.ofText? (absolutePattern t base pattern) with
  | none => []
  | some compiled =>
    let root := literalPrefix (absolutePattern t base pattern)
    if t.isPresent root then
      ((t.entriesFrom (isKept excluded) root).filter (isSelected allowJs compiled)).map WalkEntry.path
    else []

/-- The walk for an include pattern comes to a directory that it cannot open. -/
def WalkFails (t : FileTree) (excluded : List Glob.Pattern) (base : Path) (pattern : String) : Prop :=
  (Glob.Pattern.ofText? (absolutePattern t base pattern)).isSome = true ∧
    t.Overruns (isKept excluded) (literalPrefix (absolutePattern t base pattern))

theorem isPresent_of_overruns {keep : WalkEntry → Bool} (h : t.Overruns keep root) :
    t.isPresent root = true := by
  obtain ⟨start, dirs, hStart, hDirectory, -⟩ := h
  obtain ⟨mode, hNode⟩ := FileTree.isDirectoryAt_iff.mp hDirectory
  exact FileTree.isPresent_of_locate hStart hNode

theorem walk_eq_error_iff {keep : WalkEntry → Bool} :
    (∃ fault, t.walk keep root = .error fault) ↔ t.Overruns keep root := by
  rw [FileTree.overruns_iff]
  cases hWalk : t.walk keep root with
  | ok entries =>
    obtain ⟨rfl, hReach⟩ := FileTree.walk_eq_ok_iff.mp hWalk
    refine iff_of_false nofun ?_
    rintro ⟨e, hMem, hOut⟩
    rw [hReach e hMem] at hOut
    cases hOut
  | error fault =>
    refine iff_of_true ⟨fault, rfl⟩ (by_contra fun hNone => ?_)
    have hOk := FileTree.walk_eq_ok_iff.mpr ⟨rfl, fun e hMem =>
      Bool.eq_false_iff.mpr fun hOut => hNone ⟨e, hMem, hOut⟩⟩
    rw [hOk] at hWalk
    cases hWalk

/-- An include pattern gives all that it finds, or its walk fails. -/
theorem includedFiles_cases (t : FileTree) (allowJs : Bool) (excluded : List Glob.Pattern)
    (base : Path) (pattern : String) :
    (¬WalkFails t excluded base pattern ∧ includedFiles t allowJs excluded base pattern =
      .ok (foundFiles t allowJs excluded base pattern)) ∨
    WalkFails t excluded base pattern ∧ ∃ fault, includedFiles t allowJs excluded base pattern =
      .error (.walkFailed (literalPrefix (absolutePattern t base pattern)) fault) := by
  unfold WalkFails includedFiles foundFiles
  dsimp only
  cases Glob.Pattern.ofText? (absolutePattern t base pattern) with
  | none => exact Or.inl ⟨nofun, rfl⟩
  | some compiled =>
    rw [Option.isSome_some, eq_self, true_and]
    dsimp only
    generalize literalPrefix (absolutePattern t base pattern) = start
    split
    · cases hWalk : t.walk (isKept excluded) start with
      | ok entries =>
        obtain ⟨rfl, -⟩ := FileTree.walk_eq_ok_iff.mp hWalk
        refine Or.inl ⟨fun hFails => ?_, rfl⟩
        obtain ⟨fault, hError⟩ := walk_eq_error_iff.mpr hFails
        rw [hWalk] at hError
        cases hError
      | error fault => exact Or.inr ⟨walk_eq_error_iff.mp ⟨fault, hWalk⟩, fault, rfl⟩
    · rename_i hAbsent
      exact Or.inl ⟨fun hFails => hAbsent (isPresent_of_overruns hFails), rfl⟩

theorem includedFiles_eq_ok_iff : includedFiles t allowJs excluded base pattern = .ok paths ↔
    paths = foundFiles t allowJs excluded base pattern ∧ ¬WalkFails t excluded base pattern := by
  rcases includedFiles_cases t allowJs excluded base pattern with ⟨hWalks, hFiles⟩ | ⟨hFails, e, hFiles⟩
  · rw [hFiles, Except.ok.injEq, eq_comm, and_iff_left hWalks]
  · rw [hFiles]
    exact iff_of_false nofun fun hOk => hOk.2 hFails

theorem includedFiles_fails_iff : (∃ e, includedFiles t allowJs excluded base pattern = .error e) ↔
    WalkFails t excluded base pattern := by
  rcases includedFiles_cases t allowJs excluded base pattern with ⟨hWalks, hFiles⟩ | ⟨hFails, e, hFiles⟩
  · rw [hFiles]
    exact iff_of_false nofun hWalks
  · exact iff_of_true ⟨_, hFiles⟩ hFails

theorem mem_foundFiles_iff_exists
    (hPattern : Glob.Pattern.ofText? (absolutePattern t base pattern) = some compiled) :
    p ∈ foundFiles t allowJs excluded base pattern ↔
      t.isPresent (literalPrefix (absolutePattern t base pattern)) = true ∧
      ∃ e ∈ t.entriesFrom (isKept excluded) (literalPrefix (absolutePattern t base pattern)),
        e.path = p ∧ e.isFile = true ∧ hasSourceExtension allowJs p = true ∧
          compiled.matchesText p.chars = true := by
  unfold foundFiles
  rw [hPattern]
  dsimp only
  split
  · rename_i hPresent
    rw [List.mem_map]
    constructor
    · rintro ⟨e, hMem, rfl⟩
      obtain ⟨hWalk, hSelected⟩ := List.mem_filter.mp hMem
      simp only [isSelected, Bool.and_eq_true] at hSelected
      exact ⟨hPresent, e, hWalk, rfl, hSelected.1.1, hSelected.1.2, hSelected.2⟩
    · rintro ⟨-, e, hWalk, rfl, hFile, hExtension, hMatches⟩
      refine ⟨e, List.mem_filter.mpr ⟨hWalk, ?_⟩, rfl⟩
      simp [isSelected, hFile, hExtension, hMatches]
  · rename_i hAbsent
    simp [hAbsent]

/-- The walk from `root` comes to a file, shown as `p`, through directories that are kept. -/
inductive Finds (t : FileTree) (excluded : List Glob.Pattern) (root : Path) : Path → Prop
  | start {loc : Location} (hLoc : t.locate false root = .ok loc) (hFile : t.isFileAt loc = true) :
    Finds t excluded root root
  | below {start : Location} {dirs : List String} {name : String}
    (hStart : t.locate true root = .ok start) (hDirectory : t.isDirectoryAt start = true)
    (hWay : t.KeptWay (isKept excluded) start root dirs)
    (hFile : t.isFileAt (start ++ (dirs ++ [name])) = true)
    (hOpen : isExcluded excluded (root.descend (dirs ++ [name])) = false) :
    Finds t excluded root (root.descend (dirs ++ [name]))

theorem finds_iff : Finds t excluded root p ↔
    ∃ e ∈ t.entriesFrom (isKept excluded) root, e.path = p ∧ e.isFile = true := by
  constructor
  · rintro (⟨hLoc, hFile⟩ | ⟨hStart, hDirectory, hWay, hFile, hOpen⟩)
    · obtain ⟨content, mode, hNode⟩ := FileTree.isFileAt_iff.mp hFile
      exact ⟨_, FileTree.mem_entriesFrom_iff.mpr (Or.inl ⟨_, _, hLoc, hNode, rfl⟩), rfl, rfl⟩
    · obtain ⟨content, mode, hNode⟩ := FileTree.isFileAt_iff.mp hFile
      rw [← List.append_assoc] at hNode
      refine ⟨_, FileTree.mem_entriesFrom_iff.mpr (Or.inr ⟨_, hStart, hDirectory,
        FileTree.mem_walkBelow_iff.mpr ⟨_, _, _, hWay, hNode, rfl, ?_⟩⟩), rfl, rfl⟩
      simp [isKept, WalkEntry.isDirectory, hOpen]
  · rintro ⟨e, hWalk, rfl, hFile⟩
    rcases FileTree.mem_entriesFrom_iff.mp hWalk with ⟨loc, node, hLoc, hNode, rfl⟩ |
      ⟨start, hStart, hDirectory, hBelow⟩
    · cases node with
      | directory mode => cases hFile
      | link target => cases hFile
      | file content mode => exact .start hLoc (FileTree.isFileAt_iff.mpr ⟨content, mode, hNode⟩)
    · obtain ⟨dirs, name, node, hWay, hNode, rfl, hKept⟩ := FileTree.mem_walkBelow_iff.mp hBelow
      cases node with
      | directory mode => cases hFile
      | link target => cases hFile
      | file content mode =>
        rw [List.append_assoc] at hNode
        exact .below hStart hDirectory hWay (FileTree.isFileAt_iff.mpr ⟨content, mode, hNode⟩)
          (by simpa [isKept, WalkEntry.isDirectory] using hKept)

theorem Finds.exists_descend (hNamed : t.Named) (h : Finds t excluded root p) :
    ∃ names, (∀ n ∈ names, Path.IsName n) ∧ p = root.descend names := by
  cases h with
  | start hLoc hFile => exact ⟨[], nofun, rfl⟩
  | below hStart hDirectory hWay hFile hOpen => exact ⟨_, hNamed.isName_of_isFileAt hFile, rfl⟩

/-- What a walk finds leads to a file, unless its path cannot be looked up. -/
theorem Finds.isFile (hNamed : t.Named) (h : Finds t excluded root p) :
    t.isFile p = true ∨ t.Unspellable p := by
  cases h with
  | start hLoc hFile =>
    have hTrue := FileTree.locate_true_of_false hLoc (FileTree.not_isLinkAt_of_isFileAt hFile)
    exact Or.inl (FileTree.isFile_iff.mpr ⟨_, hTrue, hFile⟩)
  | below hStart hDirectory hWay hFile hOpen =>
    obtain ⟨content, mode, hNode⟩ := FileTree.isFileAt_iff.mp hFile
    rcases FileTree.locate_descend hStart (by simp) (hNamed.isName_of_isFileAt hFile)
      (fun front => hWay.isDirectoryAt_above hDirectory) hNode nofun with hFound | hShort
    · exact Or.inl (FileTree.isFile_iff.mpr ⟨_, hFound, hFile⟩)
    · exact Or.inr hShort

/-- A pattern selects what its walk finds, if that has a source extension and matches. -/
theorem mem_foundFiles_iff
    (hPattern : Glob.Pattern.ofText? (absolutePattern t base pattern) = some compiled) :
    p ∈ foundFiles t allowJs excluded base pattern ↔
      t.isPresent (literalPrefix (absolutePattern t base pattern)) = true ∧
        Finds t excluded (literalPrefix (absolutePattern t base pattern)) p ∧
        hasSourceExtension allowJs p = true ∧ compiled.accepts p.chars = true := by
  rw [mem_foundFiles_iff_exists hPattern, finds_iff, ← Glob.matchesText_eq_accepts]
  constructor
  · rintro ⟨hPresent, e, hWalk, hPath, hFile, hRest⟩
    exact ⟨hPresent, ⟨e, hWalk, hPath, hFile⟩, hRest⟩
  · rintro ⟨hPresent, ⟨e, hWalk, hPath, hFile⟩, hRest⟩
    exact ⟨hPresent, e, hWalk, hPath, hFile, hRest⟩

theorem finds_of_mem_foundFiles (h : p ∈ foundFiles t allowJs excluded base pattern) :
    ∃ compiled, Glob.Pattern.ofText? (absolutePattern t base pattern) = some compiled ∧
      t.isPresent (literalPrefix (absolutePattern t base pattern)) = true ∧
      Finds t excluded (literalPrefix (absolutePattern t base pattern)) p ∧
      hasSourceExtension allowJs p = true ∧ compiled.accepts p.chars = true := by
  cases hPattern : Glob.Pattern.ofText? (absolutePattern t base pattern) with
  | none =>
    rw [foundFiles, hPattern] at h
    cases h
  | some compiled => exact ⟨compiled, rfl, (mem_foundFiles_iff hPattern).mp h⟩

theorem listedFiles_eq_ok_iff {files : Patterns} : listedFiles t files = .ok paths ↔
    paths = files.patterns.map files.base.joinText ∧ ∀ p ∈ paths, t.isFile p = true := by
  unfold listedFiles
  generalize files.patterns.map files.base.joinText = listed
  induction listed generalizing paths with
  | nil =>
    rw [List.mapM_nil]
    constructor
    · intro h
      obtain rfl := Except.ok.inj h
      exact ⟨rfl, nofun⟩
    · rintro ⟨rfl, -⟩
      rfl
  | cons first listed ih =>
    rw [List.mapM_cons]
    simp only [bind, pure, Except.pure, bind_eq_ok_iff]
    constructor
    · rintro ⟨found, hFirst, rest, hRest, hPaths⟩
      split at hFirst
      · rename_i hFile
        obtain rfl := Except.ok.inj hFirst
        obtain rfl := Except.ok.inj hPaths
        obtain ⟨rfl, hFiles⟩ := ih.mp hRest
        exact ⟨rfl, List.forall_mem_cons.mpr ⟨hFile, hFiles⟩⟩
      · cases hFirst
    · rintro ⟨rfl, hFiles⟩
      obtain ⟨hFile, hFiles⟩ := List.forall_mem_cons.mp hFiles
      exact ⟨first, if_pos hFile, listed, ih.mpr ⟨rfl, hFiles⟩, rfl⟩

/-- The files that the includes in force select if no walk fails. -/
def selectedFiles (t : FileTree) (root : Path) (settings : Settings) : List Path :=
  (includesInForce root settings).patterns.flatMap
    (foundFiles t (settings.allowJs.getD false) (exclusions t root settings)
      (includesInForce root settings).base)

def WalksEnd (t : FileTree) (root : Path) (settings : Settings) : Prop :=
  ∀ pattern ∈ (includesInForce root settings).patterns,
    ¬WalkFails t (exclusions t root settings) (includesInForce root settings).base pattern

theorem mapM_includedFiles_eq_ok_iff {patterns : List String} {selected : List (List Path)} :
    patterns.mapM (includedFiles t allowJs excluded base) = .ok selected ↔
      selected = patterns.map (foundFiles t allowJs excluded base) ∧
        ∀ pattern ∈ patterns, ¬WalkFails t excluded base pattern := by
  induction patterns generalizing selected with
  | nil =>
    rw [List.mapM_nil]
    simp [pure, Except.pure, eq_comm]
  | cons first patterns ih =>
    rw [List.mapM_cons, List.forall_mem_cons, List.map_cons]
    simp only [bind, pure, Except.pure, bind_eq_ok_iff, includedFiles_eq_ok_iff, ih]
    constructor
    · rintro ⟨_, ⟨rfl, hFirst⟩, _, ⟨rfl, hRest⟩, hSelected⟩
      exact ⟨(Except.ok.inj hSelected).symm, hFirst, hRest⟩
    · rintro ⟨rfl, hFirst, hRest⟩
      exact ⟨_, ⟨rfl, hFirst⟩, _, ⟨rfl, hRest⟩, rfl⟩

def listedPaths (settings : Settings) : List Path :=
  settings.files.elim [] fun files => files.patterns.map files.base.joinText

theorem mem_listedPaths : p ∈ listedPaths settings ↔
    ∃ files, settings.files = some files ∧ ∃ name ∈ files.patterns, files.base.joinText name = p := by
  rw [listedPaths]
  cases settings.files with
  | none => simp
  | some files => simp

theorem collectFiles_eq_bind (t : FileTree) (root : Path) (settings : Settings) :
    collectFiles t root settings = (settings.files.elim (.ok []) (listedFiles t)).bind fun listed =>
      ((includesInForce root settings).patterns.mapM (includedFiles t (settings.allowJs.getD false)
        (exclusions t root settings) (includesInForce root settings).base)).bind fun selected =>
          .ok ((listed ++ selected.flatten).foldl (fun paths p => p.insert paths) []) := by
  unfold collectFiles
  cases settings.files <;> rfl

theorem elim_listedFiles_eq_ok_iff : settings.files.elim (.ok []) (listedFiles t) = .ok paths ↔
    paths = listedPaths settings ∧ ∀ p ∈ listedPaths settings, t.isFile p = true := by
  rw [listedPaths]
  cases settings.files with
  | none =>
    rw [Option.elim_none, Option.elim_none, Except.ok.injEq, eq_comm, and_iff_left]
    exact nofun
  | some files =>
    rw [Option.elim_some, Option.elim_some, listedFiles_eq_ok_iff]
    constructor
    · rintro ⟨rfl, hFiles⟩
      exact ⟨rfl, hFiles⟩
    · rintro ⟨rfl, hFiles⟩
      exact ⟨rfl, hFiles⟩

/-- A project has sources if what it lists is there and no walk fails: the listed and the selected
files, in order. -/
theorem collectFiles_eq_ok_iff : collectFiles t root settings = .ok paths ↔
    (∀ p ∈ listedPaths settings, t.isFile p = true) ∧ WalksEnd t root settings ∧
      paths = (listedPaths settings ++ selectedFiles t root settings).foldl
        (fun paths p => p.insert paths) [] := by
  simp only [collectFiles_eq_bind, bind_eq_ok_iff, elim_listedFiles_eq_ok_iff,
    mapM_includedFiles_eq_ok_iff, WalksEnd, selectedFiles, List.flatMap]
  constructor
  · rintro ⟨_, ⟨rfl, hFiles⟩, _, ⟨rfl, hWalks⟩, hPaths⟩
    exact ⟨hFiles, hWalks, (Except.ok.inj hPaths).symm⟩
  · rintro ⟨hFiles, hWalks, rfl⟩
    exact ⟨_, ⟨rfl, hFiles⟩, _, ⟨rfl, hWalks⟩, rfl⟩

/-- The first listed path that does not lead to a file is reported before any walk. -/
theorem collectFiles_of_missing {fault : Fault}
    (h : settings.files.elim (.ok []) (listedFiles t) = .error fault) :
    collectFiles t root settings = .error fault := by
  rw [collectFiles_eq_bind, h]
  rfl

theorem collectFiles_succeeds_iff : (∃ paths, collectFiles t root settings = .ok paths) ↔
    (∀ p ∈ listedPaths settings, t.isFile p = true) ∧ WalksEnd t root settings := by
  simp only [collectFiles_eq_ok_iff, exists_and_left, exists_eq, and_true]

theorem collectFiles_fails_iff : (∃ e, collectFiles t root settings = .error e) ↔
    (∃ p ∈ listedPaths settings, t.isFile p = false) ∨
      ∃ pattern ∈ (includesInForce root settings).patterns,
        WalkFails t (exclusions t root settings) (includesInForce root settings).base pattern := by
  have hBoth : (∃ e, collectFiles t root settings = .error e) ↔
      ¬∃ paths, collectFiles t root settings = .ok paths := by
    cases collectFiles t root settings <;> simp
  rw [hBoth, collectFiles_succeeds_iff, Classical.not_and_iff_not_or_not, WalksEnd]
  simp only [Classical.not_forall, Classical.not_not, Bool.not_eq_true, exists_prop]

theorem mem_of_mem_collectFiles (h : collectFiles t root settings = .ok paths) (hMem : p ∈ paths) :
    p ∈ listedPaths settings ∨ p ∈ selectedFiles t root settings := by
  obtain ⟨-, -, rfl⟩ := collectFiles_eq_ok_iff.mp h
  rcases Path.mem_of_mem_foldl_insert hMem with hFound | hNil
  · exact List.mem_append.mp hFound
  · cases hNil

end Selection

theorem load_eq_ok {t : FileTree} {options : ProjectOptions} {project : Project}
    (h : load t options = .ok project) :
    ∃ settings, project.config.elim (.ok {}) (TsConfig.load t) = .ok settings ∧
      collectFiles t project.root settings = .ok project.sourceFiles := by
  simp only [load_eq_bind, bind_eq_ok_iff] at h
  obtain ⟨target, -, found, -, settings, hSettings, sourceFiles, hFiles, hProject⟩ := h
  obtain rfl := Except.ok.inj hProject
  exact ⟨settings, hSettings, hFiles⟩

/-- Every source leads to a file, unless its path cannot be looked up. -/
theorem isFile_of_mem_sourceFiles {t : FileTree} (hNamed : t.Named) {options : ProjectOptions}
    {project : Project} (h : load t options = .ok project) {p : Path}
    (hMem : p ∈ project.sourceFiles) :
    t.isFile p = true ∨ t.Unspellable p := by
  obtain ⟨settings, -, hFiles⟩ := load_eq_ok h
  rcases mem_of_mem_collectFiles hFiles hMem with hListed | hSelected
  · exact Or.inl ((collectFiles_eq_ok_iff.mp hFiles).1 p hListed)
  · obtain ⟨pattern, -, hFound⟩ := List.mem_flatMap.mp hSelected
    obtain ⟨compiled, -, -, hFinds, -⟩ := finds_of_mem_foundFiles hFound
    exact hFinds.isFile hNamed

end Project
end ExplicitModules
