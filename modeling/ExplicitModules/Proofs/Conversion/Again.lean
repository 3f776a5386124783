import ExplicitModules.Proofs.Conversion.Idle
import ExplicitModules.Proofs.Conversion.Result
import ExplicitModules.Proofs.Project.Reloading

/-!
# Running again

A run that saves its files in the place of files, and none over a config that it reads, leaves a tree
in which the same project is loaded and the same is decided. What a second run does then depends only
on the declarations that it finds in the texts the first run wrote.
-/
namespace ExplicitModules
set_option autoImplicit false
open Source

namespace FileTree

theorem mem_locations_of_node? {t : FileTree} {loc : Location} {node : Node} (hLoc : loc ≠ [])
    (h : t.node? loc = some node) : loc ∈ t.entries.map Prod.fst := by
  unfold node? at h
  rw [if_neg hLoc] at h
  obtain ⟨front, back, hEntries, -⟩ := List.lookup_eq_some_iff.mp h
  rw [hEntries]
  simp

theorem locations_put {t : FileTree} {loc : Location} (node : Node)
    (h : loc ∈ t.entries.map Prod.fst) :
    (t.put loc node).entries.map Prod.fst = t.entries.map Prod.fst := by
  have hAny : (t.entries.any fun entry => entry.1 == loc) = true := by simpa using h
  unfold put
  rw [if_pos hAny, List.map_map]
  apply List.map_congr_left
  intro entry hEntry
  dsimp only [Function.comp]
  split
  · rename_i hKey
    exact hKey.symm
  · rfl

theorem locations_replaceFile {t u : FileTree} {p : Path} {text : String} {content : ByteArray}
    (hText : t.readText p = .ok text) (h : t.replaceFile p content = .ok u) :
    u.entries.map Prod.fst = t.entries.map Prod.fst := by
  obtain ⟨mode, entry, -, hEntry, hDirectory, rfl⟩ := replaceFile_eq_ok h
  obtain ⟨loc, entry', old, mode', -, hEntry', hNode, hEnd⟩ :=
    exists_entry (isFile_of_readText hText)
  rw [hEntry] at hEntry'
  cases hEntry'
  have hPlace : ∃ node, t.node? entry = some node := by
    rcases hEnd with rfl | hLeads
    · exact ⟨_, hNode⟩
    · obtain ⟨target, hLink⟩ := hLeads.isLinkAt
      exact ⟨_, hLink⟩
  obtain ⟨node, hPlace⟩ := hPlace
  exact locations_put _ (mem_locations_of_node? (ne_nil_of_not_directory hDirectory) hPlace)

end FileTree

namespace Conversion

theorem locations_convertFiles {names : TemporaryNames} {root : Path}
    {settings : ConversionSettings} {progress : Progress} {paths : List Path}
    (hSettings : settings.dryRun = false)
    (h : (convertFiles names root settings progress paths).fault = none) :
    (convertFiles names root settings progress paths).progress.tree.entries.map Prod.fst =
      progress.tree.entries.map Prod.fst := by
  induction paths generalizing progress with
  | nil => rfl
  | cons p rest ih =>
    unfold convertFiles at h ⊢
    cases hFault : (convertFile names root settings progress p).fault with
    | some e =>
      simp only [hFault] at h
      cases h
    | none =>
      simp only [hFault] at h ⊢
      rw [ih h]
      obtain ⟨text, hRead, ⟨-, hFile⟩ | ⟨-, tree, hSaves, hFile⟩⟩ := convertFile_eq_ok hFault
      · rw [hFile]
        rfl
      · rw [hFile]
        exact FileTree.locations_replaceFile hRead (hSaves.replaceFile_eq hSettings)

/-- No edited source stands for another file or decides about the project. -/
structure Undisturbed (t : FileTree) (project : Project) : Prop where
  apart : t.LeadApart project.sourceFiles
  noLinks : ∀ p ∈ project.sourceFiles, isEdited t project.root p → ¬t.EndsInLink p
  noConfigs : ∀ p ∈ project.sourceFiles, isEdited t project.root p →
    ∀ path, project.config = some path → ∀ loc, TsConfig.Reads t path loc →
      t.locate true p ≠ .ok loc

theorem locate_true_of_not_link {t : FileTree} {p : Path} {entry : Location}
    (hFile : t.isFile p = true) (hLink : ¬t.EndsInLink p) (hEntry : t.locate false p = .ok entry) :
    t.locate true p = .ok entry := by
  obtain ⟨loc, entry', _, _, hLoc, hEntry', -, hEnd⟩ := FileTree.exists_entry hFile
  rw [hEntry] at hEntry'
  cases hEntry'
  rcases hEnd with rfl | hLeads
  · exact hLoc
  · exact absurd ⟨entry, hEntry, hLeads.isLinkAt⟩ hLink

section Again

variable {t : FileTree} {project : Project} {settings : ConversionSettings} {progress : Progress}
  (h : Faithful t project.root settings project.sourceFiles progress)
  (hUndisturbed : Undisturbed t project)
include h hUndisturbed

theorem Faithful.textAt_eq {path : Path} {loc : Location} (hConfig : project.config = some path)
    (hReads : TsConfig.Reads t path loc) : progress.tree.textAt loc = t.textAt loc := by
  have hKept : progress.tree.node? loc = t.node? loc := by
    apply h.kept
    intro p hP hEntry
    rw [h.modified] at hP
    obtain ⟨hMem, hEdited⟩ := List.mem_filter.mp hP
    have hLoc := locate_true_of_not_link (hUndisturbed.apart.1 p hMem)
      (hUndisturbed.noLinks p hMem hEdited) hEntry
    exact hUndisturbed.noConfigs p hMem hEdited path hConfig loc hReads hLoc
  rw [FileTree.textAt, FileTree.textAt, FileTree.contentAt, FileTree.contentAt, hKept]

theorem Faithful.replacement?_eq (p : Path) (d : Declaration) :
    replacement? progress.tree project.root p d = replacement? t project.root p d := by
  have hFile : progress.tree.isFile = t.isFile :=
    funext (h.sameShape hUndisturbed.noLinks).isFile_eq
  unfold replacement? Replacement.decisionFor Replacement.probe
  rw [hFile]

/-- A source is explicit in the end if all declarations of its explicit text are. -/
theorem Faithful.settled_iff {p : Path} (hP : p ∈ project.sourceFiles) {text : String}
    (hText : t.readText p = .ok text) :
    Settled progress.tree project.root p ↔
      ∀ d ∈ declarations (explicitText t project.root p text),
        replacement? t project.root p d = none := by
  have hRead := h.readText_eq hUndisturbed.apart hP hText
  unfold Settled
  simp only [hRead, Except.ok.injEq, exists_eq_left', h.replacement?_eq hUndisturbed]

end Again

/-- A second run has nothing to do exactly if the texts that the first run wrote hold no declaration
with a replacement. -/
theorem run_again_isIdle_iff {names : TemporaryNames} {t : FileTree} {options : ProjectOptions}
    {debug : Bool} (names' : TemporaryNames) (again : Bool)
    {project : Project} {report : Report} (hLoad : Project.load t options = .ok project)
    (hUndisturbed : Undisturbed t project)
    (hReport : (run names t options { debug }).report = .ok report) :
    IsIdle (run names t options { debug }).tree
        (run names' (run names t options { debug }).tree options { debug := again }) ↔
      ∀ p ∈ project.sourceFiles, ∀ text, t.readText p = .ok text →
        ∀ d ∈ declarations (explicitText t project.root p text),
          replacement? t project.root p d = none := by
  obtain ⟨project', outcome, hLoad', hOutcome, hFault, hRun, -⟩ := run_eq_ok hReport
  rw [hLoad] at hLoad'
  cases hLoad'
  have hLinks : SavesReach t project.root project.sourceFiles := by
    apply List.pairwise_iff_forall_sublist.mpr
    intro q p hPair hEdited hEnds
    exact absurd hEnds (hUndisturbed.noLinks q (hPair.subset List.mem_cons_self) hEdited)
  have hFaithful := (Faithful.start t project.root { debug }).convertFiles hUndisturbed.apart
    hLinks rfl (hOutcome ▸ hFault)
  have hLocations := locations_convertFiles rfl (hOutcome ▸ hFault)
  rw [← hOutcome] at hFaithful hLocations
  rw [List.nil_append] at hFaithful
  have hLayout : t.SameLayout outcome.progress.tree :=
    ⟨hFaithful.sameShape hUndisturbed.noLinks, hLocations⟩
  have hAgain : Project.load outcome.progress.tree options = .ok project :=
    Project.load_eq hLayout hLoad fun path hConfig loc hReads =>
      hFaithful.textAt_eq hUndisturbed hConfig hReads
  rw [hRun, run_isIdle_iff]
  constructor
  · rintro ⟨project', hProject, hSettled⟩ p hP text hText
    rw [hAgain] at hProject
    cases hProject
    exact (hFaithful.settled_iff hUndisturbed hP hText).mp (hSettled p hP)
  · intro hNone
    refine ⟨project, hAgain, ?_⟩
    intro p hP
    obtain ⟨text, hText⟩ := hFaithful.readable p hP
    exact (hFaithful.settled_iff hUndisturbed hP hText).mpr (hNone p hP text hText)

end Conversion
end ExplicitModules
