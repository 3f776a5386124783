import ExplicitModules.Proofs.Conversion.Run
import Mathlib.Tactic.Basic

/-!
# What a conversion leaves

A conversion that ends without a fault leaves every source with exactly its explicit text, decided
on the tree it began in, and leaves everything else alone. A link that is a source gives way to a
file, so a place behind too many links can come within reach while the run goes on; that is the only
way in which a saved file can decide about a later one.
-/
namespace ExplicitModules.Conversion
set_option autoImplicit false
open Source Text

/-- The outcome of a run that treats every source as the tree `t` alone decides. -/
structure MakesExplicit (t : FileTree) (root : Path) (settings : ConversionSettings)
    (sources : List Path) (result : Result) (report : Report) : Prop where
  content : ∀ p ∈ sources, ∃ old new, t.readText p = .ok old ∧ result.tree.readText p = .ok new ∧
    splice 0 old.toList (explicitEdits t root p old) = some new.toList ∧
    (p ∈ report.filesModified ↔ explicitEdits t root p old ≠ []) ∧
    (p ∈ report.filesModified ↔ new ≠ old)
  mode : ∀ p ∈ sources, ∃ m, t.modeOf p = .ok m ∧ result.tree.modeOf p = .ok m
  modified : report.filesModified.Sublist sources
  frame : ∀ loc, (∀ p ∈ report.filesModified, t.locate false p ≠ .ok loc) →
    result.tree.node? loc = t.node? loc
  told : result.events = sources.flatMap (story t root settings)
  counted : report.filesChecked = sources.length ∧
    report.specifiersReplaced = (sources.map (editCount t root)).sum

section Faithful

variable {t : FileTree} {root p : Path} {settings : ConversionSettings} {sources : List Path}
  {progress : Progress}

theorem Faithful.mem_modified_iff (h : Faithful t root settings sources progress)
    (hMem : p ∈ sources) {text : String} (hText : t.readText p = .ok text) :
    p ∈ progress.report.filesModified ↔ explicitEdits t root p text ≠ [] := by
  rw [h.modified, List.mem_filter]
  simp [hMem, isEdited, hText]

theorem Faithful.exists_saved (h : Faithful t root settings sources progress)
    (hApart : t.LeadApart sources) (hP : p ∈ progress.report.filesModified) :
    ∃ text mode entry, t.readText p = .ok text ∧ t.modeOf p = .ok mode ∧
      progress.tree.locate true p = .ok entry ∧
      progress.tree.node? entry = some (.file (explicitText t root p text).toUTF8 mode) := by
  obtain ⟨text, mode, entry, hText, hMode, hEntry, hNode⟩ := h.saved p hP
  rw [h.modified] at hP
  have hFile := hApart.1 p (List.mem_filter.mp hP).1
  exact ⟨text, mode, entry, hText, hMode, h.refilled.locate_saved hFile hEntry hNode, hNode⟩

theorem Faithful.readText_eq (h : Faithful t root settings sources progress)
    (hApart : t.LeadApart sources) (hMem : p ∈ sources) {text : String}
    (hText : t.readText p = .ok text) :
    progress.tree.readText p = .ok (explicitText t root p text) := by
  have hSources : ∀ q ∈ progress.report.filesModified, q ∈ sources := by
    rw [h.modified]
    exact fun q hQ => (List.mem_filter.mp hQ).1
  by_cases hP : p ∈ progress.report.filesModified
  · obtain ⟨text', mode, entry, hText', -, hLoc, hNode⟩ := h.exists_saved hApart hP
    rw [hText] at hText'
    cases hText'
    rw [FileTree.readText_of_locate hLoc, FileTree.textAt_of_node? hNode]
  · have hNone : explicitEdits t root p text = [] :=
      Decidable.not_not.mp fun hSome => hP ((h.mem_modified_iff hMem hText).mpr hSome)
    rw [hApart.readText_eq hSources h.refilled h.kept hMem hP, hText,
      explicitText_eq_iff.mpr hNone]

theorem Faithful.modeOf_eq (h : Faithful t root settings sources progress)
    (hApart : t.LeadApart sources) (hMem : p ∈ sources) :
    ∃ mode, t.modeOf p = .ok mode ∧ progress.tree.modeOf p = .ok mode := by
  have hFile := hApart.1 p hMem
  obtain ⟨loc, -, content, mode, hLoc, -, hNode, -⟩ := FileTree.exists_entry hFile
  have hMode := FileTree.modeOf_of_locate hLoc hNode
  exact ⟨mode, hMode, (h.refilled.modeOf_eq hFile).trans hMode⟩

end Faithful

/-- What a run without fault did is what the first tree decides, if it is faithful. -/
theorem Faithful.makesExplicit {t : FileTree} {root : Path} {settings : ConversionSettings}
    {sources : List Path} {progress : Progress}
    (h : Faithful t root settings sources progress) (hApart : t.LeadApart sources) :
    MakesExplicit t root settings sources
      ⟨progress.tree, progress.events, .ok progress.report⟩ progress.report where
  content := by
    intro p hP
    obtain ⟨text, hText⟩ := h.readable p hP
    refine ⟨text, explicitText t root p text, hText, h.readText_eq hApart hP hText,
      splice_explicitEdits t root p text, h.mem_modified_iff hP hText, ?_⟩
    rw [h.mem_modified_iff hP hText, Ne, Ne, explicitText_eq_iff]
  mode p hP := h.modeOf_eq hApart hP
  modified := by
    rw [h.modified]
    exact List.filter_sublist
  frame := h.kept
  told := h.told
  counted := h.counted

/-- A run that ends without fault treats every source as the first tree decides, provided that no
edited source that ends in a link comes before a source for which a place is looked for in vain only
because too many links lead there. -/
theorem run_makesExplicit {names : TemporaryNames} {t : FileTree} {options : ProjectOptions}
    {debug : Bool} {project : Project} {report : Report}
    (hProject : Project.load t options = .ok project)
    (hApart : t.LeadApart project.sourceFiles)
    (hLinks : SavesReach t project.root project.sourceFiles)
    (hReport : (run names t options { debug }).report = .ok report) :
    MakesExplicit t project.root { debug } project.sourceFiles (run names t options { debug })
      report := by
  obtain ⟨project', outcome, hProject', hOutcome, hFault, hRun, hSame⟩ := run_eq_ok hReport
  rw [hProject] at hProject'
  cases hProject'
  have hStart := Faithful.start t project.root { debug }
  have hFaithful := hStart.convertFiles hApart hLinks rfl (hOutcome ▸ hFault)
  rw [← hOutcome, List.nil_append] at hFaithful
  rw [hRun, ← hSame]
  exact hFaithful.makesExplicit hApart

theorem ProbesReach.of_readText {t : FileTree} {root p : Path} {text : String}
    (hText : t.readText p = .ok text)
    (hReach : ∀ d ∈ declarations text, ∀ missed ∈ (Replacement.decisionFor t root
      (.ofText p d.specifier.value) d.hasAttributes).tried,
        t.locate true missed ≠ .error .tooManyLinks) : ProbesReach t root p := by
  intro text' hText'
  rw [hText] at hText'
  cases hText'
  exact hReach

/-- Two sources, of which one is a link and the other imports it. -/
def linkedSource : FileTree := ⟨[
  (["w"], .directory 0o755),
  (["w", "tsconfig.json"], .file "\x7b files: ['p.ts', 'z.ts'] \x7d".toUTF8 0o644),
  (["w", "real.ts"], .file "import './b';".toUTF8 0o600),
  (["w", "b.tsx"], .file "".toUTF8 0o644),
  (["w", "z.ts"], .file "import './p';".toUTF8 0o644),
  (["w", "p.ts"], .link "real.ts")]⟩

def workOptions : ProjectOptions := { directory := ⟨"/w"⟩ }

def workNames : TemporaryNames := fun _ => [".tmpkW3xQa"]

def linkedProject : Project :=
  ⟨⟨"/w"⟩, some ⟨"/w/tsconfig.json"⟩, [⟨"/w/p.ts"⟩, ⟨"/w/z.ts"⟩]⟩

def linkedReport : Report :=
  ⟨⟨"/w"⟩, 2, [⟨"/w/p.ts"⟩, ⟨"/w/z.ts"⟩], 2, false⟩

theorem linkedSource_savesReach : SavesReach linkedSource ⟨"/w"⟩ linkedProject.sourceFiles := by
  have hText : linkedSource.readText ⟨"/w/z.ts"⟩ = .ok "import './p';" := by decide +kernel
  refine List.pairwise_pair.mpr fun _ _ => .of_readText hText ?_
  decide +kernel

theorem linkedSource_makesExplicit :
    MakesExplicit linkedSource ⟨"/w"⟩ { debug := true } [⟨"/w/p.ts"⟩, ⟨"/w/z.ts"⟩]
      (run workNames linkedSource workOptions { debug := true }) linkedReport := by
  have hProject : Project.load linkedSource workOptions = .ok linkedProject := by decide +kernel
  have hApart : linkedSource.LeadApart linkedProject.sourceFiles := by
    unfold FileTree.LeadApart
    decide +kernel
  have hReport : (run workNames linkedSource workOptions { debug := true }).report =
      .ok linkedReport := by
    decide +kernel
  exact run_makesExplicit hProject hApart linkedSource_savesReach hReport

def linkChain (name target : String) (length : Nat) : List (Location × Node) :=
  (List.range length).map fun n =>
    (["w", name ++ toString n ++ ".ts"],
      .link (if n = 0 then target else name ++ toString (n - 1) ++ ".ts"))

/-- Two sources, of which one is a link and the other imports a file behind so many links that it is
out of reach until the first has been saved. -/
def distantSource : FileTree := ⟨[
  (["w"], .directory 0o755),
  (["w", "tsconfig.json"], .file "\x7b files: ['p.ts', 'z.ts'] \x7d".toUTF8 0o644),
  (["w", "real.ts"], .file "import './b';".toUTF8 0o644),
  (["w", "b.ts"], .file "".toUTF8 0o644),
  (["w", "z.ts"], .file "import './d29';".toUTF8 0o644),
  (["w", "p.ts"], .link "c19.ts")] ++ linkChain "c" "real.ts" 20 ++ linkChain "d" "p.ts" 30⟩

/-- A saved link can decide about a later source. -/
theorem not_forall_makesExplicit :
    ¬∀ (names : TemporaryNames) (t : FileTree) (options : ProjectOptions) (debug : Bool)
      (project : Project) (report : Report), Project.load t options = .ok project →
      t.LeadApart project.sourceFiles → (run names t options { debug }).report = .ok report →
      MakesExplicit t project.root { debug } project.sourceFiles (run names t options { debug })
        report := by
  intro hAll
  have hProject : Project.load distantSource workOptions = .ok linkedProject := by decide +kernel
  have hApart : distantSource.LeadApart linkedProject.sourceFiles := by
    unfold FileTree.LeadApart
    decide +kernel
  have hReport : (run workNames distantSource workOptions {}).report = .ok linkedReport := by
    decide +kernel
  have hText : distantSource.readText ⟨"/w/z.ts"⟩ = .ok "import './d29';" := by decide +kernel
  have hNone : explicitEdits distantSource ⟨"/w"⟩ ⟨"/w/z.ts"⟩ "import './d29';" = [] := by
    decide +kernel
  have hExplicit := hAll workNames distantSource workOptions false linkedProject linkedReport hProject
    hApart hReport
  obtain ⟨old, new, hOld, -, -, hEdited, -⟩ := hExplicit.content ⟨"/w/z.ts"⟩ (by decide)
  rw [hText] at hOld
  cases hOld
  exact hEdited.mp (by decide) hNone

end ExplicitModules.Conversion
