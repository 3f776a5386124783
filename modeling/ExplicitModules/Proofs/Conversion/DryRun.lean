import ExplicitModules.Proofs.Conversion.Result
import ExplicitModules.Proofs.Conversion.Steps

/-!
# Dry runs

A dry run writes nothing. It tells and reports what the real run does, up to the same fault at the
same file, because the real run decides every file as the first tree does. That could fail only where
a saved link brings a place within reach that was refused for its number of links. One fault stays
unknown to a dry run: that no temporary file can be made to save a source. It goes on there.
-/
namespace ExplicitModules.Conversion
set_option autoImplicit false
open Source

/-- The end of a dry run that agrees with the end of the real run. -/
structure Predicts (dry real : Outcome) : Prop where
  told : dry.progress.events = real.progress.events
  report : dry.progress.report = { real.progress.report with dryRun := true }
  fault : dry.fault = real.fault

/-- The real run over `sources` comes through `done`, as the dry run predicts, and cannot save the
next one, `p`, for want of a temporary file; the dry run takes `p` for modified and goes on. -/
structure Outruns (names : TemporaryNames) (root : Path) (debug : Bool) (dry real : Progress)
    (sources done : List Path) (p : Path) (f : TemporaryFault) : Prop where
  through : (convertFiles names root { debug } real done).fault = none
  predicted : Predicts (convertFiles names root { debug, dryRun := true } dry done)
    (convertFiles names root { debug } real done)
  blocked : Blocked names { debug } (convertFiles names root { debug } real done).progress.tree p f
  stopped : (convertFiles names root { debug } real sources).fault = some (.temporary f)
  goesOn : (convertFiles names root { debug } real sources).progress.events ++ [.fileModified p] <+:
    (convertFiles names root { debug, dryRun := true } dry sources).progress.events

section Step

variable {names : TemporaryNames} {t : FileTree} {root p : Path} {debug : Bool}
  {done rest ps : List Path} {dry real : Progress}

/-- A file of a real run that is as the first tree decides is predicted from the first tree, unless
it cannot be saved. -/
theorem predicts_convertFile (names : TemporaryNames) (h : Faithful t root { debug } done real)
    (hApart : t.LeadApart (done ++ p :: rest))
    (hLinks : (∃ q ∈ done, isEdited t root q ∧ t.EndsInLink q) → ProbesReach t root p)
    (hTree : dry.tree = t) (hDry : Predicts ⟨dry, none⟩ ⟨real, none⟩) :
    Predicts (convertFile names root { debug, dryRun := true } dry p)
        (convertFile names root { debug } real p) ∨
      ∃ f, Blocked names { debug } real.tree p f ∧
        (convertFile names root { debug } real p).fault = some (.temporary f) ∧
        (convertFile names root { debug, dryRun := true } dry p).fault = none ∧
        (convertFile names root { debug, dryRun := true } dry p).progress.events =
          (convertFile names root { debug } real p).progress.events ++ [.fileModified p] := by
  obtain ⟨hTold, hReport, -⟩ := hDry
  dsimp only at hTold hReport
  have hSame := h.readText_pending hApart
  cases hRead : t.readText p with
  | error e =>
    rw [hRead] at hSame
    rw [convertFile_of_error hSame, convertFile_of_error (hTree ▸ hRead)]
    exact Or.inl ⟨congrArg (· ++ _) hTold, by simp only [visited, hReport], rfl⟩
  | ok text =>
    rw [hRead] at hSame
    have hDecisions := fun d hD => h.decisionFor_eq hLinks hRead (d := d) hD
    have hEdits := explicitEdits_congr hDecisions
    have hEvents := fileEvents_congr debug hDecisions
    have hExamined : Predicts ⟨examined root { debug, dryRun := true } dry p text, none⟩
        ⟨examined root { debug } real p text, none⟩ := by
      refine ⟨?_, ?_, rfl⟩
      · simp only [examined, hTold, hTree, hEvents, visitEvents]
      · simp only [examined, hReport, hTree, hEdits]
    have hNotes := congrArg (· ++ [Event.fileModified p]) hExamined.told
    have hCounts := hExamined.report
    dsimp only at hNotes hCounts
    -- both runs find the same edits, so there are only the three ends of the real run
    rcases convertFile_of_readText names root { debug, dryRun := true } (hTree ▸ hRead) with
      ⟨hNone, hFile⟩ | ⟨hSome, ⟨u, -, hFile⟩ | ⟨f, hBlocked, -⟩⟩
    · rcases convertFile_of_readText names root { debug } hSame with
        ⟨-, hFile'⟩ | ⟨hSome', -⟩
      · rw [hFile, hFile']
        exact Or.inl hExamined
      · rw [hEdits, ← hTree] at hSome'
        exact absurd hNone hSome'
    · rcases convertFile_of_readText names root { debug } hSame with
        ⟨hNone', -⟩ | ⟨-, ⟨u', -, hFile'⟩ | ⟨f, hBlocked, hFile'⟩⟩
      · rw [hEdits, ← hTree] at hNone'
        exact absurd hNone' hSome
      · rw [hFile, hFile']
        exact Or.inl ⟨hNotes, by simp only [noted, hCounts], rfl⟩
      · rw [hFile, hFile']
        exact Or.inr ⟨f, hBlocked, rfl, rfl, hNotes⟩
    · cases hBlocked.1

theorem Outruns.cons {later : List Path} {q : Path} {f : TemporaryFault}
    (hReal : (convertFile names root { debug } real p).fault = none)
    (hDry : (convertFile names root { debug, dryRun := true } dry p).fault = none)
    (h : Outruns names root debug (convertFile names root { debug, dryRun := true } dry p).progress
      (convertFile names root { debug } real p).progress later done q f) :
    Outruns names root debug dry real (p :: later) (p :: done) q f where
  through := by
    rw [convertFiles_cons_of_none hReal]
    exact h.through
  predicted := by
    rw [convertFiles_cons_of_none hReal, convertFiles_cons_of_none hDry]
    exact h.predicted
  blocked := by
    rw [convertFiles_cons_of_none hReal]
    exact h.blocked
  stopped := by
    rw [convertFiles_cons_of_none hReal]
    exact h.stopped
  goesOn := by
    rw [convertFiles_cons_of_none hReal, convertFiles_cons_of_none hDry]
    exact h.goesOn

/-- A dry run agrees with the real run over all the files that follow, or it outruns it. -/
theorem predicts_convertFiles (names : TemporaryNames) (h : Faithful t root { debug } done real)
    (hApart : t.LeadApart (done ++ rest)) (hLinks : SavesReach t root (done ++ rest))
    (hTree : dry.tree = t) (hDry : Predicts ⟨dry, none⟩ ⟨real, none⟩) :
    Predicts (convertFiles names root { debug, dryRun := true } dry rest)
        (convertFiles names root { debug } real rest) ∨
      ∃ front p back f, rest = front ++ p :: back ∧
        Outruns names root debug dry real rest front p f := by
  induction rest generalizing done dry real with
  | nil => exact Or.inl hDry
  | cons p rest ih =>
    have hLink : (∃ q ∈ done, isEdited t root q ∧ t.EndsInLink q) → ProbesReach t root p := by
      rintro ⟨q, hQ, hEdited, hEnds⟩
      exact hLinks.of_split hQ hEdited hEnds
    -- the dry run is still in `t`, to which the real run is faithful
    rcases predicts_convertFile names h hApart hLink hTree hDry with
      hFile | ⟨f, hBlocked, hStopped, hOn, hTold⟩
    · cases hFault : (convertFile names root { debug } real p).fault with
      | some fault =>
        rw [convertFiles_cons_of_some hFault,
          convertFiles_cons_of_some (hFile.fault.trans hFault)]
        exact Or.inl hFile
      | none =>
        have hDryFault := hFile.fault.trans hFault
        have hNext := h.convertFile hApart hLink rfl hFault
        have hSplit : done ++ p :: rest = done ++ [p] ++ rest := by simp
        rw [hSplit] at hApart hLinks
        rcases ih hNext hApart hLinks ((tree_convertFile_dryRun rfl dry p).trans hTree)
          ⟨hFile.told, hFile.report, rfl⟩ with hRest | ⟨front, q, back, f, rfl, hRest⟩
        · rw [convertFiles_cons_of_none hFault, convertFiles_cons_of_none hDryFault]
          exact Or.inl hRest
        · exact Or.inr ⟨p :: front, q, back, f, rfl, hRest.cons hFault hDryFault⟩
    · refine Or.inr ⟨[], p, rest, f, rfl, rfl, hDry, hBlocked, ?_, ?_⟩
      · rw [convertFiles_cons_of_some hStopped]
        exact hStopped
      · rw [convertFiles_cons_of_some hStopped, convertFiles_cons_of_none hOn, ← hTold]
        exact events_prefix_convertFiles _ _ _ _ _

end Step

/-- The dry run tells what the real run tells and ends as that does: with the same fault, or with its
report, marked as that of a dry run. -/
def DryRunAgrees (names : TemporaryNames) (t : FileTree) (options : ProjectOptions)
    (debug : Bool) : Prop :=
  (run names t options { debug, dryRun := true }).events =
      (run names t options { debug }).events ∧
    (run names t options { debug, dryRun := true }).report =
      (run names t options { debug }).report.map fun report => { report with dryRun := true }

/-- A dry run leaves the tree alone. If the sources are distinct files and no save brings a place
within reach, it agrees with the real run, also in the file at which that ends, or the real run ends
at a source that it cannot save, and the two agree up to there. -/
theorem run_dryRun (names : TemporaryNames) (t : FileTree) (options : ProjectOptions)
    (debug : Bool) :
    (run names t options { debug, dryRun := true }).tree = t ∧
    ((∀ project, Project.load t options = .ok project →
        t.LeadApart project.sourceFiles ∧ SavesReach t project.root project.sourceFiles) →
      (DryRunAgrees names t options debug ∧
        ∀ project, Project.load t options = .ok project →
          Predicts (runOver names t project.root { debug, dryRun := true } project.sourceFiles)
            (runOver names t project.root { debug } project.sourceFiles)) ∨
      ∃ project done p later f, Project.load t options = .ok project ∧
        project.sourceFiles = done ++ p :: later ∧
        (run names t options { debug }).report = .error (.temporary f) ∧
        Outruns names project.root debug ⟨t, [], { root := project.root, dryRun := true }⟩
          ⟨t, [], { root := project.root, dryRun := false }⟩ project.sourceFiles done p f) := by
  cases hLoad : Project.load t options with
  | error e =>
    rw [DryRunAgrees, run_of_load_error _ hLoad, run_of_load_error _ hLoad]
    exact ⟨rfl, fun _ => Or.inl ⟨⟨rfl, rfl⟩, nofun⟩⟩
  | ok project =>
    rw [DryRunAgrees, run_of_load_ok _ hLoad, run_of_load_ok _ hLoad]
    refine ⟨?_, fun hSources => ?_⟩
    · refine convertFiles_keeps (motive := (· = t)) names project.root { debug, dryRun := true } ?_
        project.sourceFiles rfl
      intro progress p hTree
      exact (tree_convertFile_dryRun rfl progress p).trans hTree
    obtain ⟨hApart, hLinks⟩ := hSources project rfl
    have hStart : Predicts ⟨⟨t, [], { root := project.root, dryRun := true }⟩, none⟩
        ⟨⟨t, [], { root := project.root, dryRun := false }⟩, none⟩ := ⟨rfl, rfl, rfl⟩
    have hFaithful := Faithful.start t project.root { debug }
    rcases predicts_convertFiles names hFaithful hApart hLinks rfl hStart with
      hPredicts | ⟨done, p, later, f, hSplit, hOutruns⟩
    · refine Or.inl ⟨⟨hPredicts.told, ?_⟩, ?_⟩
      · dsimp only [runOver]
        rw [hPredicts.fault, hPredicts.report]
        cases (convertFiles names project.root { debug } _ project.sourceFiles).fault with
        | none => rfl
        | some fault => rfl
      · intro project' hProject
        obtain rfl := Except.ok.inj hProject
        exact hPredicts
    · refine Or.inr ⟨project, done, p, later, f, rfl, hSplit, ?_, hOutruns⟩
      dsimp only [runOver]
      rw [hOutruns.stopped]

theorem forall_of_load {t : FileTree} {options : ProjectOptions} {project : Project}
    {P : Project → Prop} (hLoad : Project.load t options = .ok project) (h : P project) :
    ∀ project', Project.load t options = .ok project' → P project' := by
  intro project' hLoad'
  rw [hLoad] at hLoad'
  obtain rfl := Except.ok.inj hLoad'
  exact h

theorem linkedSource_apart : ∀ project, Project.load linkedSource workOptions = .ok project →
    linkedSource.LeadApart project.sourceFiles ∧
      SavesReach linkedSource project.root project.sourceFiles := by
  have hApart : linkedSource.LeadApart linkedProject.sourceFiles := by
    unfold FileTree.LeadApart
    decide +kernel
  exact forall_of_load (by decide +kernel) ⟨hApart, linkedSource_savesReach⟩

theorem linkedSource_dryRun :
    (run workNames linkedSource workOptions { debug := true, dryRun := true }).tree =
        linkedSource ∧
      (run workNames linkedSource workOptions { debug := true, dryRun := true }).report =
        .ok { linkedReport with dryRun := true } ∧
      DryRunAgrees workNames linkedSource workOptions true := by
  have hReport : (run workNames linkedSource workOptions { debug := true }).report =
      .ok linkedReport := by decide +kernel
  obtain ⟨hTree, hSources⟩ := run_dryRun workNames linkedSource workOptions true
  rcases hSources linkedSource_apart with ⟨hAgrees, -⟩ | ⟨_, _, _, _, f, -, -, hFault, -⟩
  · refine ⟨hTree, hAgrees.2.trans ?_, hAgrees⟩
    rw [hReport]
    rfl
  · rw [hReport] at hFault
    cases hFault

/-- Two sources beside a file that has the name of a temporary one. -/
def crowdedSource : FileTree :=
  ⟨(["w", ".tmpkW3xQa"], .file "".toUTF8 0o600) :: linkedSource.entries⟩

theorem crowdedSource_apart : ∀ project, Project.load crowdedSource workOptions = .ok project →
    crowdedSource.LeadApart project.sourceFiles ∧
      SavesReach crowdedSource project.root project.sourceFiles := by
  have hProject : Project.load crowdedSource workOptions = .ok linkedProject := by decide +kernel
  have hApart : crowdedSource.LeadApart linkedProject.sourceFiles := by
    unfold FileTree.LeadApart
    decide +kernel
  have hText : crowdedSource.readText ⟨"/w/z.ts"⟩ = .ok "import './p';" := by decide +kernel
  have hLinks : SavesReach crowdedSource ⟨"/w"⟩ linkedProject.sourceFiles := by
    refine List.pairwise_pair.mpr fun _ _ => .of_readText hText ?_
    decide +kernel
  exact forall_of_load hProject ⟨hApart, hLinks⟩

/-- A real run can do more than the dry run tells, because it brings a place within reach, and less,
because no name is left for a temporary file. -/
theorem not_forall_dryRun :
    (¬∀ (names : TemporaryNames) (t : FileTree) (options : ProjectOptions) (debug : Bool),
      (∀ project, Project.load t options = .ok project → t.LeadApart project.sourceFiles) →
      (∀ f, (run names t options { debug }).report ≠ .error (.temporary f)) →
      DryRunAgrees names t options debug) ∧
    ¬∀ (names : TemporaryNames) (t : FileTree) (options : ProjectOptions) (debug : Bool),
      (∀ project, Project.load t options = .ok project →
        t.LeadApart project.sourceFiles ∧ SavesReach t project.root project.sourceFiles) →
      DryRunAgrees names t options debug := by
  constructor
  · intro hAll
    have hProject : Project.load distantSource workOptions = .ok linkedProject := by decide +kernel
    have hApart : distantSource.LeadApart linkedProject.sourceFiles := by
      unfold FileTree.LeadApart
      decide +kernel
    have hReport : (run workNames distantSource workOptions {}).report = .ok linkedReport := by
      decide +kernel
    have hDry : (run workNames distantSource workOptions { dryRun := true }).report ≠
        .ok { linkedReport with dryRun := true } := by decide +kernel
    have hNotTemporary : ∀ f, (run workNames distantSource workOptions {}).report ≠
        .error (.temporary f) := by
      intro f hFault
      rw [hReport] at hFault
      cases hFault
    obtain ⟨-, hSame⟩ := hAll workNames distantSource workOptions false
      (forall_of_load hProject hApart) hNotTemporary
    rw [hReport] at hSame
    exact hDry hSame
  · intro hAll
    have hReport : (run workNames crowdedSource workOptions {}).report =
        .error (.temporary (.namesTaken ⟨"/w"⟩)) := by decide +kernel
    have hDry : (run workNames crowdedSource workOptions { dryRun := true }).report =
        .ok { linkedReport with dryRun := true } := by decide +kernel
    obtain ⟨-, hSame⟩ := hAll workNames crowdedSource workOptions false crowdedSource_apart
    rw [hReport, hDry] at hSame
    cases hSame

end ExplicitModules.Conversion
