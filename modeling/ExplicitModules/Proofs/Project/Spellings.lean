import ExplicitModules.Proofs.Project.Omission

/-!
# Spellings of one source

Sources are told apart by their components, in which `..` is one like any other. So a file is a source
twice if one spelling of it steps up where another does not. Where every spelling goes down from the
same place, a file is one source.
-/
namespace ExplicitModules
set_option autoImplicit false
open ExplicitModules.Path (isTrivial moving)

namespace Path

variable {p q : Path} {front : List (List Char)} {names : List String}

/-- Behind the segments `front` the path goes down only. -/
def DescendsFrom (front : List (List Char)) (p : Path) : Prop :=
  ∃ way, moving p.chars = front ++ way ∧ ['.', '.'] ∉ way

theorem isTrivial_of_mem_moving {cs s : List Char} (h : s ∈ moving cs) : isTrivial s = false := by
  simpa using (List.mem_filter.mp h).2

theorem IsName.moving_eq {name : String} (h : IsName name) : moving name.toList = [name.toList] := by
  rw [moving, segments_of_no_slash h.plain, List.filter_cons_of_pos (by simp [h.nontrivial])]
  rfl

theorem moving_descend (hNames : ∀ n ∈ names, IsName n) (p : Path) :
    moving (p.descend names).chars = moving p.chars ++ names.map String.toList := by
  induction names generalizing p with
  | nil => exact (List.append_nil _).symm
  | cons name names ih =>
    rw [List.forall_mem_cons] at hNames
    rw [descend_cons, ih hNames.2, moving_joinText hNames.1.relative, hNames.1.moving_eq,
      List.append_assoc]
    rfl

theorem DescendsFrom.descend (h : DescendsFrom front p) (hNames : ∀ n ∈ names, IsName n) :
    DescendsFrom front (p.descend names) := by
  obtain ⟨way, hMoving, hDown⟩ := h
  refine ⟨way ++ names.map String.toList, by rw [moving_descend hNames, hMoving, List.append_assoc], ?_⟩
  rw [List.mem_append, not_or]
  refine ⟨hDown, fun hUp => ?_⟩
  obtain ⟨n, hN, hParent⟩ := List.mem_map.mp hUp
  exact (hNames n hN).notParent hParent

theorem isAbsolute_descend (h : p.isAbsolute = true) (names : List String) :
    (p.descend names).isAbsolute = true := by
  induction names generalizing p with
  | nil => exact h
  | cons name names ih => exact ih (isAbsolute_join h ⟨name⟩)

end Path

namespace FileTree

theorem arrive_append (current : Location) (front back : List (List Char)) :
    arrive current (front ++ back) = arrive (arrive current front) back :=
  List.foldl_append

def SamePlace (t : FileTree) (p q : Path) : Prop :=
  ∃ loc, t.trace true p = .ok loc ∧ t.trace true q = .ok loc

/-- Two ways down from one place end in one place only if they are the same. -/
theorem eq_of_arrive_eq {current : Location} {way other : List (List Char)}
    (hWay : ∀ s ∈ way, isTrivial s = false ∧ s ≠ ['.', '.'])
    (hOther : ∀ s ∈ other, isTrivial s = false ∧ s ≠ ['.', '.'])
    (h : arrive current way = arrive current other) : way = other := by
  rw [arrive_names hWay, arrive_names hOther, List.append_cancel_left_eq] at h
  exact List.map_injective_iff.mpr (fun _ _ hSame => String.ofList_inj.mp hSame) h

/-- Without links, paths that go down from the same segments to one place have the same components. -/
theorem SamePlace.components_eq {t : FileTree} (hLinks : t.LinkFree) {p q : Path} (h : t.SamePlace p q)
    (hP : p.isAbsolute = true) (hQ : q.isAbsolute = true) {front : List (List Char)}
    (hDescends : p.DescendsFrom front) (hOther : q.DescendsFrom front) : p.components = q.components := by
  obtain ⟨loc, hLoc, hSame⟩ := h
  have hPlace := (trace_eq_arrive hLinks hLoc).symm.trans (trace_eq_arrive hLinks hSame)
  obtain ⟨way, hWay, hDown⟩ := hDescends
  obtain ⟨other, hBehind, hDownOther⟩ := hOther
  have hPlain : ∀ {r : Path} {behind : List (List Char)}, moving r.chars = front ++ behind →
      ['.', '.'] ∉ behind → ∀ s ∈ behind, isTrivial s = false ∧ s ≠ ['.', '.'] := by
    intro r behind hMoving hDown s hS
    have hMem : s ∈ moving r.chars := by
      rw [hMoving]
      exact List.mem_append_right front hS
    exact ⟨Path.isTrivial_of_mem_moving hMem, fun hUp => hDown (hUp ▸ hS)⟩
  rw [hWay, hBehind, arrive_append, arrive_append] at hPlace
  rw [Path.components_of_absolute hP, Path.components_of_absolute hQ, hWay, hBehind,
    eq_of_arrive_eq (hPlain hWay hDown) (hPlain hBehind hDownOther) hPlace]

end FileTree

namespace Project

section Absolute

variable {t : FileTree} {options : ProjectOptions} {project : Project} {settings : Settings}
  {root base p : Path}

theorem isAbsolute_foldl_extendPrefix (h : p.isAbsolute = true) (segs : List (List Char)) :
    (segs.foldl extendPrefix p).isAbsolute = true := by
  induction segs generalizing p with
  | nil => exact h
  | cons s segs ih => exact ih (Path.isAbsolute_join h _)

/-- A pattern that is anchored at an absolute directory is looked for from the root. -/
theorem isAbsolute_literalPrefix (h : base.isAbsolute = true) (pattern : String) :
    (literalPrefix (absolutePattern t base pattern)).isAbsolute = true := by
  obtain ⟨rest, hText⟩ : ∃ rest, absolutePattern t base pattern = [] ++ '/' :: rest := by
    obtain ⟨cs, hChars⟩ := Path.exists_chars_of_isAbsolute h
    obtain ⟨more, hEscaped⟩ : ∃ more, escapedPath base = '/' :: more := by
      rw [escapedPath, hChars]
      exact ⟨_, rfl⟩
    unfold absolutePattern
    dsimp only
    rw [anchored_eq, hEscaped]
    split <;> exact ⟨_, rfl⟩
  -- the segment in front of the first slash is empty and leads to the root
  rw [literalPrefix, hText, Path.segments_append_slash]
  exact isAbsolute_foldl_extendPrefix (p := ⟨"/"⟩) rfl _

theorem isAbsolute_of_rootAndConfig {loc : Location} {found : Path × Option Path}
    (h : rootAndConfig t (FileTree.pathOf loc) = .ok found) : found.1.isAbsolute = true := by
  unfold rootAndConfig at h
  split at h
  · obtain rfl := Except.ok.inj h
    exact FileTree.isAbsolute_pathOf loc
  · have hHome := TsConfig.isAbsolute_homeOf loc
    unfold TsConfig.homeOf at hHome
    split at h
    · rename_i hParent
      obtain rfl := Except.ok.inj h
      rwa [hParent, Option.getD_some] at hHome
    · cases h

theorem isAbsolute_root (hLoad : load t options = .ok project) : project.root.isAbsolute = true := by
  simp only [load_eq_bind, bind_eq_ok_iff] at hLoad
  obtain ⟨target, hTarget, found, hFound, settings, -, sourceFiles, -, hProject⟩ := hLoad
  obtain rfl := Except.ok.inj hProject
  rw [FileTree.canonical] at hTarget
  cases hTrace : t.resolved options.target with
  | error e =>
    rw [hTrace] at hTarget
    cases hTarget
  | ok loc =>
    rw [hTrace] at hTarget
    obtain rfl := Except.ok.inj hTarget
    exact isAbsolute_of_rootAndConfig hFound

theorem isAbsolute_of_mem_listedPaths (h : settings.Rooted) (hMem : p ∈ listedPaths settings) :
    p.isAbsolute = true := by
  unfold listedPaths at hMem
  cases hSome : settings.files with
  | none =>
    rw [hSome] at hMem
    cases hMem
  | some files =>
    rw [hSome] at hMem
    obtain ⟨text, -, rfl⟩ := List.mem_map.mp hMem
    exact Path.isAbsolute_join (h.files files hSome) ⟨text⟩

theorem isAbsolute_includesInForce (h : settings.Rooted) (hRoot : root.isAbsolute = true) :
    (includesInForce root settings).base.isAbsolute = true := by
  unfold includesInForce
  split
  · rename_i hSome
    exact h.includes _ hSome
  · exact hRoot
  · exact hRoot

/-- A source is listed, or it is what names below the start of a walk spell. -/
theorem listed_or_descends (hNamed : t.Named) {paths : List Path}
    (h : collectFiles t root settings = .ok paths) (hMem : p ∈ paths) :
    p ∈ listedPaths settings ∨ ∃ pattern ∈ (includesInForce root settings).patterns, ∃ names,
      (∀ n ∈ names, Path.IsName n) ∧ p = (walkRoot t root settings pattern).descend names := by
  refine (mem_of_mem_collectFiles h hMem).imp_right fun hSelected => ?_
  obtain ⟨pattern, hPattern, hFound⟩ := List.mem_flatMap.mp hSelected
  obtain ⟨compiled, -, -, hFinds, -⟩ := finds_of_mem_foundFiles hFound
  exact ⟨pattern, hPattern, hFinds.exists_descend hNamed⟩

theorem isAbsolute_of_mem_sourceFiles (hNamed : t.Named) (hLoad : load t options = .ok project)
    (hMem : p ∈ project.sourceFiles) : p.isAbsolute = true := by
  obtain ⟨settings, hSettings, hFiles⟩ := load_eq_ok hLoad
  have hRooted := rooted_of_config hSettings
  rcases listed_or_descends hNamed hFiles hMem with hName | ⟨pattern, -, names, -, rfl⟩
  · exact isAbsolute_of_mem_listedPaths hRooted hName
  · have hBase := isAbsolute_includesInForce hRooted (isAbsolute_root hLoad)
    exact Path.isAbsolute_descend (isAbsolute_literalPrefix hBase pattern) names

end Absolute

/-- Two sources are never one path in two spellings with the same components, and each listed or
selected path is a source in some spelling. Without links two sources are one file only if one of them
steps up behind what they have in common, so never if all that the settings name goes down from the
same segments. -/
theorem distinct_sources {t : FileTree} (hNamed : t.Named) (hLinks : t.LinkFree)
    {options : ProjectOptions} {project : Project} (hLoad : load t options = .ok project)
    {settings : Settings}
    (hSettings : project.config.elim (.ok {}) (TsConfig.load t) = .ok settings) :
    (project.sourceFiles.Pairwise fun p q => p.components ≠ q.components ∧
      (t.SamePlace p q → ∀ front, p.DescendsFrom front → ¬q.DescendsFrom front)) ∧
    (∀ p ∈ listedPaths settings ++ selectedFiles t project.root settings,
      ∃ q ∈ project.sourceFiles, q.components = p.components) ∧
    ∀ front, (∀ p ∈ listedPaths settings, p.DescendsFrom front) →
      (∀ pattern ∈ (includesInForce project.root settings).patterns,
        (walkRoot t project.root settings pattern).DescendsFrom front) →
      project.sourceFiles.Pairwise fun p q => ¬t.SamePlace p q := by
  obtain ⟨other, hOther, hFiles⟩ := load_eq_ok hLoad
  rw [hSettings] at hOther
  obtain rfl := Except.ok.inj hOther
  have hSources := (collectFiles_eq_ok_iff.mp hFiles).2.2
  have hOrdered : Path.Ordered project.sourceFiles := by
    rw [hSources]
    exact Path.Ordered.foldl_insert List.Pairwise.nil _
  -- the order is strict, so two sources differ in their components
  have hApart : project.sourceFiles.Pairwise fun p q => p.components ≠ q.components ∧
      (t.SamePlace p q → ∀ front, p.DescendsFrom front → ¬q.DescendsFrom front) := by
    refine hOrdered.imp_of_mem fun {p q} hP hQ hBefore => ?_
    have hDiffer := Path.components_ne_of_before hBefore
    exact ⟨hDiffer, fun hSame front hDescends hOther => hDiffer
      (hSame.components_eq hLinks (isAbsolute_of_mem_sourceFiles hNamed hLoad hP)
        (isAbsolute_of_mem_sourceFiles hNamed hLoad hQ) hDescends hOther)⟩
  refine ⟨hApart, fun p hP => ?_, fun front hListed hWalks => ?_⟩
  · rw [hSources]
    exact Path.exists_mem_foldl_insert [] hP
  · have hDescends : ∀ p ∈ project.sourceFiles, p.DescendsFrom front := by
      intro p hP
      rcases listed_or_descends hNamed hFiles hP with hName | ⟨pattern, hPattern, names, hNames, rfl⟩
      · exact hListed p hName
      · exact (hWalks pattern hPattern).descend hNames
    exact hApart.imp_of_mem fun {p q} hP hQ hPair hSame =>
      hPair.2 hSame front (hDescends p hP) (hDescends q hQ)

def respelledProject (config base : String) : FileTree := ⟨[
  (["w"], .directory 0o755),
  (["w", "configs"], .directory 0o755),
  (["w", "configs", "base.json"], .file base.toUTF8 0o644),
  (["w", "src"], .directory 0o755),
  (["w", "src", "a.ts"], .file "".toUTF8 0o644),
  (["w", "src", "b.ts"], .file "".toUTF8 0o644),
  (["w", "tsconfig.json"], .file config.toUTF8 0o644)]⟩

/-- All names come from the config in the other directory, one of them with a slash too many. -/
def inheritedProject : FileTree :=
  respelledProject "\x7b extends: './configs/base.json' \x7d"
    "\x7b files: ['../src//a.ts'], include: ['../src'] \x7d"

/-- The file listed in the other directory is in what the config itself includes. -/
def overlappingProject : FileTree :=
  respelledProject "\x7b extends: './configs/base.json', include: ['src'] \x7d"
    "\x7b files: ['../src/a.ts'] \x7d"

def inheritedSettings : Settings :=
  { files := some ⟨⟨"/w/configs"⟩, ["../src//a.ts"]⟩, includes := some ⟨⟨"/w/configs"⟩, ["../src"]⟩ }

theorem inheritedProject_distinct :
    load inheritedProject { directory := ⟨"/w"⟩ } = .ok ⟨⟨"/w"⟩, some ⟨"/w/tsconfig.json"⟩,
        [⟨"/w/configs/../src//a.ts"⟩, ⟨"/w/configs/../src/b.ts"⟩]⟩ ∧
      [⟨"/w/configs/../src//a.ts"⟩, ⟨"/w/configs/../src/b.ts"⟩].Pairwise fun p q =>
        ¬inheritedProject.SamePlace p q := by
  have hLoad : load inheritedProject { directory := ⟨"/w"⟩ } = .ok ⟨⟨"/w"⟩, some ⟨"/w/tsconfig.json"⟩,
      [⟨"/w/configs/../src//a.ts"⟩, ⟨"/w/configs/../src/b.ts"⟩]⟩ := by decide +kernel
  have hSettings : TsConfig.load inheritedProject ⟨"/w/tsconfig.json"⟩ = .ok inheritedSettings := by
    decide +kernel
  refine ⟨hLoad, (distinct_sources (by decide +kernel) (by decide +kernel) hLoad hSettings).2.2
    ["w".toList, "configs".toList, "..".toList] ?_ ?_⟩
  · intro p hP
    obtain rfl := List.mem_singleton.mp hP
    exact ⟨["src".toList, "a.ts".toList], by decide +kernel, by decide⟩
  · intro pattern hPattern
    obtain rfl := List.mem_singleton.mp hPattern
    exact ⟨["src".toList], by decide +kernel, by decide⟩

/-- A file can be a source twice. -/
theorem not_forall_distinct_sources :
    ¬∀ (t : FileTree) (options : ProjectOptions) (project : Project), t.LinkFree →
      load t options = .ok project → project.sourceFiles.Pairwise fun p q => ¬t.SamePlace p q := by
  intro hAll
  have hLoad : load overlappingProject { directory := ⟨"/w"⟩ } = .ok ⟨⟨"/w"⟩, some ⟨"/w/tsconfig.json"⟩,
      [⟨"/w/configs/../src/a.ts"⟩, ⟨"/w/src/a.ts"⟩, ⟨"/w/src/b.ts"⟩]⟩ := by decide +kernel
  have hApart := List.rel_of_pairwise_cons (hAll _ _ _ (by decide +kernel) hLoad) List.mem_cons_self
  exact hApart ⟨["w", "src", "a.ts"], by decide +kernel, by decide +kernel⟩

end Project
end ExplicitModules
