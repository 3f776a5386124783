import ExplicitModules.Proofs.FileTree.Canonical
import ExplicitModules.Proofs.Path.Ancestors
import ExplicitModules.TsConfig.Inheritance

/-!
# The nearest config of a package

A spec with a dot or a slash in front is a path, and only the file at that path matters. Any other is
looked for in the packages of a directory and of all those above it, up to the root: the nearest
directory that has one of three files decides, and of these files the first one.
-/
namespace ExplicitModules
set_option autoImplicit false

namespace Path

variable {p : Path}

/-- The last component is a name that has the extension behind a dot, and not only that. -/
def HasExtension (p : Path) (extension : String) : Prop :=
  ∃ stem, stem ≠ "" ∧ p.fileName? = some (stem ++ "." ++ extension)

theorem reverse_takeWhile_dot {e : List Char} (stem : List Char) (hDot : '.' ∉ e) :
    ((stem ++ '.' :: e).reverse.takeWhile (· != '.')).reverse = e := by
  have hReverse : (stem ++ '.' :: e).reverse = e.reverse ++ '.' :: stem.reverse := by simp
  rw [hReverse, List.takeWhile_append_of_pos, List.takeWhile_cons_of_neg (by simp), List.append_nil,
    List.reverse_reverse]
  intro c hC
  rw [bne_iff_ne]
  rintro rfl
  exact hDot (List.mem_reverse.mp hC)

theorem exists_stem {name : List Char}
    (hLength : (name.reverse.takeWhile (· != '.')).length + 1 < name.length) :
    ∃ stem, stem ≠ [] ∧ name = stem ++ '.' :: (name.reverse.takeWhile (· != '.')).reverse := by
  have hSplit := List.takeWhile_append_dropWhile (p := (· != '.')) (l := name.reverse)
  have hStops := List.head?_dropWhile_not (· != '.') name.reverse
  generalize name.reverse.takeWhile (· != '.') = tail at hLength hSplit ⊢
  generalize name.reverse.dropWhile (· != '.') = back at hSplit hStops
  have hName : name = back.reverse ++ tail.reverse := by
    rw [← List.reverse_reverse name, ← hSplit, List.reverse_append]
  have hSum := congrArg List.length hName
  rw [List.length_append, List.length_reverse, List.length_reverse] at hSum
  cases back with
  | nil =>
    rw [List.length_nil] at hSum
    omega
  | cons dot more =>
    obtain rfl : dot = '.' := by simpa using hStops
    rw [List.length_cons] at hSum
    refine ⟨more.reverse, ?_, by simpa using hName⟩
    rw [ne_eq, List.reverse_eq_nil_iff, ← List.length_eq_zero_iff]
    omega

theorem extension?_eq_some_iff {e : String} (hDot : '.' ∉ e.toList) :
    p.extension? = some e ↔ p.HasExtension e := by
  unfold extension? HasExtension
  cases p.fileName? with
  | none => simp
  | some name =>
    rw [Option.bind_some]
    dsimp only
    constructor
    · intro h
      split at h
      · rename_i hLength
        obtain ⟨stem, hStem, hName⟩ := exists_stem hLength
        rw [← Option.some.inj h]
        refine ⟨String.ofList stem, by simpa using hStem, congrArg some ?_⟩
        apply String.toList_injective
        simpa using hName
      · cases h
    · rintro ⟨stem, hStem, hName⟩
      have hChars : name.toList = stem.toList ++ '.' :: e.toList := by
        rw [Option.some.inj hName]
        simp
      have hTail := reverse_takeWhile_dot stem.toList hDot
      rw [← hChars] at hTail
      have hLength := congrArg List.length hTail
      have hSum := congrArg List.length hChars
      have hPos : 0 < stem.toList.length := by
        rw [List.length_pos_iff, ne_eq, String.toList_eq_nil_iff]
        exact hStem
      rw [List.length_reverse] at hLength
      rw [List.length_append, List.length_cons] at hSum
      rw [hTail, String.ofList_toList, if_pos]
      omega

instance (p : Path) : Decidable (p.HasExtension "json") :=
  decidable_of_iff _ (extension?_eq_some_iff (by decide))

end Path

/-- Above a directory are the directories of the beginnings of its location. -/
theorem FileTree.ancestors_pathOf {loc : Location} (hNames : ∀ n ∈ loc, Path.IsName n) :
    (pathOf loc).ancestors = loc.inits.reverse.map pathOf := by
  induction loc using List.reverseRecOn with
  | nil => exact Path.ancestors_of_none (by decide)
  | append_singleton loc name ih =>
    rw [Path.ancestors_of_some (parent?_pathOf hNames),
      ih fun n hN => hNames n (List.mem_append_left [name] hN), List.inits_append]
    simp

namespace TsConfig

variable {t : FileTree} {directory p : Path} {spec : String}

def NamesPath (spec : String) : Prop :=
  ['.'] <+: spec.toList ∨ ['/'] <+: spec.toList

instance (spec : String) : Decidable (NamesPath spec) :=
  inferInstanceAs (Decidable (_ ∨ _))

theorem isPathSpec_iff : isPathSpec spec = true ↔ NamesPath spec := by
  have hHead : ∀ c, spec.toList.head? = some c ↔ [c] <+: spec.toList := by
    intro c
    rw [List.head?_eq_some_iff]
    exact exists_congr fun rest => eq_comm
  simp only [isPathSpec, Path.isAbsolute, Path.chars, Bool.or_eq_true, beq_iff_eq, hHead, NamesPath]

def packageText (above : Path) (spec : String) : String :=
  above.slashed ++ "node_modules/" ++ spec

/-- The files that the packages of `above` may hold for `spec`, the one to be preferred first. -/
def packageFiles (spec : String) (above : Path) : List Path :=
  let text := packageText above spec
  if Path.HasExtension ⟨text⟩ "json" then [⟨text⟩, ⟨Path.slashed ⟨text⟩ ++ "tsconfig.json"⟩]
  else [⟨text⟩, ⟨text ++ ".json"⟩, ⟨Path.slashed ⟨text⟩ ++ "tsconfig.json"⟩]

theorem withJson?_eq (p : Path) :
    withJson? p = if p.HasExtension "json" then none else some ⟨p.text ++ ".json"⟩ := by
  have hText : Path.ofChars (p.chars ++ ".json".toList) = ⟨p.text ++ ".json"⟩ :=
    congrArg Path.mk (String.toList_injective (by simp [Path.chars]))
  rw [withJson?, hText]
  exact if_congr (Path.extension?_eq_some_iff (by decide)) rfl rfl

theorem packageCandidates_eq {above : Path} (hAbove : above.isAbsolute = true)
    (hSpec : ¬NamesPath spec) : packageCandidates spec above = packageFiles spec above := by
  obtain ⟨rest, hChars⟩ := Path.exists_chars_of_isAbsolute hAbove
  have hRelative : Path.isAbsolute ⟨spec⟩ = false := by
    rw [← Bool.not_eq_true]
    intro hAbsolute
    exact hSpec (isPathSpec_iff.mp (by simp [isPathSpec, hAbsolute]))
  -- the spec is relative, so each path is put behind the one before with one slash between
  have hModules : above.joinText "node_modules" = ⟨above.slashed ++ "node_modules"⟩ :=
    Path.joinText_eq_slashed (by simp [hChars]) (by decide)
  have hSlashed : Path.slashed ⟨above.slashed ++ "node_modules"⟩ =
      above.slashed ++ "node_modules/" := by
    rw [Path.slashed, if_neg (by simp [Path.chars]), String.append_assoc]
    rfl
  have hBase : (above.joinText "node_modules").joinText spec = ⟨packageText above spec⟩ := by
    rw [hModules, Path.joinText_eq_slashed (by simp [Path.chars]) hRelative, hSlashed]
    rfl
  have hConfig : Path.joinText ⟨packageText above spec⟩ "tsconfig.json" =
      ⟨Path.slashed ⟨packageText above spec⟩ ++ "tsconfig.json"⟩ :=
    Path.joinText_eq_slashed (by simp [Path.chars, packageText]) (by decide)
  unfold packageCandidates packageFiles
  dsimp only
  rw [hBase, hConfig, withJson?_eq]
  split <;> rfl

def FirstFile (t : FileTree) (ps : List Path) (p : Path) : Prop :=
  t.isFile p = true ∧ ∃ missed rest, ps = missed ++ p :: rest ∧ ∀ m ∈ missed, t.isFile m = false

theorem find?_isFile_eq_some_iff {ps : List Path} :
    ps.find? t.isFile = some p ↔ FirstFile t ps p := by
  simp [List.find?_eq_some_iff_append, FirstFile]

/-- The first file of the nearest directory that has one, where `files` gives the files to look for in
a directory and `above` the directories, the nearest first. -/
def NearestFile (t : FileTree) (files : Path → List Path) (above : List Path) (p : Path) : Prop :=
  ∃ nearer directory farther, above = nearer ++ directory :: farther ∧
    (∀ d ∈ nearer, ∀ f ∈ files d, t.isFile f = false) ∧ FirstFile t (files directory) p

theorem find?_flatMap_eq_some_iff {files : Path → List Path} {above : List Path} :
    (above.flatMap files).find? t.isFile = some p ↔ NearestFile t files above p := by
  rw [List.find?_flatMap, List.findSome?_eq_some_iff]
  simp only [find?_isFile_eq_some_iff, List.find?_eq_none, Bool.not_eq_true]
  constructor
  · rintro ⟨nearer, directory, farther, hAbove, hFirst, hMissed⟩
    exact ⟨nearer, directory, farther, hAbove, hMissed, hFirst⟩
  · rintro ⟨nearer, directory, farther, hAbove, hMissed, hFirst⟩
    exact ⟨nearer, directory, farther, hAbove, hFirst, hMissed⟩

theorem NearestFile.unique {files : Path → List Path} {above : List Path} {q : Path}
    (h : NearestFile t files above p) (h' : NearestFile t files above q) : p = q := by
  have hFind := find?_flatMap_eq_some_iff.mpr h
  rw [find?_flatMap_eq_some_iff.mpr h'] at hFind
  exact (Option.some.inj hFind).symm

theorem NearestFile.not_missing {files : Path → List Path} {above : List Path}
    (h : NearestFile t files above p) : ¬∀ d ∈ above, ∀ f ∈ files d, t.isFile f = false := by
  obtain ⟨nearer, directory, farther, rfl, -, hFile, missed, rest, hFiles, -⟩ := h
  intro hMissing
  have hNone := hMissing directory (by simp) p (by simp [hFiles])
  rw [hFile] at hNone
  cases hNone

theorem locateBase_of_path (t : FileTree) (directory : Path) (hSpec : NamesPath spec) :
    locateBase t directory spec =
      .ok (if t.isFile (directory.joinText spec) = true ∨
          (directory.joinText spec).HasExtension "json" then directory.joinText spec
        else ⟨(directory.joinText spec).text ++ ".json"⟩) := by
  rw [locateBase, if_pos (isPathSpec_iff.mpr hSpec)]
  dsimp only
  rw [withJson?_eq]
  by_cases hFile : t.isFile (directory.joinText spec) = true
  · rw [if_pos hFile, if_pos (Or.inl hFile)]
  · rw [if_neg hFile]
    by_cases hJson : (directory.joinText spec).HasExtension "json"
    · rw [if_pos hJson, if_pos (Or.inr hJson), Option.getD_none]
    · rw [if_neg hJson, if_neg (not_or.mpr ⟨hFile, hJson⟩), Option.getD_some]

theorem locateBase_of_package (t : FileTree) (hDirectory : directory.isAbsolute = true)
    (hSpec : ¬NamesPath spec) :
    (∃ p, NearestFile t (packageFiles spec) directory.ancestors p ∧
      locateBase t directory spec = .ok p) ∨
    (∀ above ∈ directory.ancestors, ∀ f ∈ packageFiles spec above, t.isFile f = false) ∧
      locateBase t directory spec =
        .error (.configUnreadable (directory.joinText spec) (.noPackage spec)) := by
  have hAbsolute := (Path.climbs_ancestors hDirectory).absolute
  have hFiles : directory.ancestors.flatMap (packageCandidates spec) =
      directory.ancestors.flatMap (packageFiles spec) :=
    List.flatMap_congr fun above hAbove => packageCandidates_eq (hAbsolute above hAbove) hSpec
  rw [locateBase, if_neg (mt isPathSpec_iff.mp hSpec), hFiles]
  cases hFind : (directory.ancestors.flatMap (packageFiles spec)).find? t.isFile with
  | some p => exact Or.inl ⟨p, find?_flatMap_eq_some_iff.mp hFind, rfl⟩
  | none =>
    refine Or.inr ⟨fun above hAbove f hF => ?_, rfl⟩
    rw [← Bool.not_eq_true]
    exact List.find?_eq_none.mp hFind f (List.mem_flatMap.mpr ⟨above, hAbove, hF⟩)

/-- A spec that is a path stands for that path, or for the one with `.json` behind it, and no other
file matters. Any other spec stands for the first file of the nearest ancestor whose packages have one,
and is a fault exactly if none has. -/
theorem locateBase_nearest (t : FileTree) {directory : Path}
    (hDirectory : directory.isAbsolute = true) (spec : String) :
    let path := directory.joinText spec
    let missing := Fault.configUnreadable path (.noPackage spec)
    (NamesPath spec →
      locateBase t directory spec =
        .ok (if t.isFile path = true ∨ path.HasExtension "json" then path
          else ⟨path.text ++ ".json"⟩) ∧
      ∀ u : FileTree, u.isFile path = t.isFile path →
        locateBase u directory spec = locateBase t directory spec) ∧
    (¬NamesPath spec →
      directory.Climbs directory.ancestors ∧
      (∀ p, locateBase t directory spec = .ok p ↔
        NearestFile t (packageFiles spec) directory.ancestors p) ∧
      (locateBase t directory spec = .error missing ↔
        ∀ above ∈ directory.ancestors, ∀ f ∈ packageFiles spec above, t.isFile f = false) ∧
      ∀ fault, locateBase t directory spec = .error fault → fault = missing) := by
  refine ⟨fun hSpec => ⟨locateBase_of_path t directory hSpec, fun u hAgree => ?_⟩, fun hSpec => ?_⟩
  · rw [locateBase_of_path u directory hSpec, locateBase_of_path t directory hSpec, hAgree]
  · refine ⟨Path.climbs_ancestors hDirectory, ?_⟩
    obtain ⟨q, hNearest, hOk⟩ | ⟨hMissing, hError⟩ := locateBase_of_package t hDirectory hSpec
    · refine ⟨fun p => ?_, ?_, ?_⟩
      · rw [hOk, Except.ok.injEq]
        constructor
        · rintro rfl
          exact hNearest
        · exact hNearest.unique
      · rw [hOk]
        exact iff_of_false nofun hNearest.not_missing
      · rw [hOk]
        exact nofun
    · refine ⟨fun p => ?_, ?_, fun fault hFault => ?_⟩
      · rw [hError]
        exact iff_of_false nofun fun hNearest => hNearest.not_missing hMissing
      · exact iff_of_true hError hMissing
      · rw [hError] at hFault
        exact (Except.error.inj hFault).symm

/-- A directory whose own packages have a directory of the name, but no config in it. The packages
above have two configs of that name, and those of the root one more. -/
def layeredPackages : FileTree :=
  ⟨[(["p"], .directory 0o755), (["p", "app"], .directory 0o755),
    (["p", "app", "node_modules"], .directory 0o755),
    (["p", "app", "node_modules", "base"], .directory 0o755),
    (["p", "node_modules"], .directory 0o755), (["p", "node_modules", "base"], .directory 0o755),
    (["p", "node_modules", "base", "tsconfig.json"], .file .empty 0o644),
    (["p", "node_modules", "base.json"], .file .empty 0o644),
    (["node_modules"], .directory 0o755), (["node_modules", "base"], .file .empty 0o644)]⟩

theorem layeredPackages_nearest :
    Path.isAbsolute ⟨"/p/app"⟩ = true ∧
      locateBase layeredPackages ⟨"/p/app"⟩ "base" = .ok ⟨"/p/node_modules/base.json"⟩ ∧
      locateBase layeredPackages ⟨"/p/app"⟩ "./base" = .ok ⟨"/p/app/./base.json"⟩ := by
  have hAncestors : Path.ancestors ⟨"/p/app"⟩ = [⟨"/p/app"⟩, ⟨"/p"⟩, ⟨"/"⟩] :=
    @FileTree.ancestors_pathOf ["p", "app"] (by decide)
  have hNearest : NearestFile layeredPackages (packageFiles "base") (Path.ancestors ⟨"/p/app"⟩)
      ⟨"/p/node_modules/base.json"⟩ := by
    rw [hAncestors]
    refine ⟨[⟨"/p/app"⟩], ⟨"/p"⟩, [⟨"/"⟩], rfl, by decide +kernel, by decide +kernel,
      [⟨"/p/node_modules/base"⟩], [⟨"/p/node_modules/base/tsconfig.json"⟩], ?_, ?_⟩
    · decide +kernel
    · decide +kernel
  have hPackage := @locateBase_nearest layeredPackages ⟨"/p/app"⟩ (by decide) "base"
  have hPath := @locateBase_nearest layeredPackages ⟨"/p/app"⟩ (by decide) "./base"
  refine ⟨by decide, ((hPackage.2 (by decide)).2.1 _).mpr hNearest, ?_⟩
  exact (hPath.1 (by decide)).1.trans (by decide +kernel)

end TsConfig
end ExplicitModules
