import ExplicitModules.Proofs.FileTree.Canonical
import ExplicitModules.Proofs.Project.Selection

/-!
# Projects named by their config

A directory is made canonical before the name of the config is put behind it, a config is made canonical
as a whole. If the config in the directory is itself no link, both ways lead to the same project or the
same fault. A link leads to the directory of another config.
-/
namespace ExplicitModules
set_option autoImplicit false
open FileTree (pathOf maxLinks maxPath NulFree IsStep)
open ExplicitModules.Path (segments)

namespace Path

def gap (p : Path) : List Char :=
  if p.chars = [] ∨ p.chars.getLast? = some '/' then [] else ['/']

theorem chars_join {p q : Path} (h : q.isAbsolute = false) :
    (p.join q).chars = p.chars ++ (p.gap ++ q.chars) := by
  rw [join, if_neg (by simp [h]), gap]
  split
  · rw [chars_ofChars]
    rfl
  · rw [chars_ofChars]
    rfl

theorem gap_join {p q : Path} (h : q.isAbsolute = false) : (p.join q).gap = q.gap := by
  rcases q.chars.eq_nil_or_concat' with hNil | ⟨front, last, hLast⟩
  · rw [gap, gap, if_pos (Or.inl hNil), if_pos]
    rw [chars_join h, hNil, List.append_nil, gap]
    split
    · rename_i hEnd
      rwa [List.append_nil]
    · exact Or.inr List.getLast?_concat
  · rw [gap, gap, chars_join h, hLast, ← List.append_assoc, ← List.append_assoc, List.getLast?_concat,
      List.getLast?_concat]
    simp

/-- It makes no difference whether a name is put behind a path before or after that is joined. -/
theorem join_joinText {name : String} (hName : IsName name) (p q : Path) :
    p.join (q.joinText name) = (p.join q).joinText name := by
  cases hAbsolute : q.isAbsolute with
  | true =>
    have hWhole : (q.joinText name).isAbsolute = true := isAbsolute_join hAbsolute _
    rw [join, if_pos hWhole, join, if_pos hAbsolute]
  | false =>
    have hName' := hName.relative
    have hWhole : (q.joinText name).isAbsolute = false := by
      rw [isAbsolute, joinText, chars_join hName', beq_eq_false_iff_ne, gap]
      rw [isAbsolute, beq_eq_false_iff_ne] at hAbsolute hName'
      cases hChars : q.chars with
      | nil => simpa using hName'
      | cons c cs =>
        rw [hChars] at hAbsolute
        simpa using hAbsolute
    have hChars : (p.join (q.joinText name)).chars = ((p.join q).joinText name).chars := by
      rw [chars_join hWhole, joinText, joinText, chars_join hName', chars_join hName', chars_join hAbsolute,
        gap_join hAbsolute]
      simp only [List.append_assoc]
    rw [← ofChars_chars (p.join (q.joinText name)), hChars, ofChars_chars]

theorem utf8Length_le_joinText {p : Path} {name : String} (hName : IsName name) :
    Text.utf8Length p.chars ≤ Text.utf8Length (p.joinText name).chars := by
  rw [joinText, chars_join hName.relative, Text.utf8Length_append]
  exact Nat.le_add_right _ _

end Path

theorem FileTree.walkTo_mono {t : FileTree} {links more : Nat} {current loc : Location}
    {pending : List (List Char)} (h : t.walkTo true links current pending = .ok loc)
    (hMore : links ≤ more) : t.walkTo true more current pending = .ok loc := by
  have hAgain := walkTo_append h more [] (Or.inl (Eq.refl true))
  rw [List.append_nil] at hAgain
  rcases hAgain with ⟨hFewer, -⟩ | ⟨left, hSame⟩
  · exact absurd hFewer (Nat.not_lt.mpr hMore)
  · rw [hSame, walkTo_nil]

namespace Project

theorem isName_configName : Path.IsName configName := by decide

theorem isStep_configName : IsStep configName := by decide +kernel

/-- `p` leads to the directory `home`, in which the config leads to the file at `place`. -/
structure HoldsConfig (t : FileTree) (p : Path) (home place : Location) : Prop where
  directory : t.trace true p = .ok home
  isDirectory : t.isDirectoryAt home = true
  config : t.locate true (p.joinText configName) = .ok place
  isFile : t.isFileAt place = true

namespace HoldsConfig

variable {t : FileTree} {p : Path} {home place : Location} (h : HoldsConfig t p home place)
include h

omit h in
theorem segments_config (follow : Bool) (links : Nat) (current : Location) :
    t.walkTo follow links current (segments (p.joinText configName).chars) =
      t.walkTo follow links current (segments p.chars ++ [configName.toList]) := by
  have hNames : ∀ n ∈ [configName], Path.IsName n := by simpa using isName_configName
  rw [← Path.descend_nil (p.joinText configName), ← Path.descend_cons,
    FileTree.walkTo_descend hNames (List.cons_ne_nil _ _)]
  rfl

/-- From the directory on, the config is followed with no links spent on the way there. -/
theorem walk : t.walkTo true maxLinks home [configName.toList] = .ok place := by
  have hWalk := FileTree.locate_eq_ok h.config
  rw [segments_config] at hWalk
  obtain ⟨mid, left, hLeft, hFront, hBack⟩ := FileTree.walkTo_split hWalk
  rw [FileTree.walkTo_of_trace h.directory] at hFront
  obtain rfl := Except.ok.inj hFront
  exact FileTree.walkTo_mono hBack hLeft

/-- In its directory the config is an entry, at which there may be a link. -/
theorem exists_step :
    ∃ link, t.stepTo home configName.toList = .ok (home ++ [configName], link) ∧
      (place = home ++ [configName] ∨ t.IsLinkAt (home ++ [configName])) := by
  have hPlace : ∀ {next link}, t.stepTo home configName.toList = .ok (next, link) →
      next = home ++ [configName] := by
    intro next link hStep
    rcases (FileTree.stepTo_cases hStep).2 with ⟨hTrivial, -⟩ | ⟨-, hUp, -⟩ | ⟨-, -, hNext, -⟩
    · rw [isName_configName.nontrivial] at hTrivial
      cases hTrivial
    · exact absurd hUp isName_configName.notParent
    · rwa [String.ofList_toList] at hNext
  rcases FileTree.walkTo_cons_eq_ok h.walk with ⟨next, hStep, hEnd⟩ | ⟨next, target, _, -, hStep, -⟩
  · obtain rfl := hPlace hStep
    rw [FileTree.walkTo_nil] at hEnd
    exact ⟨none, hStep, Or.inl (Except.ok.inj hEnd).symm⟩
  · obtain rfl := hPlace hStep
    exact ⟨some target, hStep, Or.inr ⟨target, (FileTree.stepTo_eq_link hStep).2⟩⟩

theorem entry : t.locate false (p.joinText configName) = .ok (home ++ [configName]) := by
  obtain ⟨link, hStep, -⟩ := h.exists_step
  rw [FileTree.locate_eq_walkTo h.config t false, segments_config]
  rcases FileTree.walkTo_append (FileTree.walkTo_of_trace h.directory) maxLinks [configName.toList]
    (Or.inr (List.cons_ne_nil _ _)) with ⟨hFewer, -⟩ | ⟨left, hSame⟩
  · exact absurd hFewer (Nat.lt_irrefl _)
  · rw [hSame]
    cases link with
    | none => rw [FileTree.walkTo_cons_of_none hStep, FileTree.walkTo_nil]
    | some target => rw [FileTree.walkTo_last hStep]

theorem place_eq_iff : place = home ++ [configName] ↔ ¬t.IsLinkAt (home ++ [configName]) := by
  obtain ⟨-, -, hPlace | hLink⟩ := h.exists_step
  · exact iff_of_true hPlace (hPlace ▸ FileTree.not_isLinkAt_of_isFileAt h.isFile)
  · refine iff_of_false (fun hPlace => ?_) (not_not_intro hLink)
    exact FileTree.not_isLinkAt_of_isFileAt h.isFile (hPlace ▸ hLink)

theorem place_ne_nil : place ≠ [] := by
  rintro rfl
  cases h.isFile

theorem reached_home : t.Reached home :=
  (FileTree.walkTo_reached (FileTree.reached_nil t) (FileTree.not_isLinkAt_of_isDirectoryAt rfl)
    (FileTree.walkTo_of_trace h.directory)).1

theorem resolved_home {root : Path} (hRoot : t.canonical p = .ok root) :
    t.resolved p = .ok home := by
  rcases t.resolved_cases p with hSame | hLong
  · rw [hSame, h.directory]
  · rw [FileTree.canonical, hLong] at hRoot
    cases hRoot

/-- A config that is no link has a canonical path, if that is not too long. -/
theorem resolved_config (hHome : t.resolved p = .ok home) (hPlace : place = home ++ [configName])
    (hShort : Text.utf8Length (pathOf (home ++ [configName])).chars ≤ maxPath) :
    t.resolved (p.joinText configName) = .ok place := by
  obtain ⟨link, hStep, -⟩ := h.exists_step
  cases link with
  | some target =>
    exact absurd ⟨target, (FileTree.stepTo_eq_link hStep).2⟩ (h.place_eq_iff.mp hPlace)
  | none =>
    rw [FileTree.resolved_joinText isName_configName hHome, FileTree.trace_of_locate h.config]
    intro links
    rw [FileTree.overruns_singleton isName_configName hStep, decide_eq_false (Nat.not_lt.mpr hShort)]

variable (hNul : t.NulFree)
include hNul

theorem isStep_home : ∀ n ∈ home ++ [configName], IsStep n :=
  List.forall_mem_append.mpr ⟨hNul.isStep h.directory, by simpa using isStep_configName⟩

theorem isStep_place : ∀ n ∈ place, IsStep n :=
  hNul.isStep (FileTree.trace_of_locate h.config)

/-- The config behind the canonical path of its directory is the same file. -/
theorem trace_config : t.trace true (pathOf (home ++ [configName])) = .ok place := by
  rw [FileTree.trace_pathOf_concat (h.isStep_home hNul) h.reached_home h.isDirectory, h.walk]

theorem trace_place : t.trace true (pathOf place) = .ok place := by
  obtain ⟨content, mode, hNode⟩ := FileTree.isFileAt_iff.mp h.isFile
  exact FileTree.trace_pathOf (h.isStep_place hNul) (FileTree.locate_reached h.config).1 hNode nofun

theorem joinText_home : (pathOf home).joinText configName = pathOf (home ++ [configName]) :=
  FileTree.joinText_pathOf (fun n hN => (hNul.isStep h.directory n hN).isName) isName_configName

theorem rootAndConfig_home (hShort : Text.utf8Length (pathOf (home ++ [configName])).chars ≤ maxPath) :
    rootAndConfig t (pathOf home) = .ok (pathOf home, some (pathOf (home ++ [configName]))) := by
  obtain ⟨mode, hNode⟩ := FileTree.isDirectoryAt_iff.mp h.isDirectory
  have hDirectory : t.isDirectory (pathOf home) = true := by
    refine FileTree.isDirectory_iff.mpr ⟨home, ?_, h.isDirectory⟩
    rw [← h.joinText_home hNul] at hShort
    rw [FileTree.locate_of_short (Nat.le_trans (Path.utf8Length_le_joinText isName_configName) hShort)]
    exact FileTree.trace_pathOf (hNul.isStep h.directory) h.reached_home hNode nofun
  have hConfig : t.isFile (pathOf (home ++ [configName])) = true :=
    FileTree.isFile_iff.mpr
      ⟨place, (FileTree.locate_of_short hShort).trans (h.trace_config hNul), h.isFile⟩
  rw [rootAndConfig, if_pos hDirectory, h.joinText_home hNul]
  dsimp only
  rw [if_pos hConfig]

theorem rootAndConfig_place :
    rootAndConfig t (pathOf place) = .ok (pathOf place.dropLast, some (pathOf place)) := by
  have hDirectory : t.isDirectory (pathOf place) = false := by
    refine Bool.eq_false_iff.mpr fun hTrue => ?_
    obtain ⟨loc, hLocate, hLoc⟩ := FileTree.isDirectory_iff.mp hTrue
    obtain rfl := Except.ok.inj ((h.trace_place hNul).symm.trans (FileTree.trace_of_locate hLocate))
    rw [FileTree.isDirectoryAt_of_isFileAt h.isFile] at hLoc
    cases hLoc
  have hNames := fun n hN => (h.isStep_place hNul n hN).isName
  have hParent : (pathOf place).parent? = some (pathOf place.dropLast) := by
    obtain ⟨front, name, rfl⟩ := place.eq_nil_or_concat'.resolve_left h.place_ne_nil
    rw [List.dropLast_concat, FileTree.parent?_pathOf hNames]
  rw [rootAndConfig, hDirectory, if_neg Bool.false_ne_true, hParent]

end HoldsConfig

/-- A project is loaded from the root and the config that its canonical target stands for. -/
theorem load_of_rootAndConfig {t : FileTree} {cwd project : Path} {loc : Location} {root config : Path}
    (hTarget : t.resolved (cwd.join project) = .ok loc)
    (hFound : rootAndConfig t (pathOf loc) = .ok (root, some config)) :
    load t ⟨cwd, some project⟩ = (TsConfig.load t config).bind fun settings =>
      (collectFiles t root settings).bind fun sourceFiles => .ok ⟨root, some config, sourceFiles⟩ := by
  rw [load_eq_bind, ProjectOptions.target, FileTree.canonical, hTarget]
  simp only [Except.map, Except.mapError, Except.bind, hFound, Option.elim_some]

theorem config_of_load {t : FileTree} {cwd project : Path} {loc : Location} {root config : Path}
    {loaded : Project} (hTarget : t.resolved (cwd.join project) = .ok loc)
    (hFound : rootAndConfig t (pathOf loc) = .ok (root, some config))
    (h : load t ⟨cwd, some project⟩ = .ok loaded) : loaded.config = some config := by
  simp only [load_of_rootAndConfig hTarget hFound, bind_eq_ok_iff] at h
  obtain ⟨settings, -, sourceFiles, -, hLoaded⟩ := h
  obtain rfl := Except.ok.inj hLoaded
  rfl

theorem exists_resolved_of_load {t : FileTree} {options : ProjectOptions} {loaded : Project}
    (h : load t options = .ok loaded) : ∃ loc, t.resolved options.target = .ok loc := by
  rw [load_eq_bind, FileTree.canonical] at h
  cases hTarget : t.resolved options.target with
  | ok loc => exact ⟨loc, rfl⟩
  | error e =>
    rw [hTarget] at h
    cases h

/-- A project named by its directory and one named by the config in it are the same, also in the
fault that keeps them from being loaded, if the config in the directory is no link; if it is one,
they are never the same project. -/
theorem load_by_config {t : FileTree} (hNul : t.NulFree) {cwd project root : Path}
    (hDirectory : t.isDirectory (cwd.join project) = true)
    (hFile : t.isFile (cwd.join (project.joinText configName)) = true)
    (hRoot : t.canonical (cwd.join project) = .ok root)
    (hShort : Text.utf8Length (root.joinText configName).chars ≤ maxPath) :
    ((¬∃ entry, t.locate false (cwd.join (project.joinText configName)) = .ok entry ∧
        t.IsLinkAt entry) →
      load t ⟨cwd, some project⟩ = load t ⟨cwd, some (project.joinText configName)⟩) ∧
    ((∃ entry, t.locate false (cwd.join (project.joinText configName)) = .ok entry ∧
        t.IsLinkAt entry) →
      ∀ byDirectory byConfig, load t ⟨cwd, some project⟩ = .ok byDirectory →
        load t ⟨cwd, some (project.joinText configName)⟩ = .ok byConfig →
        byDirectory ≠ byConfig) := by
  have hTarget := Path.join_joinText isName_configName cwd project
  rw [hTarget] at hFile ⊢
  obtain ⟨place, hConfig, hFile⟩ := FileTree.isFile_iff.mp hFile
  obtain ⟨home, hLocate, hDirectory⟩ := FileTree.isDirectory_iff.mp hDirectory
  have h : HoldsConfig t (cwd.join project) home place :=
    ⟨FileTree.trace_of_locate hLocate, hDirectory, hConfig, hFile⟩
  have hResolved := h.resolved_home hRoot
  obtain rfl : pathOf home = root := by
    rw [FileTree.canonical, hResolved] at hRoot
    exact Except.ok.inj hRoot
  rw [h.joinText_home hNul] at hShort
  have hByDirectory := h.rootAndConfig_home hNul hShort
  have hByConfig := h.rootAndConfig_place hNul
  rw [h.entry]
  simp only [Except.ok.injEq, exists_eq_left']
  constructor
  · intro hPlain
    obtain rfl := h.place_eq_iff.mpr hPlain
    rw [List.dropLast_concat] at hByConfig
    have hPlace : t.resolved (cwd.join (project.joinText configName)) = .ok (home ++ [configName]) :=
      hTarget ▸ h.resolved_config hResolved rfl hShort
    rw [load_of_rootAndConfig hResolved hByDirectory, load_of_rootAndConfig hPlace hByConfig]
  · rintro hLink byDirectory _ hLoad hLoad' rfl
    obtain ⟨loc, hPlace⟩ := exists_resolved_of_load hLoad'
    rw [ProjectOptions.target] at hPlace
    dsimp only at hPlace
    have hTrace := FileTree.trace_of_resolved hPlace
    rw [hTarget, FileTree.trace_of_locate hConfig] at hTrace
    obtain rfl := Except.ok.inj hTrace
    -- a project knows its config, and the two configs are different entries
    have hSame := (config_of_load hResolved hByDirectory hLoad).symm.trans
      (config_of_load hPlace hByConfig hLoad')
    exact h.place_eq_iff.mp (FileTree.pathOf_inj (fun n hN => (h.isStep_home hNul n hN).isName)
      (fun n hN => (h.isStep_place hNul n hN).isName) (by simp) h.place_ne_nil
      (Option.some.inj hSame)).symm hLink

def linkedDirectory (config : Node) : FileTree := ⟨[
  (["w"], .directory 0o755),
  (["w", "app"], .directory 0o755),
  (["w", "app", "a.ts"], .file "".toUTF8 0o644),
  (["w", "app", "tsconfig.json"], config),
  (["w", "configs"], .directory 0o755),
  (["w", "configs", "base.json"], .file "\x7b\x7d".toUTF8 0o644),
  (["w", "link"], .link "configs/../app")]⟩

def plainDirectory : FileTree := linkedDirectory (.file "\x7b\x7d".toUTF8 0o644)

theorem plainDirectory_load :
    load plainDirectory ⟨⟨"/w"⟩, some ⟨"link"⟩⟩ =
        .ok ⟨⟨"/w/app"⟩, some ⟨"/w/app/tsconfig.json"⟩, [⟨"/w/app/a.ts"⟩]⟩ ∧
      load plainDirectory ⟨⟨"/w"⟩, some (Path.joinText ⟨"link"⟩ configName)⟩ =
        load plainDirectory ⟨⟨"/w"⟩, some ⟨"link"⟩⟩ := by
  have hLoad : load plainDirectory ⟨⟨"/w"⟩, some ⟨"link"⟩⟩ =
      .ok ⟨⟨"/w/app"⟩, some ⟨"/w/app/tsconfig.json"⟩, [⟨"/w/app/a.ts"⟩]⟩ := by decide +kernel
  have hCanonical : plainDirectory.canonical (Path.join ⟨"/w"⟩ ⟨"link"⟩) = .ok ⟨"/w/app"⟩ := by
    decide +kernel
  have hEntry : plainDirectory.locate false (Path.join ⟨"/w"⟩ (Path.joinText ⟨"link"⟩ configName)) =
      .ok ["w", "app", "tsconfig.json"] := by decide +kernel
  have hNul : plainDirectory.NulFree := by decide +kernel
  have hSame := load_by_config hNul (by decide +kernel) (by decide +kernel) hCanonical
    (by decide +kernel)
  refine ⟨hLoad, (hSame.1 ?_).symm⟩
  rintro ⟨entry, hFound, target, hLink⟩
  rw [hEntry] at hFound
  obtain rfl := Except.ok.inj hFound
  cases hLink

/-- A config that is a link can be another project than its directory. -/
theorem not_forall_load_by_config :
    ¬∀ (t : FileTree) (cwd project : Path), t.isDirectory (cwd.join project) = true →
      t.isFile (cwd.join (project.joinText configName)) = true →
      load t ⟨cwd, some project⟩ = load t ⟨cwd, some (project.joinText configName)⟩ := by
  intro hAll
  have hSame := hAll (linkedDirectory (.link "../configs/base.json")) ⟨"/w"⟩ ⟨"app"⟩ (by decide +kernel)
    (by decide +kernel)
  revert hSame
  decide +kernel

end Project
end ExplicitModules
