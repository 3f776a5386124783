import ExplicitModules.Project.Basic
import ExplicitModules.Proofs.FileTree.Listing

/-!
# Loading a project again

What a project is depends on the layout of the tree and on the texts of the configs that are read.
While these stay, the same project is loaded.
-/
namespace ExplicitModules
set_option autoImplicit false
open FileTree (SameLayout)

theorem bind_eq_ok_iff {ε α β : Type} {x : Except ε α} {f : α → Except ε β} {b : β} :
    x.bind f = .ok b ↔ ∃ a, x = .ok a ∧ f a = .ok b := by
  cases x with
  | error e => exact iff_of_false nofun nofun
  | ok a => simp [Except.bind]

theorem bind_eq_error_iff {ε α β : Type} {x : Except ε α} {f : α → Except ε β} {e : ε} :
    x.bind f = .error e ↔ x = .error e ∨ ∃ a, x = .ok a ∧ f a = .error e := by
  cases x with
  | error e' => simp [Except.bind]
  | ok a => simp [Except.bind]

namespace TsConfig

def homeOf (loc : Location) : Path :=
  (FileTree.pathOf loc).parent?.getD ⟨"/"⟩

def specsOf (config : TsConfig) : List String :=
  (config.bases.map Extends.specs).getD []

/-- The config at `path` is in `loc`, or one that it builds on is. -/
inductive Reads (t : FileTree) : Path → Location → Prop
  | self {path : Path} {loc : Location} (hPath : t.resolved path = .ok loc) : Reads t path loc
  | base {path base : Path} {loc found : Location} {text spec : String} {config : TsConfig}
      (hPath : t.resolved path = .ok loc) (hText : t.textAt loc = .ok text)
      (hConfig : parse (FileTree.pathOf loc) text = .ok config) (hSpec : spec ∈ specsOf config)
      (hBase : locateBase t (homeOf loc) spec = .ok base) (hFound : Reads t base found) :
      Reads t path found

theorem resolve_of_textAt {t : FileTree} {chain : List Location} {path : Path} {loc : Location}
    {text : String} (hPath : t.resolved path = .ok loc) (hNew : loc ∉ chain)
    (hText : t.textAt loc = .ok text) :
    resolve t chain path = (parse (FileTree.pathOf loc) text).bind fun config =>
      ((specsOf config).foldlM (fun (settings : Settings) spec =>
        (locateBase t (homeOf loc) spec).bind fun base =>
          (resolve t (loc :: chain) base).bind fun parent => .ok (settings.overlay parent)) {}).bind
        fun inherited => .ok (inherited.overlay (.ofConfig (homeOf loc) config)) := by
  rw [resolve, hPath]
  dsimp only
  rw [dif_neg hNew]
  split
  · rename_i hOther
    rw [hText] at hOther
    cases hOther
  · rename_i hOther
    rw [hText] at hOther
    cases hOther
    rfl

theorem resolve_of_error {t : FileTree} {chain : List Location} {path : Path} {loc : Location}
    {e : FileError} (hPath : t.resolved path = .ok loc) (hNew : loc ∉ chain)
    (hText : t.textAt loc = .error e) :
    resolve t chain path = .error (.configUnreadable (FileTree.pathOf loc) (.file e)) := by
  rw [resolve, hPath]
  dsimp only
  rw [dif_neg hNew]
  split
  · rename_i hOther
    rw [hText] at hOther
    cases hOther
    rfl
  · rename_i hOther
    rw [hText] at hOther
    cases hOther

theorem locateBase_eq {t u : FileTree} (h : t.SameShape u) (directory : Path) (spec : String) :
    locateBase u directory spec = locateBase t directory spec := by
  have hFile : u.isFile = t.isFile := funext h.isFile_eq
  unfold locateBase
  rw [hFile]

theorem foldlM_congr {α β ε : Type} {f g : β → α → Except ε β} {items : List α}
    (h : ∀ item ∈ items, ∀ b, f b item = g b item) (b : β) :
    items.foldlM f b = items.foldlM g b := by
  induction items generalizing b with
  | nil => rfl
  | cons item items ih =>
    rw [List.forall_mem_cons] at h
    rw [List.foldlM_cons, List.foldlM_cons, h.1]
    congr 1
    funext next
    exact ih h.2 next

/-- Settings depend on the texts of the configs that are read. -/
theorem resolve_eq {t u : FileTree} (h : t.SameShape u) {chain : List Location} {path : Path}
    (hRead : ∀ loc, Reads t path loc → u.textAt loc = t.textAt loc) :
    resolve u chain path = resolve t chain path := by
  induction chain, path using resolve.induct t with
  | case1 chain path e hPath =>
    rw [resolve, resolve, h.resolved_eq, hPath]
  | case2 chain path loc hPath hSeen =>
    rw [resolve, resolve, h.resolved_eq, hPath]
    dsimp only
    rw [dif_pos hSeen, dif_pos hSeen]
  | case3 chain path loc hPath hNew e hText =>
    have hSame := (hRead loc (.self hPath)).trans hText
    rw [resolve_of_error ((h.resolved_eq path).trans hPath) hNew hSame,
      resolve_of_error hPath hNew hText]
  | case4 chain path loc hPath hNew text hText ih =>
    have hSame := (hRead loc (.self hPath)).trans hText
    rw [resolve_of_textAt ((h.resolved_eq path).trans hPath) hNew hSame,
      resolve_of_textAt hPath hNew hText]
    cases hConfig : parse (FileTree.pathOf loc) text with
    | error e => rfl
    | ok config =>
      simp only [Except.bind]
      rw [foldlM_congr]
      intro spec hSpec settings
      rw [locateBase_eq h]
      cases hBase : locateBase t (homeOf loc) spec with
      | error e => rfl
      | ok base =>
        dsimp only
        rw [ih base fun found hFound => hRead found (.base hPath hText hConfig hSpec hBase hFound)]

theorem load_eq {t u : FileTree} (h : t.SameShape u) {path : Path}
    (hRead : ∀ loc, Reads t path loc → u.textAt loc = t.textAt loc) : load u path = load t path :=
  resolve_eq h hRead

end TsConfig

namespace Project

theorem isKept_of_outline (excluded : List Glob.Pattern) {e e' : WalkEntry}
    (h : e.outline = e'.outline) : isKept excluded e = isKept excluded e' := by
  have hPath : e.path = e'.path := congrArg Prod.fst h
  have hName : e.name = e'.name := congrArg (fun o => o.2.1) h
  have hDirectory : e.isDirectory = e'.isDirectory := congrArg (fun o => o.2.2.1) h
  rw [isKept, isKept, hPath, hName, hDirectory]

section Layout

variable {t u : FileTree} (h : t.SameLayout u)
include h

theorem absolutePattern_eq (base : Path) (pattern : String) :
    absolutePattern u base pattern = absolutePattern t base pattern := by
  simp only [absolutePattern, (h.nodeOf?_eq _).1]

theorem exclusions_eq (root : Path) (settings : Settings) :
    exclusions u root settings = exclusions t root settings := by
  have hPattern : absolutePattern u = absolutePattern t := by
    funext base pattern
    exact absolutePattern_eq h base pattern
  simp only [exclusions, exclusionTexts, hPattern]

theorem includedFiles_eq (allowJs : Bool) (excluded : List Glob.Pattern) (base : Path)
    (pattern : String) :
    includedFiles u allowJs excluded base pattern = includedFiles t allowJs excluded base pattern := by
  unfold includedFiles
  rw [absolutePattern_eq h]
  dsimp only
  cases Glob.Pattern.ofText? (absolutePattern t base pattern) with
  | none => rfl
  | some compiled =>
    dsimp only
    rw [(h.nodeOf?_eq _).2]
    split
    · -- what is selected shows in the outlines
      have hSelect : ∀ (root : Path) (walked : Except WalkFault (List WalkEntry)),
          ((walked.mapError (Fault.walkFailed root)).bind fun es =>
              .ok ((es.filter (isSelected allowJs compiled)).map WalkEntry.path)) =
            ((walked.map (List.map WalkEntry.outline)).mapError (Fault.walkFailed root)).bind
              fun os =>
              .ok ((os.filter fun o => o.2.2.2 && hasSourceExtension allowJs o.1 &&
                compiled.matchesText o.1.chars).map Prod.fst) := by
        intro root walked
        cases walked with
        | error fault => rfl
        | ok es =>
          refine congrArg Except.ok ?_
          rw [List.filter_map, List.map_map]
          rfl
      refine (hSelect _ _).trans (Eq.trans ?_ (hSelect _ _).symm)
      rw [h.walk_eq fun e e' hOutline => isKept_of_outline excluded hOutline]
    · rfl

theorem collectFiles_eq (root : Path) (settings : Settings) :
    collectFiles u root settings = collectFiles t root settings := by
  have hListed : ∀ files, listedFiles u files = listedFiles t files := by
    intro files
    simp only [listedFiles, h.shape.isFile_eq]
  have hIncluded : includedFiles u = includedFiles t := by
    funext allowJs excluded base pattern
    exact includedFiles_eq h allowJs excluded base pattern
  simp only [collectFiles, hListed, hIncluded, exclusions_eq h]

theorem rootAndConfig_eq (target : Path) : rootAndConfig u target = rootAndConfig t target := by
  simp only [rootAndConfig, (h.nodeOf?_eq _).1, h.shape.isFile_eq]

end Layout

theorem load_eq_bind (t : FileTree) (options : ProjectOptions) :
    load t options =
      ((t.canonical options.target).mapError fun _ => Fault.projectNotFound options.target).bind
        fun target => (rootAndConfig t target).bind fun found =>
          (found.2.elim (.ok {}) (TsConfig.load t)).bind fun settings =>
            (collectFiles t found.1 settings).bind fun sourceFiles =>
              .ok ⟨found.1, found.2, sourceFiles⟩ := by
  unfold load
  simp only [bind, pure, Except.pure]
  congr 1
  funext target
  congr 1
  funext found
  obtain ⟨root, config⟩ := found
  cases config <;> rfl

/-- The same project is loaded while the configs that it reads stay. -/
theorem load_eq {t u : FileTree} (h : t.SameLayout u) {options : ProjectOptions}
    {project : Project} (hLoad : load t options = .ok project)
    (hRead : ∀ path, project.config = some path → ∀ loc, TsConfig.Reads t path loc →
      u.textAt loc = t.textAt loc) :
    load u options = .ok project := by
  rw [load_eq_bind] at hLoad ⊢
  rw [h.canonical_eq]
  cases hTarget : (t.canonical options.target).mapError
      fun _ => Fault.projectNotFound options.target with
  | error e =>
    rw [hTarget] at hLoad
    cases hLoad
  | ok target =>
    rw [hTarget] at hLoad
    dsimp only [Except.bind] at hLoad ⊢
    rw [rootAndConfig_eq h]
    cases hRoot : rootAndConfig t target with
    | error e =>
      rw [hRoot] at hLoad
      cases hLoad
    | ok found =>
      rw [hRoot] at hLoad
      dsimp only at hLoad ⊢
      have hConfig : project.config = found.2 := by
        obtain ⟨settings, -, hLoaded⟩ := bind_eq_ok_iff.mp hLoad
        obtain ⟨sourceFiles, -, hProject⟩ := bind_eq_ok_iff.mp hLoaded
        exact (congrArg Project.config (Except.ok.inj hProject)).symm
      have hSettings : found.2.elim (.ok {}) (TsConfig.load u) =
          found.2.elim (.ok {}) (TsConfig.load t) := by
        cases hFound : found.2 with
        | none => rfl
        | some path => exact TsConfig.load_eq h.shape (hRead path (hConfig.trans hFound))
      rw [hSettings]
      simp only [collectFiles_eq h]
      exact hLoad

end Project

end ExplicitModules
