import ExplicitModules.Proofs.FileTree.Arrival
import ExplicitModules.Proofs.Project.Anchoring
import ExplicitModules.Proofs.Project.Exclusion
import ExplicitModules.Proofs.TsConfig.PostOrder

/-!
# Directories left out

The output directory, and every excluded directory that is given without wildcards, is left out by
comparing texts: what the setting spells against the paths as a walk shows them. Its files are left out
if the two spellings of the directory are the same, and a walk that shows plain paths asks for a plain
spelling.
-/
namespace ExplicitModules
set_option autoImplicit false
open ExplicitModules.Path (segments joinSegments isTrivial)

namespace Path

/-- Two texts, the second of which may have slashes where the first has backslashes. -/
def Slashed (cs es : List Char) : Prop :=
  List.Forall₂ (fun c e => e = c ∨ c = '\\' ∧ e = '/') cs es

theorem Slashed.refl (cs : List Char) : Slashed cs cs :=
  List.forall₂_same.mpr fun _ _ => Or.inl rfl

theorem Slashed.map (cs : List Char) : Slashed cs (cs.map fun c => if c = '\\' then '/' else c) := by
  rw [Slashed, List.forall₂_map_right_iff, List.forall₂_same]
  intro c _
  by_cases hBack : c = '\\'
  · exact Or.inr ⟨hBack, if_pos hBack⟩
  · exact Or.inl (if_neg hBack)

theorem Slashed.append {cs es cs' es' : List Char} (h : Slashed cs es) (h' : Slashed cs' es') :
    Slashed (cs ++ cs') (es ++ es') :=
  List.rel_append h h'

theorem segments_cons_of_ne {c : Char} {cs first : List Char} {rest : List (List Char)} (h : c ≠ '/')
    (hSplit : segments cs = first :: rest) : segments (c :: cs) = (c :: first) :: rest := by
  rw [segments, if_neg h, hSplit]

/-- Segments without backslashes are segments of the other text, the first of them in front. -/
theorem Slashed.exists_segments {cs es : List Char} (h : Slashed cs es) :
    ∃ first rest other later, segments cs = first :: rest ∧ segments es = other :: later ∧
      ('\\' ∉ first → other = first) ∧ ∀ s ∈ rest, '\\' ∉ s → s ∈ later := by
  induction h with
  | nil => exact ⟨[], [], [], [], rfl, rfl, fun _ => rfl, nofun⟩
  | @cons c e cs es hHead _ ih =>
    obtain ⟨first, rest, other, later, hCs, hEs, hFirst, hRest⟩ := ih
    rcases hHead with rfl | ⟨rfl, rfl⟩
    · by_cases hSlash : e = '/'
      · subst hSlash
        refine ⟨[], first :: rest, [], other :: later, by rw [segments, if_pos rfl, hCs],
          by rw [segments, if_pos rfl, hEs], fun _ => rfl, ?_⟩
        rw [List.forall_mem_cons]
        exact ⟨fun hBack => hFirst hBack ▸ List.mem_cons_self,
          fun s hS hBack => List.mem_cons_of_mem _ (hRest s hS hBack)⟩
      · refine ⟨e :: first, rest, e :: other, later, segments_cons_of_ne hSlash hCs,
          segments_cons_of_ne hSlash hEs, fun hBack => ?_, hRest⟩
        rw [hFirst fun hMem => hBack (List.mem_cons_of_mem _ hMem)]
    · refine ⟨'\\' :: first, rest, [], other :: later, segments_cons_of_ne (by decide) hCs,
        by rw [segments, if_pos rfl, hEs], fun hBack => absurd List.mem_cons_self hBack, ?_⟩
      exact fun s hS hBack => List.mem_cons_of_mem _ (hRest s hS hBack)

theorem Slashed.mem_segments {cs es s : List Char} (h : Slashed cs es) (hS : s ∈ segments cs)
    (hBack : '\\' ∉ s) : s ∈ segments es := by
  obtain ⟨first, rest, other, later, hCs, hEs, hFirst, hRest⟩ := h.exists_segments
  rw [hCs] at hS
  rw [hEs]
  rcases List.mem_cons.mp hS with rfl | hS
  · exact hFirst hBack ▸ List.mem_cons_self
  · exact List.mem_cons_of_mem _ (hRest s hS hBack)

end Path

namespace FileTree

/-- A text that may have backslashes for slashes of a plain path is the plain path of the location that
it leads to. -/
theorem pathOf_arrive {cs es more : List Char} {loc : Location} (h : Path.Slashed cs es)
    (hNames : ∀ n ∈ loc, Path.IsName n) (hSome : loc ≠ [])
    (hText : joinSegments (loc.map String.toList) = es ++ more)
    (hMore : more = [] ∨ ∃ rest, more = '/' :: rest) :
    (pathOf (arrive [] (Path.moving ('/' :: cs)))).chars = '/' :: cs := by
  have hSegments : segments (es ++ more) = loc.map String.toList := by
    rw [← hText]
    exact Path.segments_joinSegments (by simpa using hSome) (Path.slash_notMem_of_mem_names hNames)
  have hOther : ∀ s ∈ segments es, s ∈ loc.map String.toList := by
    intro s hS
    rw [← hSegments]
    rcases hMore with rfl | ⟨rest, rfl⟩
    · rwa [List.append_nil]
    · rw [Path.segments_append_slash]
      exact List.mem_append_left _ hS
  have hPlain : ∀ s ∈ segments cs, isTrivial s = false ∧ s ≠ ['.', '.'] := by
    intro s hS
    by_cases hBack : '\\' ∈ s
    · constructor
      · rw [isTrivial, Bool.or_eq_false_iff, beq_eq_false_iff_ne, beq_eq_false_iff_ne]
        constructor <;> rintro rfl <;> simp at hBack
      · rintro rfl
        simp at hBack
    · obtain ⟨n, hN, rfl⟩ := List.mem_map.mp (hOther s (h.mem_segments hS hBack))
      exact ⟨(hNames n hN).nontrivial, (hNames n hN).notParent⟩
  have hMoving : Path.moving ('/' :: cs) = segments cs := by
    rw [← List.nil_append ('/' :: cs), Path.moving_append_slash]
    exact List.filter_eq_self.mpr fun s hS => by simp [(hPlain s hS).1]
  have hNamesBack : (segments cs).map (String.toList ∘ String.ofList) = segments cs := by
    simp [Function.comp_def]
  rw [hMoving, arrive_names hPlain, List.nil_append, chars_pathOf, List.map_map, hNamesBack,
    Path.joinSegments_segments]

end FileTree

/-- All that is set belongs to absolute directories. -/
structure Settings.Rooted (settings : Settings) : Prop where
  files : ∀ files, settings.files = some files → files.base.isAbsolute = true
  includes : ∀ includes, settings.includes = some includes → includes.base.isAbsolute = true
  excludes : ∀ excludes, settings.excludes = some excludes → excludes.base.isAbsolute = true
  outDir : ∀ out, settings.outDir = some out → out.isAbsolute = true

namespace TsConfig

theorem isAbsolute_homeOf (loc : Location) : (homeOf loc).isAbsolute = true := by
  have hSplit : Path.splitLead (FileTree.pathOf loc).chars =
      (['/'], joinSegments (loc.map String.toList)) := by
    rw [FileTree.chars_pathOf, Path.splitLead]
  unfold homeOf Path.parent?
  rw [hSplit]
  dsimp only
  split
  · rfl
  · simp [Path.isAbsolute]

theorem isAbsolute_of_lastSet {t : FileTree} {α : Type} {own : TsConfig → Option α}
    {order : List Location} {s : Path × α} (h : lastSet t own order = some s) :
    s.1.isAbsolute = true := by
  obtain ⟨found, -, hFound⟩ := List.exists_of_findSome?_eq_some h
  obtain ⟨value, -, rfl⟩ := Option.map_eq_some_iff.mp hFound
  exact isAbsolute_homeOf found

theorem rooted_of_load {t : FileTree} {path : Path} {settings : Settings}
    (h : load t path = .ok settings) : settings.Rooted := by
  obtain ⟨loc, -, order, -, -, rfl⟩ := resolve_eq_ok_iff.mp h
  have hFields := lastWins_inForce (t := t) order
  have hBase : ∀ {own : TsConfig → Option (List String)} {patterns : Patterns},
      ((lastSet t own order).map fun s => (⟨s.1, s.2⟩ : Patterns)) = some patterns →
        patterns.base.isAbsolute = true := by
    intro own patterns hPatterns
    obtain ⟨s, hSet, rfl⟩ := Option.map_eq_some_iff.mp hPatterns
    exact isAbsolute_of_lastSet hSet
  refine ⟨?_, ?_, ?_, fun out hOut => ?_⟩
  · rw [hFields.files]
    exact fun _ => hBase
  · rw [hFields.includes]
    exact fun _ => hBase
  · rw [hFields.excludes]
    exact fun _ => hBase
  · rw [hFields.outDir] at hOut
    obtain ⟨s, hSet, rfl⟩ := Option.map_eq_some_iff.mp hOut
    exact Path.isAbsolute_join (isAbsolute_of_lastSet hSet) _

end TsConfig

namespace Project
open Glob (Pattern ReadsAs)

/-- A directory that the settings leave out: the path that is meant, the glob that is made of it and the
text that this glob matches. -/
structure Omission where
  path : Path
  glob : List Char
  spelled : List Char
deriving DecidableEq

def slashed (p : Path) : List Char :=
  p.chars.map fun c => if c = '\\' then '/' else c

def spelledAt (base : Path) (pattern : String) : List Char :=
  let trimmed := trimSlashes (trimStart pattern.toList)
  if trimmed = [] ∨ trimmed = ['.'] then slashed base else slashed base ++ '/' :: trimmed

/-- The output directory, if nothing is excluded, or else the relative exclusions without wildcards. -/
def omissions (t : FileTree) (settings : Settings) : List Omission :=
  match settings.excludes with
  | some excludes =>
    (excludes.patterns.filter fun pattern =>
      !Path.isAbsolute ⟨pattern⟩ && !pattern.toList.any Glob.isWildcard).map fun pattern =>
        ⟨excludes.base.joinText pattern, absolutePattern t excludes.base pattern,
          spelledAt excludes.base pattern⟩
  | none => settings.outDir.toList.map fun out => ⟨out, escapedPath out, slashed out⟩

theorem mem_omissions_iff {t : FileTree} {settings : Settings} {o : Omission} :
    o ∈ omissions t settings ↔
      (∃ out, settings.excludes = none ∧ settings.outDir = some out ∧
        o = ⟨out, escapedPath out, slashed out⟩) ∨
      ∃ excludes, settings.excludes = some excludes ∧ ∃ pattern ∈ excludes.patterns,
        Path.isAbsolute ⟨pattern⟩ = false ∧ (∀ c ∈ pattern.toList, Glob.isWildcard c = false) ∧
          o = ⟨excludes.base.joinText pattern, absolutePattern t excludes.base pattern,
            spelledAt excludes.base pattern⟩ := by
  unfold omissions
  cases settings.excludes with
  | none =>
    rw [List.mem_map]
    constructor
    · rintro ⟨out, hOut, rfl⟩
      exact Or.inl ⟨out, rfl, Option.mem_toList.mp hOut, rfl⟩
    · rintro (⟨out, -, hOut, rfl⟩ | ⟨_, hNone, -⟩)
      · exact ⟨out, Option.mem_toList.mpr hOut, rfl⟩
      · cases hNone
  | some excludes =>
    simp only [List.mem_map, List.mem_filter, Bool.and_eq_true, Bool.not_eq_true', List.any_eq_false,
      Bool.not_eq_true]
    constructor
    · rintro ⟨pattern, ⟨hMem, hRelative, hPlain⟩, rfl⟩
      exact Or.inr ⟨excludes, rfl, pattern, hMem, hRelative, hPlain, rfl⟩
    · rintro (⟨_, hSome, -⟩ | ⟨other, hOther, pattern, hMem, hRelative, hPlain, rfl⟩)
      · cases hSome
      · cases hOther
        exact ⟨pattern, ⟨hMem, hRelative, hPlain⟩, rfl⟩

section Omissions

variable {t : FileTree} {root : Path} {settings : Settings} {o : Omission}

theorem spelledAt_eq (base : Path) (pattern : String) :
    spelledAt base pattern = slashed base ++ trail pattern := by
  unfold spelledAt trail
  dsimp only
  split
  · rw [List.append_nil]
  · rfl

theorem readsAs_anchored {base : Path} {pattern : String}
    (hPlain : ∀ c ∈ pattern.toList, Glob.isWildcard c = false) :
    ReadsAs (anchored base pattern) (spelledAt base pattern) := by
  rw [anchored_eq, spelledAt_eq]
  exact (ReadsAs.escape _).append (.of_plain (plain_trail hPlain))

/-- The glob of an omission is read as what it spells, with everything below appended or not. -/
theorem exists_readsAs (h : o ∈ omissions t settings) : ∃ text, ReadsAs text o.spelled ∧
    (o.glob = text ∨ o.glob = text ++ everythingBelow) := by
  rcases mem_omissions_iff.mp h with ⟨out, -, -, rfl⟩ | ⟨excludes, -, pattern, -, -, hPlain, rfl⟩
  · exact ⟨_, .escape _, Or.inl rfl⟩
  · refine ⟨_, readsAs_anchored hPlain, ?_⟩
    unfold absolutePattern
    dsimp only
    split
    · exact Or.inr rfl
    · exact Or.inl rfl

theorem glob_mem_exclusionTexts (h : o ∈ omissions t settings) :
    o.glob ∈ exclusionTexts t root settings := by
  unfold exclusionTexts
  rcases mem_omissions_iff.mp h with ⟨out, hNone, hOut, rfl⟩ | ⟨excludes, hSome, pattern, hMem, -, -, rfl⟩
  · rw [hNone, hOut]
    exact List.mem_append_right _ (List.mem_singleton_self _)
  · rw [hSome]
    exact List.mem_map_of_mem hMem

theorem isExcluded_of_spelled {p : Path} {rest : List Char} (h : o ∈ omissions t settings)
    (hText : p.chars = o.spelled ++ '/' :: rest) :
    isExcluded (exclusions t root settings) p = true := by
  obtain ⟨text, hReads, hGlob⟩ := exists_readsAs h
  obtain ⟨compiled, hCompiled, hBelow⟩ := hReads.exists_below
  refine isExcluded_iff.mpr ⟨compiled, mem_exclusions_iff.mpr ⟨o.glob, glob_mem_exclusionTexts h, ?_⟩,
    (hBelow _).mpr ⟨rest, hText⟩⟩
  rcases hGlob with hPlain | hWider
  · exact Or.inr (hPlain ▸ hCompiled)
  · exact Or.inl (hWider ▸ hCompiled)

/-- The patterns made of an omission match what it spells and what is below, nothing else. -/
theorem spelled_of_accepts {compiled : Pattern} {p : List Char} (h : o ∈ omissions t settings)
    (hCompiled : Pattern.ofText? o.glob = some compiled ∨
      Pattern.ofText? (o.glob ++ everythingBelow) = some compiled)
    (hAccepts : compiled.accepts p = true) : ∃ more, Path.GoesOn more ∧ p = o.spelled ++ more := by
  obtain ⟨text, hReads, hGlob⟩ := exists_readsAs h
  obtain ⟨x, hX, hGlobText⟩ : ∃ x, Path.GoesOn x ∧ o.glob = text ++ x := by
    rcases hGlob with hPlain | hWider
    · exact ⟨[], Or.inl rfl, by rw [hPlain, List.append_nil]⟩
    · exact ⟨_, goesOn_everythingBelow, hWider⟩
  rw [hGlobText, List.append_assoc] at hCompiled
  rcases hCompiled with hRead | hRead
  · exact hReads.goesOn_of_accepts hX hRead hAccepts
  · exact hReads.goesOn_of_accepts (hX.concat goesOn_everythingBelow) hRead hAccepts

/-- What an omission spells leads, with the backslashes put back, where its path leads. -/
theorem exists_slashed (h : o ∈ omissions t settings)
    (hExcludes : ∀ excludes, settings.excludes = some excludes → excludes.base.isAbsolute = true)
    (hOut : ∀ out, settings.outDir = some out → out.isAbsolute = true) :
    ∃ cs es, o.spelled = '/' :: es ∧ Path.Slashed cs es ∧
      Path.moving ('/' :: cs) = Path.moving o.path.chars := by
  rcases mem_omissions_iff.mp h with
    ⟨out, -, hSome, rfl⟩ | ⟨excludes, hSome, pattern, -, hRelative, -, rfl⟩
  · obtain ⟨cs, hChars⟩ := Path.exists_chars_of_isAbsolute (hOut out hSome)
    exact ⟨cs, _, by rw [slashed, hChars]; rfl, .map cs, by rw [← hChars]⟩
  · obtain ⟨cs, hChars⟩ := Path.exists_chars_of_isAbsolute (hExcludes excludes hSome)
    refine ⟨cs ++ trail pattern, _, by rw [spelledAt_eq, slashed, hChars]; rfl,
      (Path.Slashed.map cs).append (.refl _), ?_⟩
    rw [← List.cons_append, (goesOn_trail pattern).moving_append, moving_trail,
      Path.moving_joinText hRelative, hChars]

/-- An omission that leaves out a plain path spells the plain path of its directory. -/
theorem spelled_eq_of_accepts (h : o ∈ omissions t settings)
    (hExcludes : ∀ excludes, settings.excludes = some excludes → excludes.base.isAbsolute = true)
    (hOut : ∀ out, settings.outDir = some out → out.isAbsolute = true) (hLinks : t.LinkFree)
    {d : Location} (hPath : t.trace true o.path = .ok d) (hRoot : d ≠ []) {names : List String}
    (hSome : names ≠ []) (hNames : ∀ n ∈ d ++ names, Path.IsName n) {compiled : Pattern}
    (hCompiled : Pattern.ofText? o.glob = some compiled ∨
      Pattern.ofText? (o.glob ++ everythingBelow) = some compiled)
    (hAccepts : compiled.accepts (FileTree.pathOf (d ++ names)).chars = true) :
    o.spelled = (FileTree.pathOf d).chars := by
  obtain ⟨cs, es, hSpelled, hSlashed, hMoving⟩ := exists_slashed h hExcludes hOut
  obtain ⟨more, hMore, hText⟩ := spelled_of_accepts h hCompiled hAccepts
  have hJoined : joinSegments ((d ++ names).map String.toList) = es ++ more := by
    rw [FileTree.chars_pathOf, hSpelled] at hText
    exact (List.cons.inj hText).2
  -- the plain path of `d` is as long as what is spelled, and both begin the same plain path
  have hPlain := FileTree.pathOf_arrive hSlashed hNames (by simp [hRoot]) hJoined hMore
  rw [hMoving, ← FileTree.trace_eq_arrive hLinks hPath] at hPlain
  have hAbove := fun n hN => hNames n (List.mem_append_left names hN)
  obtain ⟨rest, hRest⟩ := (FileTree.endsInName_pathOf hAbove hRoot).exists_rest
    (fun n hN => hNames n (List.mem_append_right d hN)) hSome
  rw [FileTree.descend_pathOf hNames, hText] at hRest
  refine List.append_inj_left hRest ?_
  rw [hSpelled, hPlain, List.length_cons, List.length_cons, hSlashed.length_eq]

end Omissions

theorem rooted_of_config {t : FileTree} {config : Option Path} {settings : Settings}
    (h : config.elim (.ok {}) (TsConfig.load t) = .ok settings) : settings.Rooted := by
  cases config with
  | none =>
    obtain rfl := Except.ok.inj h
    exact ⟨nofun, nofun, nofun, nofun⟩
  | some path => exact TsConfig.rooted_of_load h

def walkRoot (t : FileTree) (root : Path) (settings : Settings) (pattern : String) : Path :=
  literalPrefix (absolutePattern t (includesInForce root settings).base pattern)

/-- A file that a pattern selects is shown where its walk starts or below. -/
theorem exists_of_mem_foundFiles {t : FileTree} (hNamed : t.Named) {allowJs : Bool}
    {excluded : List Pattern} {base p : Path} {pattern : String} {loc : Location}
    (h : p ∈ foundFiles t allowJs excluded base pattern) (hLoc : t.trace true p = .ok loc) :
    ∃ start names, t.trace true (literalPrefix (absolutePattern t base pattern)) = .ok start ∧
      p = (literalPrefix (absolutePattern t base pattern)).descend names ∧ loc = start ++ names ∧
      (∀ n ∈ names, Path.IsName n) ∧ t.isFileAt loc = true ∧
      (names ≠ [] → isExcluded excluded p = false) := by
  obtain ⟨compiled, -, -, hFinds, -⟩ := finds_of_mem_foundFiles h
  cases hFinds with
  | start hStart hFile =>
    have hHere := FileTree.trace_of_locate
      (FileTree.locate_true_of_false hStart (FileTree.not_isLinkAt_of_isFileAt hFile))
    rw [hHere] at hLoc
    cases hLoc
    exact ⟨_, [], hHere, rfl, (List.append_nil _).symm, nofun, hFile, absurd rfl⟩
  | @below start dirs name hStart hDirectory hWay hFile hOpen =>
    obtain ⟨content, mode, hNode⟩ := FileTree.isFileAt_iff.mp hFile
    have hNames := hNamed.isName_of_isFileAt hFile
    have hSame : loc = start ++ (dirs ++ [name]) := by
      rcases FileTree.walkTo_path_descend (FileTree.locate_eq_ok hStart) (by simp) hNames
        (fun front => hWay.isDirectoryAt_above hDirectory) hNode nofun with hFound | hLong
      · rw [FileTree.walkTo_of_trace hLoc] at hFound
        exact Except.ok.inj hFound
      · rw [FileTree.walkTo_of_trace hLoc] at hLong
        cases hLong
    refine ⟨start, dirs ++ [name], FileTree.trace_of_locate hStart, rfl, hSame, hNames, ?_,
      fun _ => hOpen⟩
    rw [hSame]
    exact hFile

/-- No source but those listed by name is in a directory that the settings leave out, if what they
spell is how each walk that gets there shows the directory. Where they do not spell its plain path,
they leave out no plain path in it. -/
theorem source_outside_omission {t : FileTree} (hNamed : t.Named) {options : ProjectOptions}
    {project : Project} (hLoad : load t options = .ok project) {settings : Settings}
    (hSettings : project.config.elim (.ok {}) (TsConfig.load t) = .ok settings) {o : Omission}
    (hOmission : o ∈ omissions t settings) {d : Location} (hPath : t.trace true o.path = .ok d)
    (hDirectory : t.isDirectoryAt d = true) (hRoot : d ≠ [])
    (hWalks : ∀ pattern ∈ (includesInForce project.root settings).patterns, ∀ start,
      t.trace true (walkRoot t project.root settings pattern) = .ok start → ¬d <+: start) :
    ((∀ pattern ∈ (includesInForce project.root settings).patterns, ∀ start names,
        t.trace true (walkRoot t project.root settings pattern) = .ok start → d = start ++ names →
          o.spelled = ((walkRoot t project.root settings pattern).descend names).chars) →
      ∀ p ∈ project.sourceFiles, (∀ q ∈ listedPaths settings, q.components ≠ p.components) →
        ∀ loc, t.trace true p = .ok loc → ¬d <+: loc) ∧
    (t.LinkFree → o.spelled ≠ (FileTree.pathOf d).chars →
      ∀ names, names ≠ [] → (∀ n ∈ d ++ names, Path.IsName n) → ∀ compiled,
        (Pattern.ofText? o.glob = some compiled ∨
          Pattern.ofText? (o.glob ++ everythingBelow) = some compiled) →
        compiled.accepts (FileTree.pathOf (d ++ names)).chars = false) := by
  constructor
  · intro hSpelled p hMem hListed loc hLoc hIn
    obtain ⟨other, hOther, hFiles⟩ := load_eq_ok hLoad
    rw [hSettings] at hOther
    obtain rfl := Except.ok.inj hOther
    have hSelected :=
      (mem_of_mem_collectFiles hFiles hMem).resolve_left fun hName => hListed p hName rfl
    obtain ⟨pattern, hPattern, hFound⟩ := List.mem_flatMap.mp hSelected
    obtain ⟨start, names, hStart, rfl, rfl, hNames, hFile, hOpen⟩ :=
      exists_of_mem_foundFiles hNamed hFound hLoc
    have hAbove := hWalks pattern hPattern start hStart
    -- the file is below the start of its walk, so the directory lies on the way from there
    obtain ⟨between, rfl⟩ :=
      (List.prefix_or_prefix_of_prefix hIn (List.prefix_append start names)).resolve_left hAbove
    obtain ⟨more, rfl⟩ := (List.prefix_append_right_inj start).mp hIn
    have hBetween : between ≠ [] := by
      rintro rfl
      exact hAbove (by simp)
    have hMore : more ≠ [] := by
      rintro rfl
      rw [List.append_nil] at hFile
      rw [FileTree.isDirectoryAt_of_isFileAt hFile] at hDirectory
      cases hDirectory
    obtain ⟨rest, hRest⟩ := Path.exists_chars_descend
      (literalPrefix (absolutePattern t (includesInForce project.root settings).base pattern))
      hNames hBetween hMore
    have hShown := hSpelled pattern hPattern start between hStart rfl
    rw [walkRoot] at hShown
    rw [← hShown] at hRest
    rw [isExcluded_of_spelled hOmission hRest] at hOpen
    cases hOpen (by simp [hBetween])
  · intro hLinks hOther names hSome hNames compiled hCompiled
    obtain ⟨-, -, hExcludes, hOut⟩ := rooted_of_config hSettings
    refine Bool.eq_false_iff.mpr fun hAccepts => hOther ?_
    exact spelled_eq_of_accepts hOmission hExcludes hOut hLinks hPath hRoot hSome hNames hCompiled hAccepts

def builtProject (out : String) : FileTree := ⟨[
  (["w"], .directory 0o755),
  (["w", "b.ts"], .file "".toUTF8 0o644),
  (["w", "dist"], .directory 0o755),
  (["w", "dist", "a.ts"], .file "".toUTF8 0o644),
  (["w", "tsconfig.json"],
    .file ("\x7b compilerOptions: \x7b outDir: '" ++ out ++ "' \x7d \x7d").toUTF8 0o644)]⟩

def builtOptions : ProjectOptions := { directory := ⟨"/w"⟩ }

def builtSettings (out : String) : Settings := { outDir := some (Path.joinText ⟨"/w"⟩ out) }

theorem builtProject_walks (out : String) (hWalk : (builtProject out).trace true
      (walkRoot (builtProject out) ⟨"/w"⟩ (builtSettings out) "**/*") = .ok ["w"]) :
    ∀ pattern ∈ (includesInForce ⟨"/w"⟩ (builtSettings out)).patterns, ∀ start,
      (builtProject out).trace true (walkRoot (builtProject out) ⟨"/w"⟩ (builtSettings out) pattern) =
        .ok start → pattern = "**/*" ∧ start = ["w"] := by
  intro pattern hPattern start hStart
  obtain rfl := List.mem_singleton.mp hPattern
  rw [hWalk] at hStart
  cases hStart
  exact ⟨rfl, rfl⟩

theorem load_builtProject_dot : load (builtProject "./dist") builtOptions =
    .ok ⟨⟨"/w"⟩, some ⟨"/w/tsconfig.json"⟩, [⟨"/w/b.ts"⟩, ⟨"/w/dist/a.ts"⟩]⟩ := by decide +kernel

theorem load_builtSettings_dot : TsConfig.load (builtProject "./dist") ⟨"/w/tsconfig.json"⟩ =
    .ok (builtSettings "./dist") := by decide +kernel

theorem builtProject_outside :
    (load (builtProject "dist") builtOptions =
        .ok ⟨⟨"/w"⟩, some ⟨"/w/tsconfig.json"⟩, [⟨"/w/b.ts"⟩]⟩ ∧
      ∀ p ∈ [⟨"/w/b.ts"⟩], ∀ loc, (builtProject "dist").trace true p = .ok loc →
        ¬["w", "dist"] <+: loc) ∧
    ∀ compiled, Pattern.ofText? "/w/./dist/**/*".toList = some compiled →
      compiled.accepts "/w/dist/a.ts".toList = false := by
  constructor
  · have hLoad : load (builtProject "dist") builtOptions =
        .ok ⟨⟨"/w"⟩, some ⟨"/w/tsconfig.json"⟩, [⟨"/w/b.ts"⟩]⟩ := by decide +kernel
    have hSettings : TsConfig.load (builtProject "dist") ⟨"/w/tsconfig.json"⟩ =
        .ok (builtSettings "dist") := by decide +kernel
    have hWalk := builtProject_walks "dist" (by decide +kernel)
    refine ⟨hLoad, fun p hP => (source_outside_omission (by decide +kernel) hLoad hSettings
      (List.mem_singleton_self _) (by decide +kernel) (by decide +kernel) (by decide) ?_).1 ?_ p hP
      nofun⟩
    · intro pattern hPattern start hStart
      obtain ⟨-, rfl⟩ := hWalk pattern hPattern start hStart
      decide
    · intro pattern hPattern start names hStart hNames
      obtain ⟨rfl, rfl⟩ := hWalk pattern hPattern start hStart
      obtain rfl : names = ["dist"] := (List.cons.inj hNames).2.symm
      decide +kernel
  · intro compiled hCompiled
    have hWalk := builtProject_walks "./dist" (by decide +kernel)
    have hPath : (builtProject "./dist").trace true ⟨"/w/./dist"⟩ = .ok ["w", "dist"] := by
      decide +kernel
    refine (source_outside_omission (by decide +kernel) load_builtProject_dot load_builtSettings_dot
      (List.mem_singleton_self _) hPath (by decide +kernel) (by decide) ?_).2 (by decide +kernel)
      (by decide +kernel) ["a.ts"] (by decide) (by decide +kernel) compiled (Or.inr hCompiled)
    intro pattern hPattern start hStart
    obtain ⟨-, rfl⟩ := hWalk pattern hPattern start hStart
    decide

/-- A directory that is left out can hold sources when it is spelled otherwise. -/
theorem not_forall_source_outside :
    ¬∀ (t : FileTree) (options : ProjectOptions) (project : Project) (settings : Settings),
      t.LinkFree → load t options = .ok project →
      project.config.elim (.ok {}) (TsConfig.load t) = .ok settings →
      ∀ o ∈ omissions t settings, ∀ d, t.trace true o.path = .ok d → t.isDirectoryAt d = true →
        (∀ root, t.trace true project.root = .ok root → root <+: d ∧ root ≠ d) →
        (∀ pattern ∈ (includesInForce project.root settings).patterns, ∀ start,
          t.trace true (walkRoot t project.root settings pattern) = .ok start → ¬d <+: start) →
        ∀ p ∈ project.sourceFiles, (∀ q ∈ listedPaths settings, q.components ≠ p.components) →
          ∀ loc, t.trace true p = .ok loc → ¬d <+: loc := by
  intro hAll
  have hRoot : (builtProject "./dist").trace true ⟨"/w"⟩ = .ok ["w"] := by decide +kernel
  have hWalk := builtProject_walks "./dist" (by decide +kernel)
  refine hAll _ _ _ _ (by decide +kernel) load_builtProject_dot load_builtSettings_dot _
    (List.mem_singleton_self _) ["w", "dist"] (by decide +kernel) (by decide +kernel) ?_ ?_
    ⟨"/w/dist/a.ts"⟩ (by simp) nofun ["w", "dist", "a.ts"] (by decide +kernel) (by decide)
  · intro root hTrace
    rw [hRoot] at hTrace
    cases hTrace
    decide
  · intro pattern hPattern start hStart
    obtain ⟨-, rfl⟩ := hWalk pattern hPattern start hStart
    decide

end Project
end ExplicitModules
