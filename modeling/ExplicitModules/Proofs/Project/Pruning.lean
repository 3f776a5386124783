import ExplicitModules.Proofs.Glob.Below
import ExplicitModules.Proofs.Project.Selection

/-!
# Pruned walks

A walk for an include pattern does not enter what is excluded. Nothing is lost by that: with every
exclusion there is one for everything below, so whatever is below an excluded directory is excluded.
The files that are selected are those of the whole tree that satisfy the conditions one by one, unless
the walk comes to a directory whose path is too long to be opened; then there are none.
-/
namespace ExplicitModules.Project
set_option autoImplicit false
open Glob (Pattern)

section Exclusion

variable {t : FileTree} {root p q : Path} {settings : Settings}

theorem isExcluded_iff {excluded : List Pattern} :
    isExcluded excluded p = true ↔ ∃ pattern ∈ excluded, pattern.accepts p.chars = true := by
  rw [isExcluded, List.any_eq_true]
  simp only [Glob.matchesText_eq_accepts]

theorem mem_exclusions_iff {pattern : Pattern} : pattern ∈ exclusions t root settings ↔
    ∃ text ∈ exclusionTexts t root settings, Pattern.ofText? text = some pattern ∨
      Pattern.ofText? (text ++ everythingBelow) = some pattern := by
  rw [exclusions, List.mem_filterMap]
  constructor
  · rintro ⟨text, hText, hRead⟩
    rcases List.mem_append.mp hText with hPlain | hWider
    · exact ⟨text, hPlain, Or.inl hRead⟩
    · obtain ⟨text, hPlain, rfl⟩ := List.mem_map.mp hWider
      exact ⟨text, hPlain, Or.inr hRead⟩
  · rintro ⟨text, hText, hRead | hRead⟩
    · exact ⟨text, List.mem_append_left _ hText, hRead⟩
    · exact ⟨_, List.mem_append_right _ (List.mem_map_of_mem hText), hRead⟩

theorem isExcluded_below {rest : List Char} (hText : q.chars = p.chars ++ '/' :: rest)
    (h : isExcluded (exclusions t root settings) p = true) :
    isExcluded (exclusions t root settings) q = true := by
  rw [isExcluded_iff] at h ⊢
  obtain ⟨pattern, hMem, hAccepts⟩ := h
  rw [hText]
  obtain ⟨text, hIn, hRead | hRead⟩ := mem_exclusions_iff.mp hMem
  · rcases Pattern.accepts_below hRead hAccepts rest with hSame | ⟨wider, hWider, hAccepts'⟩
    · exact ⟨pattern, hMem, hSame⟩
    · exact ⟨wider, mem_exclusions_iff.mpr ⟨text, hIn, Or.inr hWider⟩, hAccepts'⟩
  · exact ⟨pattern, hMem, Pattern.accepts_append_of_everythingBelow hRead hAccepts _⟩

end Exclusion

section Walk

variable {t : FileTree} {root shown p : Path} {settings : Settings} {start : Location}
  {dirs : List String} {name : String}

theorem isSkippedName_eq_false_iff : isSkippedName name = false ↔
    name.toList.head? ≠ some '.' ∧ name ∉ packageDirectories := by
  simp [isSkippedName]

theorem mem_iff_exists_prefix {dir : String} : dir ∈ dirs ↔ ∃ above, above ++ [dir] <+: dirs := by
  constructor
  · intro hDir
    obtain ⟨above, below, rfl⟩ := List.append_of_mem hDir
    exact ⟨above, below, by simp⟩
  · rintro ⟨above, below, rfl⟩
    simp

/-- From `start` on, `dirs` lead down through directories of which none is hidden or one of
packages. -/
def PlainWay (t : FileTree) (start : Location) (dirs : List String) : Prop :=
  (∀ front, front <+: dirs → t.isDirectoryAt (start ++ front) = true) ∧
    ∀ dir ∈ dirs, dir.toList.head? ≠ some '.' ∧ dir ∉ packageDirectories

theorem PlainWay.isDirectoryAt (h : PlainWay t start dirs) : t.isDirectoryAt start = true := by
  simpa using h.1 [] List.nil_prefix

/-- The way to a directory that is not excluded is kept if it is plain; nothing on it can be
excluded. -/
theorem keptWay_isKept_iff (hNames : ∀ n ∈ dirs, Path.IsName n)
    (hStart : t.isDirectoryAt start = true)
    (hOpen : dirs ≠ [] → isExcluded (exclusions t root settings) (shown.descend dirs) = false) :
    t.KeptWay (isKept (exclusions t root settings)) start shown dirs ↔ PlainWay t start dirs := by
  constructor
  · intro hWay
    refine ⟨fun front hFront => hWay.isDirectoryAt hStart hFront, fun dir hDir => ?_⟩
    obtain ⟨above, hAbove⟩ := mem_iff_exists_prefix.mp hDir
    obtain ⟨mode, -, hKept⟩ := FileTree.keptWay_iff.mp hWay above dir hAbove
    rw [← isSkippedName_eq_false_iff]
    simp only [isKept, WalkEntry.isDirectory, Bool.true_and, Bool.and_eq_true,
      Bool.not_eq_true'] at hKept
    exact hKept.1
  · rintro ⟨hDirectories, hPlain⟩
    refine FileTree.keptWay_iff.mpr fun above dir hAbove => ?_
    obtain ⟨below, hBelow⟩ := hAbove
    have hHere := hDirectories (above ++ [dir]) ⟨below, hBelow⟩
    have hName := isSkippedName_eq_false_iff.mpr (hPlain dir (by simp [← hBelow]))
    have hWhole := hOpen (by simp [← hBelow])
    have hKept : isExcluded (exclusions t root settings) (shown.descend (above ++ [dir])) = false := by
      by_cases hLast : below = []
      · rwa [← hBelow, hLast, List.append_nil] at hWhole
      · obtain ⟨rest, hRest⟩ := Path.exists_chars_descend shown (hBelow.symm ▸ hNames) (by simp) hLast
        rw [hBelow] at hRest
        exact Bool.eq_false_iff.mpr fun hExcluded =>
          Bool.eq_false_iff.mp hWhole (isExcluded_below hRest hExcluded)
    rw [← List.append_assoc] at hHere
    obtain ⟨mode, hNode⟩ := FileTree.isDirectoryAt_iff.mp hHere
    refine ⟨mode, hNode, ?_⟩
    simp [isKept, WalkEntry.isDirectory, hName, hKept]

theorem isExcluded_eq_false_iff : isExcluded (exclusions t root settings) p = false ↔
    ∀ excluded ∈ exclusions t root settings, excluded.accepts p.chars = false := by
  simp [← Bool.not_eq_true, isExcluded_iff]

/-- A walk comes to a directory that it cannot open if one that is not excluded lies at the end of a
plain way and has too long a path. -/
theorem overruns_isKept_iff (hNamed : t.Named) :
    t.Overruns (isKept (exclusions t root settings)) shown ↔
      ∃ start dirs, t.locate true shown = .ok start ∧ dirs ≠ [] ∧ PlainWay t start dirs ∧
        FileTree.maxPath < Text.utf8Length (shown.descend dirs).chars ∧
        ∀ excluded ∈ exclusions t root settings,
          excluded.accepts (shown.descend dirs).chars = false := by
  have hNames : ∀ {start : Location} {dirs : List String}, t.isDirectoryAt (start ++ dirs) = true →
      ∀ n ∈ dirs, Path.IsName n := by
    intro start dirs hEnd n hN
    obtain ⟨mode, hNode⟩ := FileTree.isDirectoryAt_iff.mp hEnd
    exact hNamed.isName hNode n (List.mem_append_right start hN)
  simp only [FileTree.Overruns, ← isExcluded_eq_false_iff]
  constructor
  · rintro ⟨start, dirs, hStart, hDirectory, hSome, hWay, hLong⟩
    have hOpen : isExcluded (exclusions t root settings) (shown.descend dirs) = false := by
      obtain ⟨above, dir, rfl⟩ := dirs.eq_nil_or_concat'.resolve_left hSome
      obtain ⟨mode, -, hKept⟩ := FileTree.keptWay_iff.mp hWay above dir (List.prefix_refl _)
      simp only [isKept, Bool.and_eq_true, Bool.not_eq_true'] at hKept
      exact hKept.2
    have hEnd := hWay.isDirectoryAt hDirectory (List.prefix_refl dirs)
    exact ⟨start, dirs, hStart, hSome,
      (keptWay_isKept_iff (hNames hEnd) hDirectory fun _ => hOpen).mp hWay, hLong, hOpen⟩
  · rintro ⟨start, dirs, hStart, hSome, hPlain, hLong, hOpen⟩
    have hEnd := hPlain.1 dirs (List.prefix_refl dirs)
    exact ⟨start, dirs, hStart, hPlain.isDirectoryAt, hSome,
      (keptWay_isKept_iff (hNames hEnd) hPlain.isDirectoryAt fun _ => hOpen).mpr hPlain, hLong⟩

/-- The way to a file that is not excluded is kept if it is plain. -/
theorem keptWay_of_file_iff (hNames : ∀ n ∈ dirs ++ [name], Path.IsName n)
    (hStart : t.isDirectoryAt start = true)
    (hFile : isExcluded (exclusions t root settings) (shown.descend (dirs ++ [name])) = false) :
    t.KeptWay (isKept (exclusions t root settings)) start shown dirs ↔ PlainWay t start dirs := by
  refine keptWay_isKept_iff (List.forall_mem_append.mp hNames).1 hStart fun hSome => ?_
  obtain ⟨rest, hRest⟩ := Path.exists_chars_descend shown hNames hSome (List.cons_ne_nil name [])
  exact Bool.eq_false_iff.mpr fun hExcluded =>
    Bool.eq_false_iff.mp hFile (isExcluded_below hRest hExcluded)

/-- What an include pattern finds below its literal part: every file at the end of a plain way that
has a source extension, matches the pattern and matches no exclusion. -/
theorem mem_foundFiles_below_iff (hNamed : t.Named) {base : Path} {pattern : String}
    {compiled : Pattern} (hPattern : Pattern.ofText? (absolutePattern t base pattern) = some compiled) :
    (p ∈ foundFiles t (settings.allowJs.getD false) (exclusions t root settings) base pattern ∧
        p ≠ literalPrefix (absolutePattern t base pattern)) ↔
      ∃ start dirs name,
        t.locate true (literalPrefix (absolutePattern t base pattern)) = .ok start ∧
        p = (literalPrefix (absolutePattern t base pattern)).descend (dirs ++ [name]) ∧
        PlainWay t start dirs ∧ t.isFileAt (start ++ dirs ++ [name]) = true ∧
        hasSourceExtension (settings.allowJs.getD false) p = true ∧
        compiled.accepts p.chars = true ∧
        ∀ excluded ∈ exclusions t root settings, excluded.accepts p.chars = false := by
  rw [← isExcluded_eq_false_iff, mem_foundFiles_iff hPattern]
  generalize literalPrefix (absolutePattern t base pattern) = shown
  constructor
  · rintro ⟨⟨-, hFinds, hExtension, hMatches⟩, hBelow⟩
    cases hFinds with
    | start hLoc hFile => exact absurd rfl hBelow
    | @below start dirs name hStart hDirectory hWay hFile hOpen =>
      have hPlain :=
        (keptWay_of_file_iff (hNamed.isName_of_isFileAt hFile) hDirectory hOpen).mp hWay
      exact ⟨start, dirs, name, hStart, rfl, hPlain, List.append_assoc .. ▸ hFile, hExtension,
        hMatches, hOpen⟩
  · rintro ⟨start, dirs, name, hStart, rfl, hPlain, hFile, hExtension, hMatches, hOpen⟩
    rw [List.append_assoc] at hFile
    have hNames := hNamed.isName_of_isFileAt hFile
    have hWay := (keptWay_of_file_iff hNames hPlain.isDirectoryAt hOpen).mpr hPlain
    obtain ⟨mode, hNode⟩ := FileTree.isDirectoryAt_iff.mp hPlain.isDirectoryAt
    refine ⟨⟨FileTree.isPresent_of_locate hStart hNode,
      .below hStart hPlain.isDirectoryAt hWay hFile hOpen, hExtension, hMatches⟩, fun hSame => ?_⟩
    have hLength := Path.length_lt_descend (p := shown) hNames (by simp)
    rw [hSame] at hLength
    exact Nat.lt_irrefl _ hLength

end Walk

/-- What an include pattern selects below its literal part: every file at the end of a plain way that
has a source extension, matches the pattern and matches no exclusion. Nothing is selected, and there is
a fault, exactly if a directory that is not excluded at the end of a plain way has too long a path to be
opened. -/
theorem includedFiles_below {t : FileTree} (hNamed : t.Named) (root : Path) (settings : Settings)
    {base : Path} {pattern : String} {compiled : Pattern}
    (hPattern : Pattern.ofText? (absolutePattern t base pattern) = some compiled) :
    (∀ files, includedFiles t (settings.allowJs.getD false) (exclusions t root settings) base pattern =
        .ok files → ∀ p, p ∈ files ∧ p ≠ literalPrefix (absolutePattern t base pattern) ↔
      ∃ start dirs name,
        t.locate true (literalPrefix (absolutePattern t base pattern)) = .ok start ∧
        p = (literalPrefix (absolutePattern t base pattern)).descend (dirs ++ [name]) ∧
        PlainWay t start dirs ∧ t.isFileAt (start ++ dirs ++ [name]) = true ∧
        hasSourceExtension (settings.allowJs.getD false) p = true ∧
        compiled.accepts p.chars = true ∧
        ∀ excluded ∈ exclusions t root settings, excluded.accepts p.chars = false) ∧
    ((∃ e, includedFiles t (settings.allowJs.getD false) (exclusions t root settings) base pattern =
        .error e) ↔
      ∃ start dirs,
        t.locate true (literalPrefix (absolutePattern t base pattern)) = .ok start ∧ dirs ≠ [] ∧
        PlainWay t start dirs ∧
        FileTree.maxPath < Text.utf8Length
          ((literalPrefix (absolutePattern t base pattern)).descend dirs).chars ∧
        ∀ excluded ∈ exclusions t root settings,
          excluded.accepts ((literalPrefix (absolutePattern t base pattern)).descend dirs).chars =
            false) := by
  constructor
  · intro files hFiles p
    obtain ⟨rfl, -⟩ := includedFiles_eq_ok_iff.mp hFiles
    exact mem_foundFiles_below_iff hNamed hPattern
  · rw [includedFiles_fails_iff, WalkFails, hPattern, Option.isSome_some, eq_self, true_and]
    exact overruns_isKept_iff hNamed

/-- Files below an excluded directory, a hidden one, a link and two plain directories. -/
def layeredTree : FileTree := ⟨[
  (["w"], .directory 0o755),
  (["w", "src"], .directory 0o755),
  (["w", "src", "lib"], .directory 0o755),
  (["w", "src", "lib", "a.ts"], .file "".toUTF8 0o644),
  (["w", "src", "out"], .directory 0o755),
  (["w", "src", "out", "deep"], .directory 0o755),
  (["w", "src", "out", "deep", "b.ts"], .file "".toUTF8 0o644),
  (["w", "src", ".old"], .directory 0o755),
  (["w", "src", ".old", "c.ts"], .file "".toUTF8 0o644),
  (["w", "src", "link"], .link "lib")]⟩

def layeredSettings : Settings :=
  { includes := some ⟨⟨"/w"⟩, ["src/**/*"]⟩, excludes := some ⟨⟨"/w"⟩, ["src/o*"]⟩ }

def layeredPattern : Pattern :=
  "/w/src/".toList.map .char ++ [.directories, .anyName]

theorem layeredTree_includedFiles :
    layeredTree.Named ∧
      Pattern.ofText? (absolutePattern layeredTree ⟨"/w"⟩ "src/**/*") = some layeredPattern ∧
      includedFiles layeredTree false (exclusions layeredTree ⟨"/w"⟩ layeredSettings) ⟨"/w"⟩
        "src/**/*" = .ok [⟨"/w/src/lib/a.ts"⟩] ∧
      ∃ start dirs name, layeredTree.locate true ⟨"/w/src"⟩ = .ok start ∧
        (⟨"/w/src/lib/a.ts"⟩ : Path) = Path.descend ⟨"/w/src"⟩ (dirs ++ [name]) ∧
        PlainWay layeredTree start dirs := by
  have hNamed : layeredTree.Named := by decide +kernel
  have hPattern : Pattern.ofText? (absolutePattern layeredTree ⟨"/w"⟩ "src/**/*") =
      some layeredPattern := by decide +kernel
  have hFiles : includedFiles layeredTree false (exclusions layeredTree ⟨"/w"⟩ layeredSettings)
      ⟨"/w"⟩ "src/**/*" = .ok [⟨"/w/src/lib/a.ts"⟩] := by decide +kernel
  have hStart : literalPrefix (absolutePattern layeredTree ⟨"/w"⟩ "src/**/*") = ⟨"/w/src"⟩ := by
    decide +kernel
  have hBelow := (includedFiles_below hNamed ⟨"/w"⟩ layeredSettings hPattern).1 _ hFiles
    ⟨"/w/src/lib/a.ts"⟩
  rw [hStart] at hBelow
  obtain ⟨start, dirs, name, hLoc, hPath, hPlain, -⟩ :=
    hBelow.mp ⟨List.mem_singleton_self _, by decide⟩
  exact ⟨hNamed, hPattern, hFiles, start, dirs, name, hLoc, hPath, hPlain⟩

def longName : String :=
  String.ofList (List.replicate 255 'd')

/-- A file in the root, beside directories one in the other, of which the last has too long a path. -/
def nestedTree : FileTree := ⟨[
  (["w"], .directory 0o755),
  (["w", "a.ts"], .file "".toUTF8 0o644)] ++
    (List.range 17).map fun n => ("w" :: "d" :: List.replicate n longName, .directory 0o755)⟩

def settingsFor (includes excludes : List String) : Settings :=
  { includes := some ⟨⟨"/w"⟩, includes⟩, excludes := some ⟨⟨"/w"⟩, excludes⟩ }

theorem toList_longName : longName.toList = List.replicate 255 'd' :=
  String.toList_ofList

theorem isName_longName : Path.IsName longName := by
  constructor
  all_goals
    rw [toList_longName]
    decide

theorem named_nestedTree : nestedTree.Named := by
  have hW : Path.IsName "w" := by decide
  have hA : Path.IsName "a.ts" := by decide
  have hD : Path.IsName "d" := by decide
  intro entry hEntry name hName
  rcases List.mem_append.mp hEntry with hPlain | hDeep
  · simp only [List.mem_cons, List.not_mem_nil, or_false] at hPlain
    rcases hPlain with rfl | rfl
    · exact List.mem_singleton.mp hName ▸ hW
    · rcases List.mem_pair.mp hName with rfl | rfl
      · exact hW
      · exact hA
  · obtain ⟨n, -, rfl⟩ := List.mem_map.mp hDeep
    rcases List.mem_cons.mp hName with rfl | hBelow
    · exact hW
    · rcases List.mem_cons.mp hBelow with rfl | hLong
      · exact hD
      · exact List.eq_of_mem_replicate hLong ▸ isName_longName

theorem lookup_map_range {f : Nat → Location} {node : Node} {k m : Nat} (h : k < m) :
    ((List.range m).map fun n => (f n, node)).lookup (f k) = some node := by
  induction m with
  | zero => exact absurd h (Nat.not_lt_zero k)
  | succ m ih =>
    rw [List.range_succ, List.map_append, List.lookup_append, List.map_singleton]
    rcases Nat.lt_or_eq_of_le (Nat.le_of_lt_succ h) with hLess | rfl
    · rw [ih hLess]
      rfl
    · cases hFirst : ((List.range k).map fun n => (f n, node)).lookup (f k) with
      | none => simp
      | some other =>
        obtain ⟨front, back, hSplit, -⟩ := List.lookup_eq_some_iff.mp hFirst
        have hMem : (f k, other) ∈ (List.range k).map fun n => (f n, node) := by simp [hSplit]
        obtain ⟨n, -, hSame⟩ := List.mem_map.mp hMem
        rw [(Prod.mk.inj hSame).2]
        rfl

theorem plainWay_nestedTree : PlainWay nestedTree ["w"] ("d" :: List.replicate 16 longName) := by
  constructor
  · intro front hFront
    rcases List.prefix_cons_iff.mp hFront with rfl | ⟨below, rfl, hBelow⟩
    · rfl
    · obtain ⟨hLength, hLong⟩ := List.prefix_replicate_iff.mp hBelow
      have hDeep : ((List.range 17).map fun n => ("w" :: "d" :: List.replicate n longName,
          Node.directory 0o755)).lookup ("w" :: "d" :: List.replicate below.length longName) =
            some (.directory 0o755) :=
        lookup_map_range (f := fun n => "w" :: "d" :: List.replicate n longName)
          (Nat.lt_succ_of_le hLength)
      refine FileTree.isDirectoryAt_iff.mpr ⟨0o755, ?_⟩
      rw [hLong, FileTree.node?, if_neg (by simp), nestedTree, List.lookup_append, List.cons_append,
        List.nil_append, hDeep]
      rfl
  · intro dir hDir
    rcases List.mem_cons.mp hDir with rfl | hBelow
    · decide
    · rw [List.eq_of_mem_replicate hBelow, toList_longName]
      have hShort : ∀ name ∈ packageDirectories, name.toList.length < 255 := by decide
      refine ⟨by decide, fun hMem => absurd (hShort longName hMem) ?_⟩
      rw [toList_longName, List.length_replicate]
      exact Nat.lt_irrefl 255

theorem utf8Length_descend_longName (n : Nat) :
    (Path.descend ⟨"/w/d"⟩ (List.replicate n longName)).EndsInName ∧
      Text.utf8Length (Path.descend ⟨"/w/d"⟩ (List.replicate n longName)).chars = 4 + 256 * n := by
  induction n with
  | zero => exact ⟨⟨by decide, by decide⟩, by decide⟩
  | succ n ih =>
    have hName : Text.utf8Length longName.toList = 255 := by
      rw [toList_longName]
      decide +kernel
    have hSlash : Char.utf8Size '/' = 1 := rfl
    rw [List.replicate_succ', Path.descend_concat]
    refine ⟨isName_longName.endsInName, ?_⟩
    rw [ih.1.chars_joinText isName_longName, Text.utf8Length_append, Text.utf8Length_cons, ih.2, hName,
      hSlash, Nat.mul_succ, Nat.add_assoc]

/-- No walk over all that is below the root comes to its end. -/
theorem walkFails_nestedTree :
    WalkFails nestedTree (exclusions nestedTree ⟨"/w"⟩ (settingsFor ["**/*"] [])) ⟨"/w"⟩ "**/*" := by
  have hStart : literalPrefix (absolutePattern nestedTree ⟨"/w"⟩ "**/*") = ⟨"/w"⟩ := by decide +kernel
  have hNone : exclusions nestedTree ⟨"/w"⟩ (settingsFor ["**/*"] []) = [] := rfl
  refine ⟨by decide +kernel, ?_⟩
  rw [hStart, overruns_isKept_iff named_nestedTree]
  have hDown : Path.descend ⟨"/w"⟩ ("d" :: List.replicate 16 longName) =
      Path.descend ⟨"/w/d"⟩ (List.replicate 16 longName) := by
    have hFirst : Path.joinText ⟨"/w"⟩ "d" = ⟨"/w/d"⟩ := by decide +kernel
    rw [Path.descend_cons, hFirst]
  refine ⟨["w"], "d" :: List.replicate 16 longName, by decide +kernel, nofun, plainWay_nestedTree,
    ?_, ?_⟩
  · rw [hDown, (utf8Length_descend_longName 16).2]
    decide
  · rw [hNone]
    exact nofun

/-- A file in plain sight is not selected if the walk comes to a directory that it cannot open. -/
theorem not_forall_mem_includedFiles_iff :
    ¬∀ (t : FileTree) (root : Path) (settings : Settings) (base : Path) (pattern : String)
      (compiled : Pattern), t.Named →
      Pattern.ofText? (absolutePattern t base pattern) = some compiled → ∀ p,
      ((∃ files, includedFiles t (settings.allowJs.getD false) (exclusions t root settings) base
          pattern = .ok files ∧ p ∈ files) ∧ p ≠ literalPrefix (absolutePattern t base pattern)) ↔
        ∃ start dirs name,
          t.locate true (literalPrefix (absolutePattern t base pattern)) = .ok start ∧
          p = (literalPrefix (absolutePattern t base pattern)).descend (dirs ++ [name]) ∧
          PlainWay t start dirs ∧ t.isFileAt (start ++ dirs ++ [name]) = true ∧
          hasSourceExtension (settings.allowJs.getD false) p = true ∧
          compiled.accepts p.chars = true ∧
          ∀ excluded ∈ exclusions t root settings, excluded.accepts p.chars = false := by
  intro hAll
  have hFound := hAll nestedTree ⟨"/w"⟩ (settingsFor ["**/*"] []) ⟨"/w"⟩ "**/*"
    ("/w/".toList.map .char ++ [.directories, .anyName]) named_nestedTree (by decide +kernel)
    ⟨"/w/a.ts"⟩
  have hRoot : PlainWay nestedTree ["w"] [] := by
    refine ⟨fun front hFront => ?_, nofun⟩
    rw [List.prefix_nil.mp hFront]
    exact plainWay_nestedTree.isDirectoryAt
  obtain ⟨⟨files, hFiles, -⟩, -⟩ := hFound.mpr ⟨["w"], [], "a.ts", by decide +kernel,
    by decide +kernel, hRoot, by decide +kernel, by decide +kernel, by decide +kernel, nofun⟩
  exact (includedFiles_eq_ok_iff.mp hFiles).2 walkFails_nestedTree

end ExplicitModules.Project
