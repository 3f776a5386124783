import ExplicitModules.Proofs.Project.LiteralPrefix
import ExplicitModules.Proofs.Project.Pruning

/-!
# Exclusions against includes

What a walk comes to below the place where it starts matches no exclusion. The place itself is not
tested, so a single file that an include pattern names is a source even if it is excluded. That is the
only way for an excluded path to become a source without being listed by name.
-/
namespace ExplicitModules.Project
set_option autoImplicit false
open Glob (Pattern)

/-- A pattern without wildcards that is the path of a file at which its walk starts. -/
structure SpellsOut (t : FileTree) (allowJs : Bool) (base : Path) (pattern : String) (p : Path) :
    Prop where
  text : absolutePattern t base pattern = p.chars
  plain : ∀ c ∈ p.chars, Glob.isWildcard c = false
  start : literalPrefix p.chars = p
  file : ∃ loc, t.locate false p = .ok loc ∧ t.isFileAt loc = true
  extension : hasSourceExtension allowJs p = true

section Excluded

variable {t : FileTree} {allowJs : Bool} {excluded : List Pattern} {base p : Path} {pattern : String}

/-- An exclusion holds against every include pattern but one that spells the path out. -/
theorem mem_foundFiles_excluded_iff (hExcluded : isExcluded excluded p = true) :
    p ∈ foundFiles t allowJs excluded base pattern ↔ SpellsOut t allowJs base pattern p := by
  constructor
  · intro hMem
    obtain ⟨compiled, hPattern, -, hFinds, hExtension, hAccepts⟩ := finds_of_mem_foundFiles hMem
    cases hFinds with
    | start hLoc hFile =>
      obtain ⟨hText, hPlain⟩ := eq_literalPrefix_of_accepts hPattern hLoc
        (FileTree.isDirectoryAt_of_isFileAt hFile) hAccepts
      refine ⟨hText.symm, ?_, ?_, ⟨_, hLoc, hFile⟩, hExtension⟩
      · rw [hText]
        exact hPlain
      · rw [hText]
    | below _ _ _ _ hOpen =>
      rw [hExcluded] at hOpen
      cases hOpen
  · rintro ⟨hText, hPlain, hStart, ⟨loc, hLoc, hFile⟩, hExtension⟩
    obtain ⟨compiled, hCompiled, hOnly⟩ := (Glob.ReadsAs.of_plain hPlain).exists_pattern
    rw [← hText] at hCompiled
    obtain ⟨content, mode, hNode⟩ := FileTree.isFileAt_iff.mp hFile
    have hPresent := FileTree.isPresent_of_locate
      (FileTree.locate_true_of_false hLoc (FileTree.not_isLinkAt_of_isFileAt hFile)) hNode
    rw [mem_foundFiles_iff hCompiled, hText, hStart]
    exact ⟨hPresent, .start hLoc hFile, hExtension, (hOnly p.chars).mpr rfl⟩

end Excluded

/-- A path that is not listed by name and matches an exclusion is a source only if an include pattern
spells it out, and then some spelling of it is a source whatever the exclusions are. -/
theorem excluded_source_iff {t : FileTree} {root : Path} {settings : Settings} {paths : List Path}
    (h : collectFiles t root settings = .ok paths) {p : Path}
    (hListed : ∀ q ∈ listedPaths settings, q.components ≠ p.components)
    (hExcluded : ∃ excluded ∈ exclusions t root settings, excluded.accepts p.chars = true) :
    (p ∈ paths → ∃ pattern ∈ (includesInForce root settings).patterns,
        SpellsOut t (settings.allowJs.getD false) (includesInForce root settings).base pattern p) ∧
      ((∃ pattern ∈ (includesInForce root settings).patterns,
          SpellsOut t (settings.allowJs.getD false) (includesInForce root settings).base pattern p) →
        ∃ q ∈ paths, q.components = p.components) := by
  obtain ⟨-, -, rfl⟩ := collectFiles_eq_ok_iff.mp h
  have hSelected : p ∈ selectedFiles t root settings ↔
      ∃ pattern ∈ (includesInForce root settings).patterns,
        SpellsOut t (settings.allowJs.getD false) (includesInForce root settings).base pattern p := by
    rw [selectedFiles, List.mem_flatMap]
    simp only [mem_foundFiles_excluded_iff (isExcluded_iff.mpr hExcluded)]
  rw [← hSelected]
  constructor
  · intro hMem
    rcases Path.mem_of_mem_foldl_insert hMem with hFound | hNil
    · rcases List.mem_append.mp hFound with hName | hFile
      · exact absurd rfl (hListed p hName)
      · exact hFile
    · cases hNil
  · intro hFile
    exact Path.exists_mem_foldl_insert [] (List.mem_append_right _ hFile)

/-- Two files, both excluded: the first is included by its name, the second by a wildcard. -/
def namedSource : FileTree := ⟨[
  (["w"], .directory 0o755),
  (["w", "src"], .directory 0o755),
  (["w", "src", "a.ts"], .file "".toUTF8 0o644),
  (["w", "src", "b.ts"], .file "".toUTF8 0o644)]⟩

def namedSettings : Settings :=
  { includes := some ⟨⟨"/w"⟩, ["src/a.ts", "src/b*"]⟩, excludes := some ⟨⟨"/w"⟩, ["src/*.ts"]⟩ }

theorem namedSource_collectFiles :
    collectFiles namedSource ⟨"/w"⟩ namedSettings = .ok [⟨"/w/src/a.ts"⟩] := by decide +kernel

theorem namedSource_spellsOut :
    (∃ excluded ∈ exclusions namedSource ⟨"/w"⟩ namedSettings,
        excluded.accepts "/w/src/a.ts".toList = true) ∧
      ∃ pattern ∈ ["src/a.ts", "src/b*"],
        SpellsOut namedSource false ⟨"/w"⟩ pattern ⟨"/w/src/a.ts"⟩ := by
  have hExcluded : ∃ excluded ∈ exclusions namedSource ⟨"/w"⟩ namedSettings,
      excluded.accepts "/w/src/a.ts".toList = true := by decide +kernel
  have hSource := (excluded_source_iff namedSource_collectFiles (p := ⟨"/w/src/a.ts"⟩) nofun
    hExcluded).1
  exact ⟨hExcluded, hSource (List.mem_singleton_self _)⟩

/-- An excluded path can be a source without being listed by name. -/
theorem not_forall_exclusion_wins :
    ¬∀ (t : FileTree) (root : Path) (settings : Settings) (paths : List Path),
      collectFiles t root settings = .ok paths →
      ∀ p ∈ paths, (∀ q ∈ listedPaths settings, q.components ≠ p.components) →
        ∀ excluded ∈ exclusions t root settings, excluded.accepts p.chars = false := by
  intro hAll
  have hNone := hAll namedSource ⟨"/w"⟩ namedSettings _ namedSource_collectFiles ⟨"/w/src/a.ts"⟩
    (List.mem_singleton_self _) nofun
  exact absurd hNone (by decide +kernel)

end ExplicitModules.Project
