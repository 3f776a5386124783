import ExplicitModules.Proofs.Path.Spelling
import ExplicitModules.Proofs.Replacement.Resolution

/-!
# Aliases of the source directory

An alias has its candidates in the source directory of the project, whatever file it is written in,
unless the text behind its mark makes a path that begins with a slash: such a path stands alone when
it is joined.
-/
namespace ExplicitModules.Replacement
set_option autoImplicit false

def sourceFront (root : Path) : String :=
  (aliasDirectory root).text ++ "/"

def underSource (root : Path) (rest : String) : List Candidate :=
  [⟨⟨sourceFront root ++ rest ++ ".ts"⟩, .module⟩,
    ⟨⟨sourceFront root ++ rest ++ ".tsx"⟩, .component⟩,
    ⟨⟨sourceFront root ++ rest ++ "/index.ts"⟩, .index⟩,
    ⟨⟨sourceFront root ++ rest ++ "/index.tsx"⟩, .indexComponent⟩]

/-- Something stands behind the mark of the alias, and it does not begin with a slash. -/
def GoesDown (rest : String) : Prop :=
  rest.toList ≠ [] ∧ rest.toList.head? ≠ some '/'

instance (rest : String) : Decidable (GoesDown rest) :=
  inferInstanceAs (Decidable (_ ∧ _))

theorem endsInName_aliasDirectory (root : Path) : (aliasDirectory root).EndsInName :=
  Path.IsName.endsInName (by decide)

theorem joinText_aliasDirectory {text : String} (root : Path) (h : text.toList.head? ≠ some '/') :
    (aliasDirectory root).joinText text = ⟨sourceFront root ++ text⟩ := by
  obtain ⟨hNil, hSlash⟩ := endsInName_aliasDirectory root
  have hRelative : Path.isAbsolute ⟨text⟩ = false := by simpa [Path.isAbsolute, Path.chars] using h
  rw [Path.joinText_eq_slashed hNil hRelative, Path.slashed, if_neg hSlash]
  rfl

theorem joinText_of_slash {text : String} (p : Path) (h : text.toList.head? = some '/') :
    p.joinText text = ⟨text⟩ := by
  have hAbsolute : Path.isAbsolute ⟨text⟩ = true := by simp [Path.isAbsolute, Path.chars, h]
  rw [Path.joinText, Path.join, if_pos hAbsolute]

theorem candidates_alias (root : Path) {file : Path} {rest : String}
    (hPlain : (Specifier.ofText file ("~/" ++ rest)).extension = "") :
    candidates root (.ofText file ("~/" ++ rest)) =
      candidatesAt (aliasDirectory root) rest aliasEndings := by
  have hMark : Specifier.aliasMark <+: ("~/" ++ rest).toList :=
    ⟨rest.toList, by simp [Specifier.aliasMark]⟩
  rw [candidates, if_pos (Specifier.isAlias_iff.mpr hMark), Specifier.stem_of_plain hPlain]
  simp [Specifier.aliasMark]

theorem head?_append_of_goesDown {rest : String} (h : GoesDown rest) (ending : String) :
    (rest ++ ending).toList.head? ≠ some '/' := by
  obtain ⟨c, cs, hRest⟩ := List.exists_cons_of_ne_nil h.1
  have hHead := h.2
  rw [hRest] at hHead
  simpa [hRest] using hHead

theorem candidates_of_goesDown {rest : String} (root : Path) (h : GoesDown rest) :
    candidatesAt (aliasDirectory root) rest aliasEndings = underSource root rest := by
  have hJoin : ∀ ending, (aliasDirectory root).joinText (rest ++ ending) =
      ⟨sourceFront root ++ rest ++ ending⟩ := by
    intro ending
    rw [joinText_aliasDirectory root (head?_append_of_goesDown h ending), String.append_assoc]
  simp [candidatesAt, aliasEndings, underSource, hJoin]

/-- Otherwise the last candidate is a path of its own. -/
theorem candidates_ne_of_not_goesDown {rest : String} (root : Path) (h : ¬GoesDown rest) :
    (candidatesAt (aliasDirectory root) rest aliasEndings).map Candidate.path ≠
      (underSource root rest).map Candidate.path := by
  have hHead : (rest ++ "/index.tsx").toList.head? = some '/' := by
    rw [String.toList_append]
    cases hRest : rest.toList with
    | nil => rfl
    | cons c cs =>
      simp only [GoesDown, hRest, not_and_or, not_not] at h
      rcases h with hNil | hSlash
      · cases hNil
      · exact hSlash
  intro hSame
  have hLast := congrArg List.getLast? hSame
  simp only [candidatesAt, aliasEndings, underSource, List.map_cons, List.map_nil,
    List.getLast?_cons_cons, List.getLast?_singleton, Option.some.injEq] at hLast
  rw [joinText_of_slash _ hHead, Path.mk.injEq] at hLast
  have hLength := congrArg (fun text => text.toList.length) hLast
  simp [sourceFront] at hLength
  omega

def IsUnderSource (root p : Path) : Prop :=
  (sourceFront root).toList <+: p.chars

theorem isUnderSource_of_mem {root : Path} {rest : String} {c : Candidate}
    (h : c ∈ underSource root rest) :
    IsUnderSource root c.path := by
  simp only [underSource, List.mem_cons, List.not_mem_nil, or_false] at h
  rcases h with rfl | rfl | rfl | rfl <;> simp [IsUnderSource, Path.chars]

theorem isFile_empty (p : Path) : FileTree.empty.isFile p = false := by
  rw [Bool.eq_false_iff, ne_eq, FileTree.isFile_iff]
  rintro ⟨loc, -, hFile⟩
  obtain ⟨content, mode, hNode⟩ := FileTree.isFileAt_iff.mp hFile
  by_cases hRoot : loc = []
  · simp [hRoot] at hNode
  · simp [FileTree.node?, FileTree.empty, hRoot] at hNode

/-- An alias takes the first of its four candidates in the source directory exactly if something
other than a slash follows its mark. Then all that is tried or found is in that directory, and
neither the importing file nor any file elsewhere matters. -/
theorem alias_decision (root file : Path) {rest : String}
    (hPlain : (Specifier.ofText file ("~/" ++ rest)).extension = "") :
    let s := Specifier.ofText file ("~/" ++ rest)
    ((∀ t, TakesFirst t ("~/" ++ rest) (underSource root rest) (decisionFor t root s false)) ↔
      GoesDown rest) ∧
    (GoesDown rest → ∀ t,
      (∀ p ∈ (decisionFor t root s false).tried, IsUnderSource root p) ∧
      (∀ r, (decisionFor t root s false).replacement = some r →
        ∃ c ∈ underSource root rest, t.isFile c.path = true ∧ IsUnderSource root c.path ∧
          r = ⟨c.form, "~/" ++ rest ++ c.form.suffix⟩) ∧
      ∀ u file', (∀ p, IsUnderSource root p → u.isFile p = t.isFile p) →
        decisionFor u root (.ofText file' ("~/" ++ rest)) false = decisionFor t root s false) := by
  have hMark : Specifier.aliasMark <+: ("~/" ++ rest).toList :=
    ⟨rest.toList, by simp [Specifier.aliasMark]⟩
  have hTakes : ∀ t file', TakesFirst t ("~/" ++ rest)
      (candidatesAt (aliasDirectory root) rest aliasEndings)
      (decisionFor t root (.ofText file' ("~/" ++ rest)) false) := by
    intro t file'
    have hOther : (Specifier.ofText file' ("~/" ++ rest)).extension = "" := hPlain
    rw [← candidates_alias root hOther]
    exact decisionFor_takesFirst t root (Specifier.isRelative_iff.mpr (Or.inr hMark)) hOther
  refine ⟨⟨fun hAll => ?_, fun hDown t => ?_⟩, fun hDown t => ?_⟩
  · -- in the empty tree all candidates are tried, so the two lists would have to be the same
    by_contra hUp
    apply candidates_ne_of_not_goesDown root hUp
    rw [← (hTakes .empty file).tried_of_missing fun c _ => isFile_empty c.path,
      ← (hAll .empty).tried_of_missing fun c _ => isFile_empty c.path]
  · rw [← candidates_of_goesDown root hDown]
    exact hTakes t file
  · have hFirst := hTakes t file
    rw [candidates_of_goesDown root hDown] at hFirst
    refine ⟨fun p hTried => ?_, fun r hSome => ?_, fun u file' hAgree => ?_⟩
    · obtain ⟨c, hC, rfl⟩ := hFirst.exists_of_mem_tried hTried
      exact isUnderSource_of_mem hC
    · obtain ⟨c, hC, hFile, hEq⟩ := hFirst.exists_of_replacement hSome
      exact ⟨c, hC, hFile, isUnderSource_of_mem hC, hEq⟩
    · have hOther := hTakes u file'
      rw [candidates_of_goesDown root hDown] at hOther
      exact hOther.unique (hFirst.congr fun c hC => hAgree c.path (isUnderSource_of_mem hC))

/-- A tree in which a component of the source directory has a module of its name beside the
importing file. -/
def deepModule : FileTree :=
  ⟨[(["p"], .directory 0o755), (["p", "src"], .directory 0o755),
    (["p", "src", "bar.tsx"], .file .empty 0o644), (["p", "src", "deep"], .directory 0o755),
    (["p", "src", "deep", "bar.ts"], .file .empty 0o644)]⟩

theorem deepModule_alias :
    decisionFor deepModule ⟨"/p"⟩ (.ofText ⟨"/p/src/deep/a.ts"⟩ "~/bar") false =
      ⟨some ⟨.component, "~/bar.jsx"⟩, [⟨"/p/src/bar.ts"⟩]⟩ ∧
    TakesFirst deepModule ("~/" ++ "bar") (underSource ⟨"/p"⟩ "bar")
      (decisionFor deepModule ⟨"/p"⟩ (.ofText ⟨"/p/src/deep/a.ts"⟩ ("~/" ++ "bar")) false) := by
  have hDecision := @alias_decision ⟨"/p"⟩ ⟨"/p/src/deep/a.ts"⟩ "bar" (by decide +kernel)
  refine ⟨by decide +kernel, ?_⟩
  exact hDecision.1.mpr (by decide) deepModule

def indexedSource : FileTree :=
  ⟨[(["p"], .directory 0o755), (["p", "src"], .directory 0o755),
    (["p", "src", "index.ts"], .file .empty 0o644)]⟩

/-- The alias of the source directory itself does not find the index file there. -/
theorem not_forall_alias_takesFirst :
    ¬∀ (t : FileTree) (root file : Path) (rest : String),
      (Specifier.ofText file ("~/" ++ rest)).extension = "" →
      TakesFirst t ("~/" ++ rest) (underSource root rest)
        (decisionFor t root (.ofText file ("~/" ++ rest)) false) := by
  intro hAll
  have hFirst := hAll indexedSource ⟨"/p"⟩ ⟨"/p/src/a.ts"⟩ "" (by decide +kernel)
  have hMissed := hFirst.replacement_eq_none_iff.mp (by decide +kernel)
    ⟨⟨"/p/src//index.ts"⟩, .index⟩ (by decide +kernel)
  exact absurd hMissed (by decide +kernel)

end ExplicitModules.Replacement
