import ExplicitModules.Proofs.Conversion.Again
import ExplicitModules.Proofs.Conversion.Lasting
import ExplicitModules.Proofs.Conversion.Marking
import ExplicitModules.Proofs.Source.MarkedItems

/-!
# A second run

The text that a run writes holds the declarations of the old text, with what the replacements have
put in. So a second run has nothing to do if all replacements last, which not all of them do.
-/
namespace ExplicitModules
set_option autoImplicit false
open Source

namespace Replacement

section Decision

variable {t : FileTree} {root p : Path} {value : String} {hasAttributes : Bool} {r : Replacement}
  (h : (decisionFor t root (.ofText p value) hasAttributes).replacement = some r)
include h

theorem specifier_eq : r.specifier.toList = value.toList ++ r.mark.front := by
  have hSplit := Specifier.stem_append_extension p value
  obtain ⟨-, -, ⟨hJson, rfl⟩ | ⟨hPlain, c, hC, -, rfl⟩⟩ := decisionFor_eq_some h
  · rw [hJson] at hSplit
    have hNone : (ofForm (.ofText p value) .json).mark.front = [] := rfl
    rw [hNone, List.append_nil]
    exact congrArg String.toList hSplit
  · rw [hPlain, String.append_empty] at hSplit
    have hFront : (ofForm (.ofText p value) c.form).mark.front = c.form.suffix.toList := by
      have hForm := candidates_form c hC
      unfold mark ofForm
      dsimp only
      cases hCase : c.form with
      | json => exact absurd hCase hForm
      | _ => rfl
    rw [hFront]
    unfold ofForm
    rw [String.toList_append, hSplit]

theorem render_eq (quote : Char) : (r.render quote).toList =
    quote :: ((value.toList ++ r.mark.front) ++ quote :: r.mark.behind quote) := by
  rw [toList_render, specifier_eq h, mark_behind]

end Decision

end Replacement

namespace Conversion

section Text

variable (t : FileTree) (root p : Path)

def markAt (text : List Char) (site : Site) : Mark :=
  ((replacement? t root p (site.toDeclaration text)).map Replacement.mark).getD .kept

def contentReplacement? (c : Content) : Option Replacement :=
  (Replacement.decisionFor t root (.ofText p (String.ofList c.value)) c.hasAttributes).replacement

/-- No path to an index file is put behind a slash or a star. -/
def SeamFree (text : String) : Prop :=
  ∀ d ∈ declarations text, ∀ r, replacement? t root p d = some r →
    r.form = .index ∨ r.form = .indexComponent →
      ∀ c ∈ d.specifier.value.toList.getLast?, c ≠ '/' ∧ c ≠ '*'

/-- The text is well formed, or at least nothing is put together that could begin a comment. -/
def Clear (text : String) : Prop :=
  (∃ s : SourceText, text = s.text) ∨ SeamFree t root p text

def AllLast (text : String) : Prop :=
  ∀ d ∈ declarations text, ∀ r, replacement? t root p d = some r →
    r.Lasts t root p d.specifier.value

variable {t root p}

/-- An explicit text is the old one with marks at its sites. -/
theorem explicitText_eq_woven (text : String) : (explicitText t root p text).toList =
    woven (weave (markAt t root p text.toList) text.toList (sites text.toList)) := by
  have hSplice := splice_explicitEdits t root p text
  have hMarks : ∀ site ∈ sites text.toList, (markAt t root p text.toList site).Writes
      site.specifier (writtenText? t root p (site.toDeclaration text.toList)) := by
    intro site hSite
    unfold markAt writtenText?
    cases hCase : replacement? t root p (site.toDeclaration text.toList) with
    | none => rfl
    | some r =>
      have hRender := Replacement.render_eq hCase site.specifier.quote
      rw [Site.toList_value] at hRender
      exact hRender
  rw [explicitEdits, splice_declarations hMarks] at hSplice
  exact (Option.some.inj hSplice).symm

theorem markAt_allowed {text : List Char} (site : Site) :
    (markAt t root p text site).Allowed site := by
  unfold markAt
  cases hCase : replacement? t root p (site.toDeclaration text) with
  | none => trivial
  | some r =>
    have hSplit := Specifier.stem_append_extension p (site.toDeclaration text).specifier.value
    rw [Option.map_some, Option.getD_some]
    obtain ⟨hAttributes, -, ⟨hJson, rfl⟩ | ⟨-, c, hC, -, rfl⟩⟩ :=
      Replacement.decisionFor_eq_some hCase
    · rw [hJson] at hSplit
      have hChars : ".json".toList = ".js".toList ++ ['o', 'n'] := by decide
      refine ⟨hAttributes, (Specifier.ofText p
        (site.toDeclaration text).specifier.value).stem.toList ++ ".js".toList, ?_⟩
      rw [List.append_assoc, ← hChars, ← String.toList_append, hSplit, Site.toList_value]
    · have hForm := Replacement.candidates_form c hC
      unfold Replacement.ofForm Replacement.mark
      dsimp only
      cases hCase : c.form with
      | json => exact absurd hCase hForm
      | module => exact ⟨hAttributes, by decide⟩
      | component => exact ⟨hAttributes, by decide⟩
      | index => exact ⟨hAttributes, by decide⟩
      | indexComponent => exact ⟨hAttributes, by decide⟩

theorem markAt_suits {text : String} (hSeam : SeamFree t root p text) :
    ∀ site ∈ sites text.toList, (markAt t root p text.toList site).Suits site := by
  intro site hSite
  refine ⟨markAt_allowed site, ?_⟩
  unfold markAt
  cases hCase : replacement? t root p (site.toDeclaration text.toList) with
  | none => exact nofun
  | some r =>
    intro hHead
    have hHere := hSeam _ (mem_declarations hSite) r hCase (Replacement.form_of_mark_front hHead)
    rwa [Site.toList_value] at hHere

theorem contents_explicitText {text : String} (hClear : Clear t root p text) :
    (sites (explicitText t root p text).toList).map Site.content =
      (sites text.toList).map fun site => (markAt t root p text.toList site).content site := by
  rw [explicitText_eq_woven]
  rcases hClear with ⟨s, rfl⟩ | hSeam
  · rw [SourceText.text, String.toList_ofList]
    exact sites_weave_source s fun site _ => markAt_allowed site
  · exact contents_of_foundAgain (sites_weave (markAt_suits hSeam))

theorem contentReplacement?_mark {text : List Char} (site : Site) :
    contentReplacement? t root p ((markAt t root p text site).content site) = none ↔
      ∀ r, replacement? t root p (site.toDeclaration text) = some r →
        r.Lasts t root p (site.toDeclaration text).specifier.value := by
  unfold markAt
  cases hCase : replacement? t root p (site.toDeclaration text) with
  | none =>
    refine iff_of_true ?_ nofun
    have hKept : Mark.kept.content site = site.content := by
      simp [Mark.content, Mark.front, Site.content]
    rw [Option.map_none, Option.getD_none, hKept]
    exact hCase
  | some r =>
    have hAgain := Replacement.decisionFor_again hCase
    have hWritten : String.ofList (site.specifier.body ++ r.mark.front) = r.specifier := by
      rw [← Site.toList_value text, ← Replacement.specifier_eq hCase, String.ofList_toList]
    have hClause : decide (r.mark = .clause) = (r.form == .json) := by
      rw [decide_eq_decide.mpr r.mark_eq_clause_iff]
      rfl
    simp only [Option.map_some, Option.getD_some, Option.some.injEq, forall_eq']
    rw [← hAgain, ← hWritten, ← hClause]
    rfl

/-- An explicit text holds no declaration to replace exactly if all replacements last. -/
theorem allLast_iff {text : String} (hClear : Clear t root p text) :
    (∀ d ∈ declarations (explicitText t root p text), replacement? t root p d = none) ↔
      AllLast t root p text := by
  have hContents := contents_explicitText hClear
  have hAgain : (∀ d ∈ declarations (explicitText t root p text), replacement? t root p d = none) ↔
      ∀ c ∈ (sites (explicitText t root p text).toList).map Site.content,
        contentReplacement? t root p c = none := by
    rw [declarations_eq_map, List.forall_mem_map, List.forall_mem_map]
    rfl
  rw [hAgain, hContents, List.forall_mem_map]
  unfold AllLast
  rw [declarations_eq_map, List.forall_mem_map]
  constructor
  · intro hNone site hSite
    exact (contentReplacement?_mark site).mp (hNone site hSite)
  · intro hLast site hSite
    exact (contentReplacement?_mark site).mpr (hLast site hSite)

end Text

/-- After a run that succeeds, a second run has nothing to do exactly if the project can be loaded
again and its sources are explicit. If no edited source stands for another file or decides about the
project, this depends on the first tree alone: the texts that were written must hold no declaration
with a replacement, which means, for texts in which all declarations are found again, that every
replacement of the first run lasts. -/
theorem second_run_isIdle_iff {names : TemporaryNames} {t : FileTree} {options : ProjectOptions}
    {debug : Bool} (names' : TemporaryNames) (again : Bool) {report : Report}
    (hReport : (run names t options { debug }).report = .ok report) :
    let u := (run names t options { debug }).tree
    (IsIdle u (run names' u options { debug := again }) ↔ ∃ project,
      Project.load u options = .ok project ∧ ∀ p ∈ project.sourceFiles, Settled u project.root p) ∧
    ∀ project, Project.load t options = .ok project → Undisturbed t project →
      (IsIdle u (run names' u options { debug := again }) ↔ ∀ p ∈ project.sourceFiles, ∀ text,
        t.readText p = .ok text → ∀ d ∈ declarations (explicitText t project.root p text),
          replacement? t project.root p d = none) ∧
      ((∀ p ∈ project.sourceFiles, ∀ text, t.readText p = .ok text →
          Clear t project.root p text) →
        (IsIdle u (run names' u options { debug := again }) ↔ ∀ p ∈ project.sourceFiles, ∀ text,
          t.readText p = .ok text → AllLast t project.root p text)) := by
  refine ⟨run_isIdle_iff, ?_⟩
  intro project hLoad hUndisturbed
  have hAgain := run_again_isIdle_iff names' again hLoad hUndisturbed hReport
  refine ⟨hAgain, ?_⟩
  intro hClear
  rw [hAgain]
  constructor
  · intro hNone p hP text hText
    exact (allLast_iff (hClear p hP text hText)).mp (hNone p hP text hText)
  · intro hLast p hP text hText
    exact (allLast_iff (hClear p hP text hText)).mpr (hLast p hP text hText)

theorem not_endsInLink {t : FileTree} {p : Path} (entry : Location)
    (hEntry : t.locate false p = .ok entry) (hFile : t.isFileAt entry = true) :
    ¬t.EndsInLink p := by
  rintro ⟨loc, hLoc, target, hLink⟩
  rw [hEntry] at hLoc
  cases hLoc
  obtain ⟨content, mode, hNode⟩ := FileTree.isFileAt_iff.mp hFile
  rw [hNode] at hLink
  cases hLink

def plainSource : FileTree := ⟨[
  (["w"], .directory 0o755),
  (["w", "a.ts"], .file "import x from './b';\nimport y from './c.json'\n".toUTF8 0o644),
  (["w", "b.ts"], .file "".toUTF8 0o644)]⟩

def plainProject : Project :=
  ⟨⟨"/w"⟩, none, [⟨"/w/a.ts"⟩, ⟨"/w/b.ts"⟩]⟩

theorem plainSource_second_run_isIdle :
    IsIdle (run workNames plainSource workOptions {}).tree
      (run workNames (run workNames plainSource workOptions {}).tree workOptions { debug := true }) := by
  have hProject : Project.load plainSource workOptions = .ok plainProject := by decide +kernel
  have hReport : (run workNames plainSource workOptions {}).report =
      .ok ⟨⟨"/w"⟩, 2, [⟨"/w/a.ts"⟩], 2, false⟩ := by decide +kernel
  have hFirst : plainSource.readText ⟨"/w/a.ts"⟩ =
      .ok "import x from './b';\nimport y from './c.json'\n" := by decide +kernel
  have hSecond : plainSource.readText ⟨"/w/b.ts"⟩ = .ok "" := by decide +kernel
  have hNames : ∀ p ∈ plainProject.sourceFiles, ∀ text, plainSource.readText p = .ok text →
      ∀ d ∈ declarations text, Specifier.TakesExtension d.specifier.value.toList ∧
        ∀ c ∈ d.specifier.value.toList.getLast?, c ≠ '/' ∧ c ≠ '*' := by
    intro p hP text hText
    rcases List.mem_pair.mp hP with rfl | rfl
    · rw [hFirst] at hText
      cases hText
      decide +kernel
    · rw [hSecond] at hText
      cases hText
      decide +kernel
  have hApart : plainSource.LeadApart plainProject.sourceFiles := by
    unfold FileTree.LeadApart
    decide +kernel
  have hNoLinks : ∀ p ∈ plainProject.sourceFiles, ¬plainSource.EndsInLink p := by
    intro p hP
    rcases List.mem_pair.mp hP with rfl | rfl
    · exact not_endsInLink ["w", "a.ts"] (by decide +kernel) (by decide +kernel)
    · exact not_endsInLink ["w", "b.ts"] (by decide +kernel) (by decide +kernel)
  have hUndisturbed : Undisturbed plainSource plainProject :=
    ⟨hApart, fun p hP _ => hNoLinks p hP, nofun⟩
  have hRun := (second_run_isIdle_iff workNames true hReport).2 plainProject hProject hUndisturbed
  refine (hRun.2 ?_).mpr ?_
  · intro p hP text hText
    exact Or.inr fun d hD _ _ _ => (hNames p hP text hText d hD).2
  · intro p hP text hText d hD _ _ _
    exact Or.inl (hNames p hP text hText d hD).1

/-- A source that imports a file whose name ends in a dot, and a file with the name that is written
for it. -/
def dottedSource : FileTree := ⟨[
  (["w"], .directory 0o755),
  (["w", "src"], .directory 0o755),
  (["w", "src", "a.ts"], .file "import x from './b.';\n".toUTF8 0o644),
  (["w", "src", "b..js.ts"], .file "".toUTF8 0o644),
  (["w", "src", "b..ts"], .file "".toUTF8 0o644)]⟩

def dottedReport : Report :=
  ⟨⟨"/w"⟩, 3, [⟨"/w/src/a.ts"⟩], 1, false⟩

/-- A second run can replace what the first has written. -/
theorem not_forall_second_run_isIdle :
    ¬∀ (names names' : TemporaryNames) (t : FileTree) (options : ProjectOptions) (debug again : Bool)
      (report : Report),
      (run names t options { debug }).report = .ok report →
      IsIdle (run names t options { debug }).tree
        (run names' (run names t options { debug }).tree options { debug := again }) := by
  intro hAll
  have hReport : (run workNames dottedSource workOptions {}).report = .ok dottedReport := by
    decide +kernel
  have hAgain : (run workNames (run workNames dottedSource workOptions {}).tree workOptions
      {}).report = .ok dottedReport := by
    decide +kernel
  obtain ⟨⟨report, hOk, hNone, -⟩, -⟩ :=
    hAll workNames workNames dottedSource workOptions false false _ hReport
  rw [hAgain] at hOk
  cases hOk
  cases hNone

end Conversion
end ExplicitModules
