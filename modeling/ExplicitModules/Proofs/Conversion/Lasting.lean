import ExplicitModules.Proofs.Conversion.Decisions

/-!
# Replacements that last

A replacement lasts if nothing replaces the specifier that it writes. Those that name an index file
or JSON data always do. The others do unless the last segment of the specifier is empty or ends in a
dot: no extension is recognised behind such a segment, and candidates are looked for once more.
-/
namespace ExplicitModules
set_option autoImplicit false
open Source

namespace Specifier

def TakesExtension (text : List Char) : Prop :=
  Path.lastSegment text ≠ [] ∧ (Path.lastSegment text).getLast? ≠ some '.'

instance (text : List Char) : Decidable (TakesExtension text) :=
  inferInstanceAs (Decidable (_ ∧ _))

def scriptExtensions : List (List Char) :=
  [".js".toList, ".jsx".toList]

theorem endsIn_append_iff {text e : List Char} (h : '/' ∉ e) :
    EndsIn (text ++ e) e ↔ TakesExtension text := by
  rw [← carries_lastSegment_iff, Path.lastSegment_append h, carries_iff]
  constructor
  · rintro ⟨name, hName, hTakes⟩
    rwa [← List.append_cancel_right hName] at hTakes
  · intro hTakes
    exact ⟨_, rfl, hTakes⟩

theorem splitExtension_append_script {text e : List Char} (hE : e ∈ scriptExtensions) :
    splitExtension (text ++ e) =
      if TakesExtension text then (text, e) else (text ++ e, []) := by
  have hPlain : ∀ e ∈ scriptExtensions, '/' ∉ e := by decide
  have hMem : scriptExtensions ⊆ extensions := by decide
  have hOnly : ∀ e' ∈ extensions, ∀ e ∈ scriptExtensions, e' <:+ e ∨ e <:+ e' → e' = e := by decide
  obtain ⟨e', hE', front, hText, hEnd, hSplit⟩ | ⟨hNone, hSplit⟩ := splitExtension_cases (text ++ e)
  · obtain rfl := hOnly e' hE' e hE
      (List.suffix_or_suffix_of_suffix hEnd.suffix (List.suffix_append text e))
    rw [hSplit, if_pos ((endsIn_append_iff (hPlain e' hE)).mp hEnd), List.append_cancel_right hText]
  · rw [hSplit, if_neg]
    intro hTakes
    exact hNone e (hMem hE) ((endsIn_append_iff (hPlain e hE)).mpr hTakes)

end Specifier

namespace Replacement

theorem candidates_form {root : Path} {s : Specifier} : ∀ c ∈ candidates root s,
    c.form ≠ .json := by
  have hForm : ∀ base text endings, (∀ ending ∈ endings, ending.2 ≠ Form.json) →
      ∀ c ∈ candidatesAt base text endings, c.form ≠ .json := by
    intro base text endings hEndings c hC
    obtain ⟨ending, hMem, rfl⟩ := List.mem_map.mp hC
    exact hEndings ending hMem
  unfold candidates
  split
  · exact hForm _ _ _ (by decide)
  · exact hForm _ _ _ (by decide)

/-- Whether the specifier written by `r` in the file `p` stays as it is, where `value` has been. -/
def Lasts (t : FileTree) (root p : Path) (value : String) (r : Replacement) : Prop :=
  r.form = .module ∨ r.form = .component → Specifier.TakesExtension value.toList ∨
    ∀ c ∈ candidates root (.ofText p r.specifier), t.isFile c.path = false

theorem isRelative_append {p : Path} {value more : String}
    (h : (Specifier.ofText p value).isRelative = true) :
    (Specifier.ofText p (value ++ more)).isRelative = true := by
  unfold Specifier.ofText at h ⊢
  dsimp only at h ⊢
  rw [List.any_eq_true] at h ⊢
  obtain ⟨mark, hMark, hPrefix⟩ := h
  rw [List.isPrefixOf_iff_prefix] at hPrefix
  refine ⟨mark, hMark, List.isPrefixOf_iff_prefix.mpr ?_⟩
  rw [String.toList_append]
  exact hPrefix.trans (List.prefix_append _ _)

theorem probe_eq_none_iff {t : FileTree} {s : Specifier} {cs : List Candidate} :
    (probe t s cs).replacement = none ↔ ∀ c ∈ cs, t.isFile c.path = false := by
  unfold probe
  simp only [Option.map_eq_none_iff, List.find?_eq_none, Bool.not_eq_true]

section Decision

variable (t : FileTree) (root : Path) {p : Path} {value : String}

theorem decisionFor_script (hRelative : (Specifier.ofText p value).isRelative = true) {e : String}
    (hE : e.toList ∈ Specifier.scriptExtensions) :
    (decisionFor t root (.ofText p (value ++ e)) false).replacement = none ↔
      Specifier.TakesExtension value.toList ∨
        ∀ c ∈ candidates root (.ofText p (value ++ e)), t.isFile c.path = false := by
  have hSplit : (Specifier.ofText p (value ++ e)).extension =
      if Specifier.TakesExtension value.toList then e else "" := by
    unfold Specifier.ofText
    dsimp only
    rw [String.toList_append, Specifier.splitExtension_append_script hE]
    split
    · exact String.ofList_toList
    · rfl
  have hOther : e ≠ ".json" ∧ e ≠ "" := by
    constructor
    · rintro rfl
      exact absurd hE (by decide)
    · rintro rfl
      exact absurd hE (by decide)
  unfold decisionFor
  rw [isRelative_append hRelative, hSplit, if_neg (by decide)]
  by_cases hTakes : Specifier.TakesExtension value.toList
  · rw [if_pos hTakes, if_neg hOther.1, if_neg hOther.2]
    exact iff_of_true rfl (Or.inl hTakes)
  · rw [if_neg hTakes, if_neg (by decide), if_pos rfl, probe_eq_none_iff]
    constructor
    · exact Or.inr
    · intro hLasts
      exact hLasts.resolve_left hTakes

/-- The name of an index file takes any extension. -/
theorem decisionFor_index (hRelative : (Specifier.ofText p value).isRelative = true) {e : String}
    (hE : e.toList ∈ Specifier.scriptExtensions) :
    (decisionFor t root (.ofText p (value ++ ("/index" ++ e))) false).replacement = none := by
  rw [← String.append_assoc]
  apply (decisionFor_script t root (isRelative_append hRelative) hE).mpr
  left
  have hName : Path.lastSegment (value ++ "/index").toList = "index".toList := by
    have hSlash : (value ++ "/index").toList = (value.toList ++ ['/']) ++ "index".toList := by
      rw [String.toList_append, List.append_assoc]
      rfl
    rw [hSlash, Path.lastSegment_append (by decide), Path.lastSegment_slash]
    rfl
  unfold Specifier.TakesExtension
  rw [hName]
  decide

variable {t root}

/-- Nothing is left to replace exactly where a replacement lasts. -/
theorem decisionFor_again {r : Replacement} {hasAttributes : Bool}
    (h : (decisionFor t root (.ofText p value) hasAttributes).replacement = some r) :
    (decisionFor t root (.ofText p r.specifier) (hasAttributes || r.form == .json)).replacement =
      none ↔ Lasts t root p value r := by
  obtain ⟨rfl, hRelative, ⟨-, rfl⟩ | ⟨hPlain, c, hC, -, rfl⟩⟩ := decisionFor_eq_some h
  · -- data gets an attribute clause, and nothing with attributes is replaced
    refine iff_of_true rfl ?_
    rintro (hForm | hForm) <;> cases hForm
  · have hStem := Specifier.stem_append_extension p value
    rw [hPlain, String.append_empty] at hStem
    have hForm := candidates_form c hC
    unfold Lasts ofForm
    rw [hStem, Bool.false_or]
    dsimp only
    cases hCase : c.form with
    | module =>
      have hIff := decisionFor_script t root hRelative (e := ".js") (by decide)
      constructor
      · intro hNone _
        exact hIff.mp hNone
      · intro hLasts
        exact hIff.mpr (hLasts (Or.inl rfl))
    | component =>
      have hIff := decisionFor_script t root hRelative (e := ".jsx") (by decide)
      constructor
      · intro hNone _
        exact hIff.mp hNone
      · intro hLasts
        exact hIff.mpr (hLasts (Or.inr rfl))
    | index =>
      have hNone := decisionFor_index t root hRelative (e := ".js") (by decide)
      refine iff_of_true hNone ?_
      rintro (hOther | hOther) <;> cases hOther
    | indexComponent =>
      have hNone := decisionFor_index t root hRelative (e := ".jsx") (by decide)
      refine iff_of_true hNone ?_
      rintro (hOther | hOther) <;> cases hOther
    | json => exact absurd hCase hForm

end Decision

end Replacement
end ExplicitModules
