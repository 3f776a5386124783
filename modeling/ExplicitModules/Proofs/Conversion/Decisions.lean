import ExplicitModules.Proofs.Conversion.Document
import ExplicitModules.Proofs.Specifier.Extension

/-!
# Decisions

A decision depends on a tree through the candidate it takes and those it looked for in vain. What a
specifier is replaced by is longer than the specifier.
-/
namespace ExplicitModules
set_option autoImplicit false
open Source Text

namespace Replacement

def clause (r : Replacement) (quote : Char) : List Char :=
  match r.form with
  | .json => " with \x7b type: ".toList ++ quote :: ("json".toList ++ quote :: " \x7d".toList)
  | _ => []

theorem toList_render (r : Replacement) (quote : Char) :
    (r.render quote).toList = quote :: (r.specifier.toList ++ quote :: r.clause quote) := by
  unfold render clause
  cases r.form <;> simp

variable {t u : FileTree}

theorem probe_eq {s : Specifier} {cs : List Candidate}
    (hFiles : ∀ p, t.isFile p = true → u.isFile p = true)
    (hMissed : ∀ p ∈ (probe t s cs).tried, u.isFile p = false) : probe u s cs = probe t s cs := by
  induction cs with
  | nil => rfl
  | cons c cs ih =>
    unfold probe at hMissed ih ⊢
    cases hC : t.isFile c.path with
    | true => simp [hC, hFiles c.path hC]
    | false =>
      simp only [List.takeWhile_cons, List.find?_cons, hC, Bool.not_false, if_true, List.map_cons,
        List.forall_mem_cons] at hMissed ih ⊢
      obtain ⟨hFirst, hRest⟩ := hMissed
      have hLater := Decision.mk.inj (ih hRest)
      simp only [hFirst, Bool.not_false, if_true, List.map_cons, hLater.1, hLater.2]

/-- Two trees decide alike if the second has the files of the first, and still none where the first
was looked through in vain. -/
theorem decisionFor_eq {root : Path} {s : Specifier} {hasAttributes : Bool}
    (hFiles : ∀ p, t.isFile p = true → u.isFile p = true)
    (hMissed : ∀ p ∈ (decisionFor t root s hasAttributes).tried, u.isFile p = false) :
    decisionFor u root s hasAttributes = decisionFor t root s hasAttributes := by
  unfold decisionFor at hMissed ⊢
  split
  · rfl
  · rename_i hRelative
    rw [if_neg hRelative] at hMissed
    split
    · rfl
    · rename_i hJson
      rw [if_neg hJson] at hMissed
      split
      · rename_i hPlain
        rw [if_pos hPlain] at hMissed
        exact probe_eq hFiles hMissed
      · rfl

theorem not_isFile_of_mem_tried {root p : Path} {s : Specifier} {hasAttributes : Bool}
    (h : p ∈ (decisionFor t root s hasAttributes).tried) : t.isFile p = false := by
  unfold decisionFor at h
  split at h
  · cases h
  · split at h
    · cases h
    · split at h
      · obtain ⟨c, hC, rfl⟩ := List.mem_map.mp h
        have hMissed := List.mem_takeWhile_imp hC
        simpa using hMissed
      · cases h

/-- A replacement names JSON data, or stands for a candidate of a specifier without an extension. -/
theorem decisionFor_eq_some {root : Path} {s : Specifier} {hasAttributes : Bool} {r : Replacement}
    (h : (decisionFor t root s hasAttributes).replacement = some r) :
    hasAttributes = false ∧ s.isRelative = true ∧
      (s.extension = ".json" ∧ r = ofForm s .json ∨
        s.extension = "" ∧ ∃ c ∈ candidates root s, t.isFile c.path = true ∧ r = ofForm s c.form) := by
  unfold decisionFor at h
  split at h
  · cases h
  · rename_i hRelative
    simp only [Bool.or_eq_true, Bool.not_eq_true', not_or, Bool.not_eq_true,
      Bool.not_eq_false] at hRelative
    refine ⟨hRelative.1, hRelative.2, ?_⟩
    split at h
    · rename_i hJson
      exact Or.inl ⟨hJson, (Option.some.inj h).symm⟩
    · split at h
      · rename_i hPlain
        obtain ⟨c, hC, rfl⟩ := Option.map_eq_some_iff.mp h
        have hFile := List.find?_some hC
        exact Or.inr ⟨hPlain, c, List.mem_of_find?_eq_some hC, hFile, rfl⟩
      · cases h

theorem utf8Length_render {root p : Path} {d : Declaration} {r : Replacement}
    (h : (decisionFor t root (.ofText p d.specifier.value) d.hasAttributes).replacement = some r) :
    utf8Length d.specifier.chars < utf8Length (r.render d.specifier.quote).toList := by
  have hSplit := Specifier.stem_append_extension p d.specifier.value
  have hValue : utf8Length d.specifier.value.toList =
      utf8Length (Specifier.ofText p d.specifier.value).stem.toList +
        utf8Length (Specifier.ofText p d.specifier.value).extension.toList := by
    rw [← utf8Length_append, ← String.toList_append, hSplit]
  rw [toList_render]
  obtain ⟨-, -, ⟨hJson, rfl⟩ | ⟨hPlain, c, -, -, rfl⟩⟩ := decisionFor_eq_some h
  · have hClause : 0 < utf8Length ((ofForm (.ofText p d.specifier.value) .json).clause
        d.specifier.quote) := by
      refine Nat.lt_of_lt_of_le ?_ (length_le_utf8Length _)
      simp [clause, ofForm]
    simp only [Literal.chars, ofForm, Form.suffix, String.toList_append, utf8Length_cons,
      utf8Length_append, utf8Length_nil, hValue, hJson] at hClause ⊢
    omega
  · have hSuffix : 0 < utf8Length c.form.suffix.toList := by cases c.form <;> decide
    simp only [Literal.chars, ofForm, String.toList_append, utf8Length_cons,
      utf8Length_append, utf8Length_nil, hValue, hPlain] at hSuffix ⊢
    have hNone : utf8Length "".toList = 0 := rfl
    omega

end Replacement

namespace Conversion

theorem edits_longer {t : FileTree} {root p : Path} {text : String} :
    ∀ e ∈ explicitEdits t root p text, e.stop - e.start < utf8Length e.text.toList := by
  intro e hEdit
  obtain ⟨d, hD, hWritten⟩ := List.mem_filterMap.mp hEdit
  obtain ⟨written, hText, rfl⟩ := Option.map_eq_some_iff.mp hWritten
  obtain ⟨r, hReplacement, rfl⟩ := Option.map_eq_some_iff.mp hText
  have hLonger := Replacement.utf8Length_render hReplacement
  have hStop := (literalsIn_declarations text).stop_eq d hD
  dsimp only
  omega

theorem explicitText_eq_iff {t : FileTree} {root p : Path} {text : String} :
    explicitText t root p text = text ↔ explicitEdits t root p text = [] := by
  have hSplice := splice_explicitEdits t root p text
  constructor
  · intro hSame
    rw [hSame] at hSplice
    have hLength := splice_length edits_longer hSplice
    exact List.length_eq_zero_iff.mp (by omega)
  · intro hNone
    rw [hNone, splice] at hSplice
    exact (String.toList_injective (Option.some.inj hSplice)).symm

end Conversion
end ExplicitModules
