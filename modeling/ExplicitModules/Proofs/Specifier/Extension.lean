import ExplicitModules.Specifier
import Mathlib.Data.List.Basic
import Mathlib.Data.List.TakeWhile

/-!
# Extensions of specifiers

An extension counts only behind a name in the last segment of a text, and only if that name is not
empty and does not end in a dot. None of the extensions is the end of another, so a text carries one
of them at most and the order in which they are tried does not matter.
-/
namespace ExplicitModules
set_option autoImplicit false

namespace Path

theorem lastSegment_suffix (cs : List Char) : lastSegment cs <:+ cs := by
  have hPrefix := List.takeWhile_prefix (· != '/') (l := cs.reverse)
  have hSuffix := List.reverse_suffix.mpr hPrefix
  rwa [List.reverse_reverse] at hSuffix

theorem lastSegment_append {name : List Char} (h : '/' ∉ name) (cs : List Char) :
    lastSegment (cs ++ name) = lastSegment cs ++ name := by
  unfold lastSegment
  rw [List.reverse_append, List.takeWhile_append_of_pos, List.reverse_append, List.reverse_reverse]
  intro c hC
  rw [bne_iff_ne]
  rintro rfl
  exact h (List.mem_reverse.mp hC)

theorem lastSegment_slash (cs : List Char) : lastSegment (cs ++ ['/']) = [] := by
  unfold lastSegment
  rw [List.reverse_append]
  rfl

/-- What stands behind the last slash of a text, or all of a text without one. -/
def IsLastSegment (cs segment : List Char) : Prop :=
  '/' ∉ segment ∧ (segment = cs ∨ ∃ front, cs = front ++ '/' :: segment)

theorem IsLastSegment.eq {cs segment : List Char} (h : IsLastSegment cs segment) :
    lastSegment cs = segment := by
  obtain ⟨hPlain, rfl | ⟨front, rfl⟩⟩ := h
  · exact lastSegment_append hPlain []
  · rw [← List.singleton_append, ← List.append_assoc, lastSegment_append hPlain, lastSegment_slash,
      List.nil_append]

theorem exists_isLastSegment (cs : List Char) : ∃ segment, IsLastSegment cs segment := by
  by_cases hSlash : '/' ∈ cs
  · obtain ⟨back, front, hSplit, hPlain⟩ :=
      List.eq_append_cons_of_mem (List.mem_reverse.mpr hSlash)
    refine ⟨back.reverse, fun hMem => hPlain (List.mem_reverse.mp hMem), Or.inr ⟨front.reverse, ?_⟩⟩
    rw [← List.reverse_reverse cs, hSplit]
    simp
  · exact ⟨cs, hSlash, Or.inl rfl⟩

theorem lastSegment_eq_iff {cs segment : List Char} :
    lastSegment cs = segment ↔ IsLastSegment cs segment := by
  constructor
  · rintro rfl
    obtain ⟨segment, hLast⟩ := exists_isLastSegment cs
    rwa [hLast.eq]
  · exact IsLastSegment.eq

end Path

namespace Specifier

variable {text segment front e e' : List Char} {order : List (List Char)}

theorem carries_iff : carries segment e = true ↔
    ∃ name, segment = name ++ e ∧ name ≠ [] ∧ name.getLast? ≠ some '.' := by
  unfold carries
  simp only [Bool.and_eq_true, List.isSuffixOf_iff_suffix, bne_iff_ne, ne_eq]
  constructor
  · rintro ⟨⟨⟨name, rfl⟩, hSome⟩, hDot⟩
    rw [List.length_append, Nat.add_sub_cancel, List.take_left] at hSome hDot
    exact ⟨name, rfl, hSome, hDot⟩
  · rintro ⟨name, rfl, hSome, hDot⟩
    rw [List.length_append, Nat.add_sub_cancel, List.take_left]
    exact ⟨⟨List.suffix_append name e, hSome⟩, hDot⟩

/-- The last segment of the text is a name with the extension behind it, where the name is not empty
and does not end in a dot. -/
def EndsIn (text extension : List Char) : Prop :=
  ∃ name, Path.IsLastSegment text (name ++ extension) ∧ name ≠ [] ∧ name.getLast? ≠ some '.'

theorem carries_lastSegment_iff : carries (Path.lastSegment text) e = true ↔ EndsIn text e := by
  rw [carries_iff]
  apply exists_congr
  intro name
  rw [Path.lastSegment_eq_iff]

instance (text extension : List Char) : Decidable (EndsIn text extension) :=
  decidable_of_iff _ carries_lastSegment_iff

theorem EndsIn.suffix (h : EndsIn text e) : e <:+ text := by
  obtain ⟨name, hLast, -⟩ := h
  have hText := Path.lastSegment_suffix text
  rw [hLast.eq] at hText
  exact (List.suffix_append name e).trans hText

theorem EndsIn.unique (h : EndsIn text e) (h' : EndsIn text e') (hE : e ∈ extensions)
    (hE' : e' ∈ extensions) : e = e' := by
  have hOnly : ∀ e ∈ extensions, ∀ e' ∈ extensions, e <:+ e' ∨ e' <:+ e → e = e' := by decide
  exact hOnly e hE e' hE' (List.suffix_or_suffix_of_suffix h.suffix h'.suffix)

theorem splitInOrder_append (h : EndsIn (front ++ e) e) (hE : e ∈ order)
    (hOrder : order ⊆ extensions) : splitInOrder order (front ++ e) = (front, e) := by
  have hFind : order.find? (carries (Path.lastSegment (front ++ e))) = some e := by
    obtain ⟨e', hFind⟩ := Option.isSome_iff_exists.mp
      (List.find?_isSome.mpr ⟨e, hE, carries_lastSegment_iff.mpr h⟩)
    -- what is found first is the only extension that the text ends in
    have hOther := carries_lastSegment_iff.mp (List.find?_some hFind)
    rw [hFind, h.unique hOther (hOrder hE) (hOrder (List.mem_of_find?_eq_some hFind))]
  simp [splitInOrder, hFind]

theorem splitInOrder_of_none (h : ∀ e ∈ order, ¬EndsIn text e) : splitInOrder order text = (text, []) := by
  have hFind : order.find? (carries (Path.lastSegment text)) = none :=
    List.find?_eq_none.mpr fun e hE hCarries => h e hE (carries_lastSegment_iff.mp hCarries)
  rw [splitInOrder, hFind]

/-- Either the text ends in an extension and is cut in front of it, or it ends in none. -/
theorem splitExtension_cases (text : List Char) :
    (∃ e ∈ extensions, ∃ front, text = front ++ e ∧ EndsIn text e ∧
      splitExtension text = (front, e)) ∨
    (∀ e ∈ extensions, ¬EndsIn text e) ∧ splitExtension text = (text, []) := by
  by_cases hSome : ∃ e ∈ extensions, EndsIn text e
  · obtain ⟨e, hE, hEnd⟩ := hSome
    obtain ⟨front, rfl⟩ := hEnd.suffix
    exact Or.inl ⟨e, hE, front, rfl, hEnd, splitInOrder_append hEnd hE (List.Subset.refl _)⟩
  · have hNone : ∀ e ∈ extensions, ¬EndsIn text e := fun e hE hEnd => hSome ⟨e, hE, hEnd⟩
    exact Or.inr ⟨hNone, splitInOrder_of_none hNone⟩

theorem splitInOrder_eq (hOrder : ∀ e, e ∈ order ↔ e ∈ extensions) (text : List Char) :
    splitInOrder order text = splitExtension text := by
  obtain ⟨e, hE, front, rfl, hEnd, hSplit⟩ | ⟨hNone, hSplit⟩ := splitExtension_cases text
  · rw [hSplit, splitInOrder_append hEnd ((hOrder e).mpr hE) fun e' => (hOrder e').mp]
  · rw [hSplit, splitInOrder_of_none fun e hE => hNone e ((hOrder e).mp hE)]

theorem splitExtension_append (text : List Char) :
    (splitExtension text).1 ++ (splitExtension text).2 = text := by
  obtain ⟨e, -, front, rfl, -, hSplit⟩ | ⟨-, hSplit⟩ := splitExtension_cases text
  · rw [hSplit]
  · rw [hSplit, List.append_nil]

theorem slash_notMem_extension (text : List Char) : '/' ∉ (splitExtension text).2 := by
  have hPlain : ∀ e ∈ extensions, '/' ∉ e := by decide
  obtain ⟨e, hE, front, -, -, hSplit⟩ | ⟨-, hSplit⟩ := splitExtension_cases text
  · rw [hSplit]
    exact hPlain e hE
  · rw [hSplit]
    exact List.not_mem_nil

/-- The cut is behind every slash of the text. -/
theorem prefix_splitExtension_iff {mark : List Char} (hMark : mark.getLast? = some '/') :
    mark <+: (splitExtension text).1 ↔ mark <+: text := by
  have hStem : (splitExtension text).1 <+: text := ⟨_, splitExtension_append text⟩
  constructor
  · intro h
    exact h.trans hStem
  · intro h
    rcases List.prefix_or_prefix_of_prefix h hStem with hFront | ⟨more, rfl⟩
    · exact hFront
    -- a mark that goes on behind the cut would leave its slash in the extension
    · have hMore : more <+: (splitExtension text).2 := by
        apply (List.prefix_append_right_inj (splitExtension text).1).mp
        rwa [splitExtension_append]
      rcases List.eq_nil_or_concat' more with rfl | ⟨start, c, rfl⟩
      · simp
      · rw [← List.append_assoc, List.getLast?_concat, Option.some.injEq] at hMark
        exact absurd (hMore.subset (by simp [hMark])) (slash_notMem_extension text)

theorem stem_append_extension (file : Path) (text : String) :
    (ofText file text).stem ++ (ofText file text).extension = text := by
  unfold ofText
  rw [← String.ofList_append, splitExtension_append, String.ofList_toList]

end Specifier
end ExplicitModules
