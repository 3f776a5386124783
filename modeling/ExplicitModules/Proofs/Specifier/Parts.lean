import ExplicitModules.Proofs.Replacement.Resolution
import ExplicitModules.Proofs.Source.Bytes
import Mathlib.Data.List.Induction

/-!
# Parts of a specifier

The text of a specifier alone decides what its parts are. It is cut where its bytes are cut, between
two characters, and the cut never reaches into the marks in front: what is left of the extension is
relative, or an alias, exactly if the whole text is.
-/
namespace ExplicitModules
set_option autoImplicit false

namespace Source

variable {cs xs k : List Char} {d : Char}

theorem mem_bytes_iff (hD : isAscii d = true) : d ∈ bytes cs ↔ d ∈ cs := by
  rw [bytes, List.mem_flatMap]
  constructor
  · rintro ⟨c, hC, hMem⟩
    cases hAscii : isAscii c with
    | true =>
      rw [charBytes_of_ascii hAscii, List.mem_singleton] at hMem
      rwa [hMem]
    | false =>
      rw [not_isAscii_of_mem_charBytes hAscii hMem] at hD
      cases hD
  · intro hMem
    exact ⟨d, hMem, by rw [charBytes_of_ascii hD]; exact List.mem_singleton_self d⟩

theorem bytes_concat_eq_iff (hD : isAscii d = true) :
    bytes cs = xs ++ [d] ↔ ∃ front, cs = front ++ [d] ∧ xs = bytes front := by
  constructor
  · intro h
    rcases List.eq_nil_or_concat' cs with rfl | ⟨front, c, rfl⟩
    · simp at h
    · obtain ⟨e, es, hSome⟩ := exists_charBytes c
      have hLast : (charBytes c).getLast? = some d := by
        have hBoth := congrArg List.getLast? h
        simpa [bytes_cons, hSome, List.getLast?_append] using hBoth
      -- no byte of a longer character is ASCII, so the last byte is a whole character
      have hC : isAscii c = true := by
        by_contra hHigh
        rw [not_isAscii_of_mem_charBytes (by simpa using hHigh) (List.mem_of_getLast? hLast)] at hD
        cases hD
      rw [bytes_append, bytes_cons, charBytes_of_ascii hC] at h
      obtain ⟨rfl, hEq⟩ := List.append_inj' h rfl
      exact ⟨front, by simpa using hEq, rfl⟩
  · rintro ⟨front, rfl, rfl⟩
    rw [bytes_append, bytes_cons_of_ascii hD, bytes_nil]

/-- The bytes of a text end in an ASCII text only if the text does. -/
theorem bytes_eq_append_iff (hK : ∀ c ∈ k, isAscii c = true) :
    bytes cs = xs ++ k ↔ ∃ front, cs = front ++ k ∧ xs = bytes front := by
  -- from the end, where every byte of an ASCII text is a character by itself
  induction k using List.reverseRecOn generalizing cs with
  | nil => simp [eq_comm]
  | append_singleton k d ih =>
    obtain ⟨hAll, hD⟩ := List.forall_mem_append.mp hK
    rw [← List.append_assoc, bytes_concat_eq_iff (hD d (List.mem_singleton_self d))]
    constructor
    · rintro ⟨front, rfl, hFront⟩
      obtain ⟨start, rfl, rfl⟩ := (ih hAll).mp hFront.symm
      exact ⟨start, List.append_assoc _ _ _, rfl⟩
    · rintro ⟨start, rfl, rfl⟩
      exact ⟨start ++ k, (List.append_assoc _ _ _).symm, ((ih hAll).mpr ⟨start, rfl, rfl⟩).symm⟩

theorem getLast?_bytes (hD : isAscii d = true) : (bytes cs).getLast? = some d ↔ cs.getLast? = some d := by
  rw [List.getLast?_eq_some_iff, List.getLast?_eq_some_iff]
  constructor
  · rintro ⟨xs, hBytes⟩
    obtain ⟨front, hText, -⟩ := (bytes_concat_eq_iff hD).mp hBytes
    exact ⟨front, hText⟩
  · rintro ⟨front, hText⟩
    exact ⟨bytes front, (bytes_concat_eq_iff hD).mpr ⟨front, hText, rfl⟩⟩

end Source

open Source

theorem Path.lastSegment_bytes (cs : List Char) :
    lastSegment (bytes cs) = bytes (lastSegment cs) := by
  obtain ⟨hPlain, hWhole⟩ := lastSegment_eq_iff.mp (rfl : lastSegment cs = lastSegment cs)
  apply IsLastSegment.eq
  refine ⟨fun hMem => hPlain ((mem_bytes_iff (by decide)).mp hMem), ?_⟩
  rcases hWhole with hAll | ⟨front, hText⟩
  · exact Or.inl (congrArg bytes hAll)
  · refine Or.inr ⟨bytes front, ?_⟩
    rw [← bytes_cons_of_ascii (by decide), ← bytes_append, ← hText]

namespace Specifier

variable {text e : List Char}

theorem isAscii_of_mem_extension (hE : e ∈ extensions) : ∀ c ∈ e, isAscii c = true := by
  revert e
  decide

theorem endsIn_bytes_iff (hE : e ∈ extensions) : EndsIn (bytes text) e ↔ EndsIn text e := by
  have hAscii := isAscii_of_mem_extension hE
  rw [← carries_lastSegment_iff, ← carries_lastSegment_iff, Path.lastSegment_bytes, carries_iff,
    carries_iff]
  constructor
  · rintro ⟨name, hSegment, hSome, hDot⟩
    obtain ⟨front, hText, rfl⟩ := (bytes_eq_append_iff hAscii).mp hSegment
    refine ⟨front, hText, ?_, fun hLast => hDot ((getLast?_bytes (by decide)).mpr hLast)⟩
    rintro rfl
    exact hSome rfl
  · rintro ⟨front, hText, hSome, hDot⟩
    refine ⟨bytes front, (bytes_eq_append_iff hAscii).mpr ⟨front, hText, rfl⟩, ?_,
      fun hLast => hDot ((getLast?_bytes (by decide)).mp hLast)⟩
    intro hNil
    exact hSome ((bytes_eq_iff (k := []) nofun front).mp hNil)

theorem splitExtension_bytes (text : List Char) :
    splitExtension (bytes text) = (bytes (splitExtension text).1, bytes (splitExtension text).2) := by
  obtain ⟨e, hE, front, rfl, hEnd, hSplit⟩ | ⟨hNone, hSplit⟩ := splitExtension_cases text
  · have hBytes := (endsIn_bytes_iff hE).mpr hEnd
    rw [bytes_append, bytes_of_ascii (isAscii_of_mem_extension hE)] at hBytes
    rw [hSplit, bytes_append, bytes_of_ascii (isAscii_of_mem_extension hE)]
    exact splitInOrder_append hBytes hE (List.Subset.refl _)
  · rw [hSplit]
    exact splitInOrder_of_none fun e hE hEnd => hNone e hE ((endsIn_bytes_iff hE).mp hEnd)

section OfText

variable (file : Path) (text : String)

theorem stem_toList : (ofText file text).stem.toList = (splitExtension text.toList).1 :=
  String.toList_ofList

theorem extension_toList : (ofText file text).extension.toList = (splitExtension text.toList).2 :=
  String.toList_ofList

theorem extension_of_endsIn (hE : e ∈ extensions) (h : EndsIn text.toList e) :
    (ofText file text).extension = String.ofList e := by
  obtain ⟨e', hE', front, -, hOther, hSplit⟩ | ⟨hNone, -⟩ := splitExtension_cases text.toList
  · rw [ofText, hSplit, h.unique hOther hE hE']
  · exact absurd h (hNone e hE)

theorem extension_ne_iff :
    (ofText file text).extension ≠ "" ↔ ∃ e ∈ extensions, EndsIn text.toList e := by
  constructor
  · intro hExtension
    obtain ⟨e, hE, -, -, hEnd, -⟩ | ⟨-, hSplit⟩ := splitExtension_cases text.toList
    · exact ⟨e, hE, hEnd⟩
    · rw [ofText, hSplit] at hExtension
      exact absurd rfl hExtension
  · rintro ⟨e, hE, hEnd⟩
    have hSome : ∀ e ∈ extensions, e ≠ [] := by decide
    rw [extension_of_endsIn file text hE hEnd]
    simpa using hSome e hE

theorem splitAtByte_extension :
    Text.splitAtByte text.toList
      (Text.utf8Length text.toList - Text.utf8Length (ofText file text).extension.toList) =
        some ((ofText file text).stem.toList, (ofText file text).extension.toList) := by
  have hParts := congrArg String.toList (stem_append_extension file text)
  rw [String.toList_append] at hParts
  have hLength := congrArg Text.utf8Length hParts
  rw [Text.utf8Length_append] at hLength
  refine (Text.splitAtByte_eq_some_iff _ _ _ _).mpr ⟨hParts.symm, ?_⟩
  omega

theorem isRelative_stem (file' : Path) :
    (ofText file' (ofText file text).stem).isRelative = (ofText file text).isRelative := by
  have hMarks : ∀ mark ∈ relativeMarks, mark.getLast? = some '/' := by decide
  rw [Bool.eq_iff_iff]
  simp only [ofText, List.any_eq_true, List.isPrefixOf_iff_prefix, String.toList_ofList]
  apply exists_congr
  intro mark
  apply and_congr_right
  intro hMem
  exact prefix_splitExtension_iff (hMarks mark hMem)

end OfText

structure PartsOf (text : String) (s : Specifier) : Prop where
  written : s.written = text
  whole : s.stem ++ s.extension = s.written
  extension_ne : s.extension ≠ "" ↔ ∃ e ∈ extensions, EndsIn text.toList e
  extension_eq : ∀ e ∈ extensions, EndsIn text.toList e → s.extension = String.ofList e
  unique : ∀ e ∈ extensions, ∀ e' ∈ extensions,
    EndsIn text.toList e → EndsIn text.toList e' → e = e'
  /-- The extensions may be tried in any order. -/
  anyOrder : ∀ order, (∀ e, e ∈ order ↔ e ∈ extensions) →
    splitInOrder order text.toList = (s.stem.toList, s.extension.toList)
  /-- Counted in bytes, the cut lies between two characters. -/
  boundary : Text.splitAtByte text.toList
    (Text.utf8Length text.toList - Text.utf8Length s.extension.toList) =
      some (s.stem.toList, s.extension.toList)
  /-- Cutting the bytes of the text gives the bytes of what cutting the text gives. -/
  lastSegment_bytes : Path.lastSegment (bytes text.toList) = bytes (Path.lastSegment text.toList)
  split_bytes : splitExtension (bytes text.toList) = (bytes s.stem.toList, bytes s.extension.toList)
  isAlias : s.isAlias = true ↔ ['~', '/'] <+: text.toList
  isRelative : s.isRelative = true ↔
    ['.', '/'] <+: text.toList ∨ ['.', '.', '/'] <+: text.toList ∨ ['~', '/'] <+: text.toList
  isRelative_stem : ∀ file, (ofText file s.stem).isRelative = s.isRelative

/-- A specifier has the parts of its text, whatever file it is written in. -/
theorem ofText_partsOf (file : Path) (text : String) : PartsOf text (ofText file text) where
  written := rfl
  whole := stem_append_extension file text
  extension_ne := extension_ne_iff file text
  extension_eq := fun e hE hEnd => extension_of_endsIn file text hE hEnd
  unique := fun e hE e' hE' hEnd hEnd' => hEnd.unique hEnd' hE hE'
  anyOrder := by
    intro order hOrder
    rw [splitInOrder_eq hOrder, stem_toList, extension_toList]
  boundary := splitAtByte_extension file text
  lastSegment_bytes := Path.lastSegment_bytes text.toList
  split_bytes := by rw [splitExtension_bytes, stem_toList, extension_toList]
  isAlias := isAlias_iff
  isRelative := by
    rw [isRelative_iff, StartsBeside, or_assoc]
    rfl
  isRelative_stem := isRelative_stem file text

/-- A name that ends in a dot carries no extension. -/
example : splitExtension "./b..js".toList = ("./b..js".toList, []) := by decide

end Specifier
end ExplicitModules
