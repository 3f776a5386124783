import ExplicitModules.Proofs.Source.Boundary
import ExplicitModules.Proofs.Source.Layout

/-!
# Spans of the declarations of any text

Whatever the text, the span of a specifier runs from the opening to the closing quote of a string in
it, both ends between characters, with the value as written in between. The specifier stands behind
the keyword of its declaration, which is a whole word, and the keyword behind the specifier before.
The reported line is that of the keyword; numbers of lines have 32 bits and stop at the largest.
-/
namespace ExplicitModules.Source
set_option autoImplicit false
open Text

/-- The bytes from `start` up to `stop`, if both lie between characters of the text. -/
def slice? (text : List Char) (start stop : Nat) : Option (List Char) :=
  if start ≤ stop then do
    let (_, behind) ← splitAtByte text start
    let (part, _) ← splitAtByte behind (stop - start)
    return part
  else none

theorem slice?_append (front part back : List Char) :
    slice? (front ++ (part ++ back)) (utf8Length front) (utf8Length front + utf8Length part) =
      some part := by
  have hFront : splitAtByte (front ++ (part ++ back)) (utf8Length front) =
      some (front, part ++ back) := (splitAtByte_eq_some_iff _ _ _ _).mpr ⟨rfl, rfl⟩
  have hPart : splitAtByte (part ++ back) (utf8Length front + utf8Length part - utf8Length front) =
      some (part, back) := (splitAtByte_eq_some_iff _ _ _ _).mpr ⟨rfl, by omega⟩
  rw [slice?, if_pos (Nat.le_add_right _ _), hFront]
  simp only [bind, Option.bind, hPart, pure]

/-- `d` is a declaration of `text` whose keyword stands at byte `offset` or behind. -/
structure PlacedIn (text : List Char) (offset : Nat) (d : Declaration) : Prop where
  length : d.specifier.start + 2 ≤ d.specifier.stop
  inText : d.specifier.stop ≤ utf8Length text
  isQuote : isQuote d.specifier.quote = true
  opening : slice? text d.specifier.start (d.specifier.start + 1) = some [d.specifier.quote]
  value : slice? text (d.specifier.start + 1) (d.specifier.stop - 1) =
    some d.specifier.value.toList
  closing : slice? text (d.specifier.stop - 1) d.specifier.stop = some [d.specifier.quote]
  body : IsQuotedBody d.specifier.quote d.specifier.value.toList
  keyword : ∃ front rest, text = front ++ (d.kind.keyword.toList ++ rest) ∧
    offset ≤ utf8Length front ∧
    utf8Length front + utf8Length d.kind.keyword.toList ≤ d.specifier.start ∧
    (∀ c ∈ (Source.body front).getLast?, isWordChar c = false) ∧
    (∀ c ∈ rest.head?, isWordChar c = false) ∧
    d.line.toNat = min (front.count '\n' + 1) (UInt32.size - 1)

/-- The declarations stand one behind the other, the first at `offset` or behind. -/
def PlacedInOrder (text : List Char) : Nat → List Declaration → Prop
  | _, [] => True
  | offset, d :: ds => PlacedIn text offset d ∧ PlacedInOrder text d.specifier.stop ds

theorem quote_size {q : Char} (h : isQuote q = true) : q.utf8Size = 1 := by
  simp only [isQuote, Bool.or_eq_true, beq_iff_eq] at h
  rcases h with rfl | rfl <;> rfl

theorem body_getLast? {front : List Char} {c : Char} (h : c ∈ (body front).getLast?) :
    front.getLast? = some c := by
  obtain ⟨start, hFront⟩ := body_suffix front
  rw [← hFront, List.getLast?_append, h]
  rfl

/-- The keyword of a sound site is a whole word. -/
theorem Site.IsSound.exists_front {text : List Char} {site : Site} (h : site.IsSound text) :
    ∃ front, text = front ++ site.keyword ∧
      ∀ c ∈ (body front).getLast?, isWordChar c = false := by
  rcases h.starts with hBody | ⟨front, hText, hEnd⟩
  · obtain ⟨front, hFront⟩ := body_suffix text
    refine ⟨front, by rw [hBody, hFront], ?_⟩
    have hNone : body front = [] := by
      unfold body at hFront ⊢
      split at hFront
      · cases text with
        | nil => simp_all
        | cons c cs =>
          have hAppend : front ++ cs = [c] ++ cs := by simpa using hFront
          have hMark := List.append_cancel_right hAppend
          simp_all
      · have hNil : front = [] := by simpa using hFront
        rw [hNil]
        rfl
    rw [hNone]
    exact nofun
  · refine ⟨front, hText, ?_⟩
    have hLetter : ∃ c ∈ site.keyword.head?, c.isAlpha = true := by
      have hWord := word_append_afterWord site.keyword
      rw [h.word_eq] at hWord
      rw [← hWord]
      cases site.kind with
      | «import» => exact ⟨'i', rfl, rfl⟩
      | «export» => exact ⟨'e', rfl, rfl⟩
    obtain ⟨c, hHead, hAlpha⟩ := hLetter
    rcases hEnd with hNoLetter | ⟨d, hLast, hNoWord⟩
    · rw [hNoLetter c hHead] at hAlpha
      cases hAlpha
    · intro e hE
      rw [body_getLast? hE] at hLast
      cases hLast
      exact hNoWord

section Literal

variable {text lead : List Char} {q : Quoted}

theorem Quoted.offsets (hQuote : isQuote q.quote = true) (hText : text = lead ++ q.whole) :
    utf8Length (before text q.whole) = utf8Length lead ∧
      utf8Length (before text q.rest) = utf8Length lead + 1 + utf8Length q.body + 1 := by
  rw [hText]
  constructor
  · rw [before_append]
  · rw [Quoted.whole_eq_append, ← List.append_assoc, before_append]
    simp only [utf8Length_append, utf8Length_cons, utf8Length_nil, quote_size hQuote]
    omega

/-- The opening quote, the body and the closing quote of a literal that has `lead` in front. -/
theorem Quoted.slices (hQuote : isQuote q.quote = true) (hText : text = lead ++ q.whole) :
    slice? text (utf8Length lead) (utf8Length lead + 1) = some [q.quote] ∧
      slice? text (utf8Length lead + 1) (utf8Length lead + 1 + utf8Length q.body) = some q.body ∧
      slice? text (utf8Length lead + 1 + utf8Length q.body)
        (utf8Length lead + 1 + utf8Length q.body + 1) = some [q.quote] := by
  have hSize : utf8Length [q.quote] = 1 := by
    rw [utf8Length_cons, utf8Length_nil, quote_size hQuote]
  have hParts : text = lead ++ ([q.quote] ++ (q.body ++ ([q.quote] ++ q.rest))) := by
    rw [hText]
    simp [Quoted.whole]
  refine ⟨?_, ?_, ?_⟩
  · have hSlice := slice?_append lead [q.quote] (q.body ++ ([q.quote] ++ q.rest))
    rwa [← hParts, hSize] at hSlice
  · have hSlice := slice?_append (lead ++ [q.quote]) q.body ([q.quote] ++ q.rest)
    rwa [List.append_assoc, ← hParts, utf8Length_append, hSize] at hSlice
  · have hSlice := slice?_append (lead ++ [q.quote] ++ q.body) [q.quote] q.rest
    rwa [List.append_assoc, List.append_assoc, ← hParts, utf8Length_append, utf8Length_append,
      hSize] at hSlice

end Literal

/-- The word of a sound site ends where its keyword ends. -/
theorem Site.IsSound.keyword_eq {text : List Char} {site : Site} (h : site.IsSound text) :
    site.keyword = site.kind.keyword.toList ++ afterWord site.keyword ∧
      ∀ c ∈ (afterWord site.keyword).head?, isWordChar c = false := by
  refine ⟨by rw [← h.word_eq, word_append_afterWord], fun c hC => ?_⟩
  have hStop := List.head?_dropWhile_not isWordChar site.keyword
  rw [show site.keyword.dropWhile isWordChar = afterWord site.keyword from rfl, hC] at hStop
  simpa using hStop

/-- A sound site gives a declaration whose spans are those of the text. -/
theorem Site.IsSound.placedIn {text : List Char} {site : Site} {offset : Nat}
    (h : site.IsSound text) (hOffset : offset ≤ utf8Length (before text site.keyword)) :
    PlacedIn text offset (site.toDeclaration text) := by
  obtain ⟨front, hText, hLeft⟩ := h.exists_front
  obtain ⟨hKeyword, hRight⟩ := h.keyword_eq
  have hFront : before text site.keyword = front := by rw [hText, before_append]
  rw [hFront] at hOffset
  obtain ⟨hQuote, -⟩ := quoted?_eq_some h.specifier_closed
  obtain ⟨gap, hGap⟩ := h.specifier_suffix
  have hWhole : text = (front ++ site.kind.keyword.toList ++ gap) ++ site.specifier.whole := by
    rw [hText, hKeyword, ← hGap]
    simp only [List.append_assoc]
  obtain ⟨hStart, hStop⟩ := Quoted.offsets hQuote hWhole
  obtain ⟨hOpening, hValue, hClosing⟩ := Quoted.slices hQuote hWhole
  have hInText : utf8Length (before text site.specifier.rest) ≤ utf8Length text := by
    rw [hStop, hWhole, Quoted.whole_eq_append]
    simp only [utf8Length_append, utf8Length_cons, utf8Length_nil, quote_size hQuote]
    omega
  refine ⟨?_, hInText, hQuote, ?_, ?_, ?_, ?_, ?_⟩
  all_goals
    dsimp only [Site.toDeclaration, Quoted.toLiteral]
  · rw [hStart, hStop]
    omega
  · rw [hStart, hOpening]
  · rw [hStart, hStop, String.toList_ofList, Nat.add_sub_cancel, hValue]
  · rw [hStop, Nat.add_sub_cancel, hClosing]
  · rw [String.toList_ofList]
    exact Quoted.isQuotedBody h.specifier_closed
  · refine ⟨front, afterWord site.keyword, ?_, hOffset, ?_, hLeft, hRight, ?_⟩
    · rw [← hKeyword, hText]
    · rw [hStart, utf8Length_append, utf8Length_append]
      omega
    · rw [hFront]
      exact toNat_lineNumber _

theorem placedInOrder_sites {text cs : List Char} {sites : List Site} (hText : cs <:+ text)
    (hOrder : InOrder cs sites) (hSound : ∀ site ∈ sites, site.IsSound text) :
    PlacedInOrder text (utf8Length (before text cs))
      (sites.map fun site => site.toDeclaration text) := by
  induction sites generalizing cs with
  | nil => trivial
  | cons site sites ih =>
    obtain ⟨hKeyword, hWhole, hSites⟩ := hOrder
    rw [List.forall_mem_cons] at hSound
    refine ⟨hSound.1.placedIn ?_, ?_⟩
    · obtain ⟨gap, rfl⟩ := hKeyword
      rw [before_of_append_suffix hText, utf8Length_append]
      exact Nat.le_add_right _ _
    · have hRest := site.specifier.rest_suffix_whole.trans (hWhole.trans (hKeyword.trans hText))
      exact ih hRest hSites hSound.2

theorem PlacedIn.mono {text : List Char} {offset offset' : Nat} {d : Declaration}
    (h : PlacedIn text offset' d) (hOffset : offset ≤ offset') : PlacedIn text offset d := by
  obtain ⟨front, rest, hText, hLe, hRest⟩ := h.keyword
  exact { h with keyword := ⟨front, rest, hText, Nat.le_trans hOffset hLe, hRest⟩ }

theorem PlacedInOrder.forall_mem {text : List Char} {offset : Nat} {ds : List Declaration}
    (h : PlacedInOrder text offset ds) : ∀ d ∈ ds, PlacedIn text offset d := by
  induction ds generalizing offset with
  | nil => exact nofun
  | cons first ds ih =>
    obtain ⟨hFirst, hRest⟩ := h
    intro d hD
    rcases List.mem_cons.mp hD with rfl | hTail
    · exact hFirst
    · obtain ⟨_, _, _, hLe, hKeyword, _⟩ := hFirst.keyword
      have hLength := hFirst.length
      exact (ih hRest d hTail).mono (by omega)

/-- What stands in front of a later place has at least as many line ends. -/
theorem count_le_of_utf8Length_le {text front front' : List Char} (h : front <+: text)
    (h' : front' <+: text) (hLe : utf8Length front ≤ utf8Length front') :
    front.count '\n' ≤ front'.count '\n' :=
  (prefix_of_utf8Length_le h h' hLe).sublist.count_le _

/-- Of two declarations the literal of the first ends in front of the literal of the second, which is
not on an earlier line. -/
theorem PlacedInOrder.pairwise {text : List Char} {offset : Nat} {ds : List Declaration}
    (h : PlacedInOrder text offset ds) :
    ds.Pairwise fun a b => a.specifier.stop ≤ b.specifier.start ∧ a.line ≤ b.line := by
  induction ds generalizing offset with
  | nil => exact List.Pairwise.nil
  | cons first ds ih =>
    obtain ⟨hFirst, hRest⟩ := h
    refine List.Pairwise.cons ?_ (ih hRest)
    intro d hD
    obtain ⟨front, _, hText, -, hKeyword, -, -, hLine⟩ := hFirst.keyword
    obtain ⟨front', _, hText', hBehind, hKeyword', -, -, hLine'⟩ := (hRest.forall_mem d hD).keyword
    have hLength := hFirst.length
    refine ⟨by omega, ?_⟩
    have hCount := count_le_of_utf8Length_le ⟨_, hText.symm⟩ ⟨_, hText'.symm⟩ (by omega)
    rw [UInt32.le_iff_toNat_le, hLine, hLine', Nat.le_min]
    exact ⟨Nat.le_trans (Nat.min_le_left _ _) (Nat.succ_le_succ hCount), Nat.min_le_right _ _⟩

/-- The declarations of any text are placed in it in order. -/
theorem declarations_placedInOrder (text : String) :
    PlacedInOrder text.toList 0 (declarations text) := by
  have hPlaced := placedInOrder_sites (List.suffix_refl text.toList) (sites_inOrder text.toList)
    (sites_sound text.toList)
  rw [before_self, utf8Length_nil] at hPlaced
  rw [declarations_eq_map]
  exact hPlaced

end ExplicitModules.Source
