import ExplicitModules.Proofs.Source.Rescan
import ExplicitModules.Proofs.Source.Splicing

/-!
# Edited texts as marked texts

Edits that put something in at the closing quotes of a text, and leave the rest of its literals, give
the text with these quotes marked. So its declarations are found again in the edited text.
-/
namespace ExplicitModules.Source
set_option autoImplicit false
open Text

/-- The text written for `q`, if any, differs from the literal by the mark. -/
def Mark.Writes (m : Mark) (q : Quoted) : Option String → Prop
  | none => m = .kept
  | some written =>
    written.toList = q.quote :: ((q.body ++ m.front) ++ q.quote :: m.behind q.quote)

section Text

variable {text : List Char} {f : Site → Mark} {g : Declaration → Option String}

theorem splice_sites {cs : List Char} {sites : List Site} (hText : cs <:+ text)
    (hWithin : Within cs sites)
    (hMarks : ∀ site ∈ sites, (f site).Writes site.specifier (g (site.toDeclaration text))) :
    splice (utf8Length (before text cs)) cs
      (editsBy g (sites.map fun site => site.toDeclaration text)) =
        some (woven (weave f cs sites)) := by
  induction sites generalizing cs with
  | nil =>
    rw [weave, woven_map_bare]
    rfl
  | cons site sites ih =>
    rw [List.forall_mem_cons] at hMarks
    obtain ⟨⟨gap, rfl⟩, hRest⟩ := hWithin
    have hBehind := site.specifier.rest_suffix_whole.trans ((List.suffix_append gap _).trans hText)
    have hLater := ih hBehind hRest hMarks.2
    have hLiteral := site.specifier.whole_eq_append
    have hStart := before_of_append_suffix hText
    have hStop := before_of_append_suffix
      (hLiteral ▸ (List.suffix_append gap site.specifier.whole).trans hText)
    rw [← hLiteral] at hStop
    have hWhole : woven (weave f (gap ++ site.specifier.whole) (site :: sites)) =
        gap ++ (site.specifier.quote :: ((site.specifier.body ++ (f site).front) ++
          site.specifier.quote :: (f site).behind site.specifier.quote) ++
            woven (weave f site.specifier.rest sites)) := by
      rw [weave_append f gap hRest.whole, weave_whole, woven_append, woven_map_bare, woven_bare,
        woven_append, woven_map_bare, Mark.woven_inset]
      simp only [List.append_assoc, List.cons_append]
    have hOpening : (site.toDeclaration text).specifier.start =
        utf8Length (before text site.specifier.whole) := rfl
    have hClosing : (site.toDeclaration text).specifier.stop =
        utf8Length (before text site.specifier.rest) := rfl
    rw [List.map_cons, editsBy_cons, hWhole]
    cases hWritten : g (site.toDeclaration text) with
    | none =>
      rw [hWritten] at hMarks
      have hKept : f site = .kept := hMarks.1
      have hOffset : utf8Length (before text site.specifier.rest) =
          utf8Length (before text (gap ++ site.specifier.whole)) + utf8Length (gap ++
            (site.specifier.quote :: (site.specifier.body ++ [site.specifier.quote]))) := by
        rw [hStop, hStart, List.append_assoc, utf8Length_append]
      rw [hOffset] at hLater
      have hSplice := splice_append _ hLater
      rw [List.append_assoc, ← hLiteral] at hSplice
      have hFront : (f site).front = [] := hKept ▸ rfl
      have hBehindQuote : (f site).behind site.specifier.quote = [] := hKept ▸ rfl
      rw [hFront, hBehindQuote, List.append_nil]
      rw [List.append_assoc] at hSplice
      exact hSplice
    | some written =>
      rw [hWritten] at hMarks
      have hChars : written.toList = _ := hMarks.1
      rw [← hChars]
      refine splice_cons_eq_some_iff.mpr ⟨gap, site.specifier.quote :: (site.specifier.body ++
        [site.specifier.quote]), site.specifier.rest, _, ?_, ?_, ?_, hLater, rfl⟩
      · rw [← hLiteral]
      · rw [hOpening, hStart, utf8Length_append]
      · rw [hOpening, hClosing, hStop, utf8Length_append]

/-- Texts that are written for declarations put marks in at their sites. -/
theorem splice_declarations {text : String} (hMarks : ∀ site ∈ sites text.toList,
      (f site).Writes site.specifier (g (site.toDeclaration text.toList))) :
    splice 0 text.toList (editsBy g (declarations text)) =
      some (woven (weave f text.toList (sites text.toList))) := by
  have hWithin := (sites_inOrder text.toList).within
  have hSplice := splice_sites (List.suffix_refl text.toList) hWithin hMarks
  rwa [before_self, utf8Length_nil, ← declarations_eq_map] at hSplice

theorem body_weave {sites : List Site} (h : Within (body text) sites) :
    body (woven (weave f text sites)) = woven (weave f (body text) sites) := by
  by_cases hMark : text.head? = some '\uFEFF'
  · obtain ⟨cs, rfl⟩ := List.head?_eq_some_iff.mp hMark
    have hBody : body ('\uFEFF' :: cs) = cs := rfl
    rw [hBody] at h ⊢
    have hWeave : weave f ('\uFEFF' :: cs) sites = bare '\uFEFF' :: weave f cs sites :=
      weave_append f ['\uFEFF'] h
    rw [hWeave]
    rfl
  · have hBody : body text = text := by rw [body, if_neg hMark]
    rw [hBody] at h ⊢
    rw [body, if_neg]
    rwa [head?_weave f h]

/-- An edited text holds the same declarations, each with what has been put in at its specifier. -/
theorem sites_weave (hSuits : ∀ site ∈ sites text, (f site).Suits site) :
    List.Forall₂ (Site.FoundAgain f) (sites text) (sites (woven (weave f text (sites text)))) := by
  have hClosed : ∀ site ∈ sites text, quoted? site.specifier.whole = some site.specifier :=
    fun site hSite => (sites_sound text site hSite).specifier_closed
  have hWithin : Within (body text) (sites text) := (sitesFrom_inOrder .start (body text)).within
  have hBody := body_weave (f := f) hWithin
  unfold sites at hBody ⊢
  rw [hBody]
  exact sitesFrom_weave hClosed hSuits

end Text

end ExplicitModules.Source
