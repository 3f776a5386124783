import ExplicitModules.Proofs.Source.MarkedText

/-!
# Edited sources

A well-formed source stays one when its specifiers are edited, and its declarations are found again
whatever is put in: the items are read one by one, and nothing looks beyond a semicolon.
-/
namespace ExplicitModules.Source
set_option autoImplicit false

def Gap.blank : Gap :=
  ⟨' ', rfl, []⟩

def jsonBlock {q : Char} (h : isQuote q = true) : Braces where
  pieces := [.char ' ' rfl, .char 't' rfl, .char 'y' rfl, .char 'p' rfl, .char 'e' rfl,
    .char ':' rfl, .char ' ' rfl, .string ⟨q, "json".toList, h, isQuotedBody_json h⟩, .char ' ' rfl]

theorem jsonClause_eq {q : Char} (h : isQuote q = true) (rest : List Char) :
    jsonClause q ++ rest = gapChars (some .blank) ++ (Word.ofWith.chars ++
      (gapChars (some .blank) ++ ((jsonBlock h).chars ++ rest))) := by
  rw [jsonClause_append]
  rfl

namespace DeclarationItem

theorem exists_marked (d : DeclarationItem) {m : Mark}
    (hFront : IsQuotedBody d.specifier.quote m.front)
    (hClause : m = .clause → d.attributes = none) :
    ∃ e : DeclarationItem, e.form = d.form ∧ e.specifier.quote = d.specifier.quote ∧
      e.specifier.body = d.specifier.body ++ m.front ∧
      e.attributes.isSome = (d.attributes.isSome || decide (m = .clause)) ∧
      ∀ rest, (Item.declaration e).spaced.chars ++ rest =
        d.front.chars ++ (d.specifier.quote :: ((d.specifier.body ++ m.front) ++
          d.specifier.quote :: (m.behind d.specifier.quote ++ d.behind rest))) := by
  let specifier : StringToken := ⟨d.specifier.quote, d.specifier.body ++ m.front,
    d.specifier.quote_isQuote, d.specifier.closed.append hFront⟩
  have hLegible := Spaced.legible_append.mp d.legible
  by_cases hMark : m = .clause
  · subst hMark
    have hNone := hClause rfl
    have hTokens := d.back_tokens
    rw [hNone] at hTokens
    have hBack := Spaced.eq_nil_of_tokens_eq_nil hTokens
    let block := jsonBlock d.specifier.quote_isQuote
    let e : DeclarationItem := {
      form := d.form
      specifier
      attributes := some (.withBlock block)
      front := d.front
      gap := some .blank
      back := [(.word .ofWith, some .blank), (.braces block, d.gap)]
      front_tokens := d.front_tokens
      back_tokens := rfl
      legible := Spaced.legible_append.mpr ⟨hLegible.1, nofun, nofun, fun _ => rfl, trivial⟩ }
    refine ⟨e, rfl, rfl, rfl, by simp [e], ?_⟩
    intro rest
    have hBehind : e.behind rest = jsonClause d.specifier.quote ++ d.behind rest := by
      rw [jsonClause_eq d.specifier.quote_isQuote]
      unfold behind
      rw [hBack]
      simp [e, Spaced.chars, Token.chars, block]
    rw [e.chars_eq, hBehind]
    simp [e, specifier, StringToken.chars, Mark.behind]
  · let e : DeclarationItem := {
      d with
      specifier
      legible := Spaced.legible_append.mpr ⟨hLegible.1, fun _ => rfl, hLegible.2.2⟩ }
    refine ⟨e, rfl, rfl, rfl, by simp [e, hMark], ?_⟩
    intro rest
    have hNone : m.behind d.specifier.quote = [] := by
      cases m with
      | clause => exact absurd rfl hMark
      | _ => rfl
    have hBehind : e.behind rest = d.behind rest := rfl
    rw [e.chars_eq, hNone, List.nil_append, hBehind]
    simp [e, specifier, StringToken.chars]

end DeclarationItem

theorem DeclarationItem.behind_append (d : DeclarationItem) (cs rest : List Char) :
    d.behind (cs ++ rest) = d.behind cs ++ rest := by
  simp [behind]

section Items

variable {f : Site → Mark}

theorem woven_declaration (d : DeclarationItem) {site : Site} {cs rest : List Char}
    {later : List Site} (hSite : site.specifier = ⟨d.specifier.quote, d.specifier.body,
      d.behind (cs ++ rest)⟩) (hLater : Within rest later) :
    woven (weave f ((Item.declaration d).spaced.chars ++ (cs ++ rest)) (site :: later)) =
      d.front.chars ++ (d.specifier.quote :: ((d.specifier.body ++ (f site).front) ++
        d.specifier.quote :: ((f site).behind d.specifier.quote ++
          d.behind (cs ++ woven (weave f rest later))))) := by
  have hBehind : Within site.specifier.rest later := by
    rw [hSite, d.behind_append]
    exact hLater.of_suffix (List.suffix_append _ _)
  have hWhole : d.specifier.chars ++ d.behind (cs ++ rest) = site.specifier.whole := by
    rw [hSite, Quoted.whole_eq_append]
    rfl
  rw [d.chars_eq, hWhole, weave_append f _ hBehind.whole, weave_whole, woven_append,
    woven_map_bare, woven_bare, woven_append, woven_map_bare, Mark.woven_inset, hSite]
  dsimp only
  rw [d.behind_append, weave_append f _ hLater, woven_append, woven_map_bare, d.behind_append]
  simp only [List.append_assoc]

theorem sitesFrom_marked_items {last : Last} (hLast : last = .start ∨ last = .punctuation ';')
    (items : Items)
    (hAllowed : ∀ site ∈ sitesFrom last items.chars, (f site).Allowed site) :
    (sitesFrom last (woven (weave f items.chars (sitesFrom last items.chars)))).map Site.content =
      (sitesFrom last items.chars).map fun site => (f site).content site := by
  induction items generalizing last with
  | nil =>
    have hNone : sitesFrom last (Items.chars []) = [] := by
      rw [Items.chars, List.flatMap_nil, sitesFrom]
    rw [hNone, Items.chars, List.flatMap_nil, weave, List.map_nil, woven_nil, sitesFrom]
    rfl
  | cons i items ih =>
    obtain ⟨item, gap⟩ := i
    have hLater := (sitesFrom_inOrder (.punctuation ';') (Items.chars items)).within
    have hGap : ∀ cs, sitesFrom (.punctuation ';') (gapChars gap ++ cs) =
        sitesFrom (.punctuation ';') cs := (sitesFrom_skips _).gap gap
    rw [Items.chars_cons] at hAllowed ⊢
    cases item with
    | statement s =>
      have hPlaced : Placed last s.spaced.tokens := by
        rcases hLast with rfl | rfl
        · exact s.placed.of_semicolon
        · exact s.placed
      have hSites : ∀ rest, sitesFrom last ((Item.statement s).spaced.chars ++
          ';' :: (gapChars gap ++ rest)) = sitesFrom (.punctuation ';') rest :=
        fun rest => (sitesFrom_statement hPlaced s.legible _).trans (hGap rest)
      have hWeave := weave_append f ((Item.statement s).spaced.chars ++ ';' :: gapChars gap) hLater
      rw [List.append_assoc, List.cons_append] at hWeave
      rw [hSites] at hAllowed ⊢
      rw [hWeave, woven_append, woven_map_bare, List.append_assoc, List.cons_append, hSites]
      exact ih (Or.inr rfl) hAllowed
    | declaration d =>
      have hNoMember : last ≠ .punctuation '.' := by
        rcases hLast with rfl | rfl <;> decide
      have hSites : ∀ (e : DeclarationItem) rest,
          sitesFrom last ((Item.declaration e).spaced.chars ++ ((';' :: gapChars gap) ++ rest)) =
            ⟨e.form.kind, (Item.declaration e).spaced.chars ++ ((';' :: gapChars gap) ++ rest),
              ⟨e.specifier.quote, e.specifier.body, e.behind ((';' :: gapChars gap) ++ rest)⟩,
              e.attributes.isSome⟩ :: sitesFrom (.punctuation ';') rest := by
        intro e rest
        rw [← hGap rest]
        exact sitesFrom_declaration hNoMember e (gapChars gap ++ rest)
      rw [← List.cons_append] at hAllowed ⊢
      rw [hSites, List.forall_mem_cons] at hAllowed
      obtain ⟨hHere, hTail⟩ := hAllowed
      have hAttributes : d.attributes.isSome = false → d.attributes = none := by simp
      obtain ⟨e, hForm, hQuote, hBody, hSome, hChars⟩ :=
        d.exists_marked (hHere.isQuotedBody_front d.specifier.quote_isQuote) fun hMark =>
          hAttributes (hHere.of_clause hMark)
      rw [hSites, woven_declaration d rfl hLater]
      rw [← hChars, hSites, List.map_cons, List.map_cons, ih (Or.inr rfl) hTail]
      simp only [Site.content, Mark.content, hForm, hQuote, hBody, hSome]

/-- An edited source holds the same declarations, each with what has been put in. -/
theorem sites_weave_source (s : SourceText)
    (hAllowed : ∀ site ∈ sites s.chars, (f site).Allowed site) :
    (sites (woven (weave f s.chars (sites s.chars)))).map Site.content =
      (sites s.chars).map fun site => (f site).content site := by
  have hItems := (sitesFrom_inOrder .start s.items.chars).within
  have hWithin : Within (body s.chars) (sites s.chars) := (sitesFrom_inOrder .start _).within
  rw [s.sites_chars] at hAllowed hWithin ⊢
  rw [sites, body_weave hWithin, s.body_chars, weave_append f _ hItems, woven_append, woven_map_bare,
    (sitesFrom_skips _).gap]
  exact sitesFrom_marked_items (Or.inl rfl) s.items hAllowed

end Items

end ExplicitModules.Source
