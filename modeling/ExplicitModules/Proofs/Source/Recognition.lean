import ExplicitModules.Proofs.Source.Clause
import ExplicitModules.Proofs.Source.Layout

/-!
# Well-formed sources are recognised

The pass over a text goes through the tokens of a statement without finding anything, and finds the
one declaration of each declaration item. So the declarations of a well-formed source are exactly the
ones it was written with.
-/
namespace ExplicitModules.Source
set_option autoImplicit false
open Text

theorem sitesFrom_cons (last : Last) (c : Char) (cs : List Char) :
    sitesFrom last (c :: cs) =
      (step last c cs).site.toList ++ sitesFrom (step last c cs).last (step last c cs).rest := by
  rw [sitesFrom]

theorem sitesFrom_skips (last : Last) : SkipsTrivia (sitesFrom last) where
  space c cs hSpace := by
    have hStep : step last c cs = ⟨none, last, cs⟩ := by
      simp only [isSpace, Bool.or_eq_true, beq_iff_eq] at hSpace
      rcases hSpace with (((rfl | rfl) | rfl) | rfl) | rfl <;> rfl
    rw [sitesFrom_cons, hStep]
    rfl
  comment cs rest hComment := by
    cases cs with
    | nil => cases hComment
    | cons c cs =>
      have hStep : step last c cs = ⟨none, last, rest⟩ := by rw [step, hComment]
      rw [sitesFrom_cons, hStep]
      rfl

theorem sitesFrom_of_step {last last' : Last} {c : Char} {cs rest : List Char}
    (h : step last c cs = ⟨none, last', rest⟩) :
    sitesFrom last (c :: cs) = sitesFrom last' rest := by
  rw [sitesFrom_cons, h]
  rfl

theorem step_punctuation {c : Char} (h : isPunctuation c = true) (last : Last) (cs : List Char) :
    step last c cs = ⟨none, .punctuation c, cs⟩ := by
  simp only [isPunctuation, Bool.and_eq_true, Bool.not_eq_true', bne_iff_ne, ne_eq] at h
  obtain ⟨⟨⟨⟨hWord, hSpace⟩, hQuote⟩, hTick⟩, hSlash⟩ := h
  rw [step, afterComment?_of_ne hSlash]
  simp [hWord, hSpace, hQuote, hTick, hSlash]

theorem sitesFrom_punctuation (c : Char) {cs : List Char}
    (h : ∀ d ∈ cs, isPunctuation d = true) (rest : List Char) :
    sitesFrom (.punctuation c) (cs ++ rest) =
      sitesFrom (.punctuation (cs.getLast?.getD c)) rest := by
  induction cs generalizing c with
  | nil => rfl
  | cons d cs ih =>
    rw [List.forall_mem_cons] at h
    rw [List.cons_append, sitesFrom_of_step (step_punctuation h.1 _ _), ih d h.2,
      List.getLast?_cons]
    rfl

theorem step_word {c : Char} (h : isWordChar c = true) (last : Last) (cs : List Char) :
    step last c cs = wordStep last (c :: cs) := by
  obtain ⟨-, hQuote, hSlash, hTick, -⟩ := isWordChar_spec h
  have hNoRegex : ¬(c = '/' ∧ last.allowsRegex = true) := fun hBoth => hSlash hBoth.1
  rw [step, afterComment?_of_ne hSlash]
  dsimp only
  rw [if_neg hNoRegex, hQuote, if_neg Bool.false_ne_true, if_neg hTick, if_pos h]

theorem sitesFrom_token {last : Last} {t : Token} {rest : List Char} (hFits : t.Fits last)
    (hEnd : ∀ c ∈ rest.head?, t.endsBefore c = true) :
    sitesFrom last (t.chars ++ rest) = sitesFrom t.last rest := by
  cases t with
  | word w =>
    obtain ⟨c, cs, hChars, hWord⟩ := w.exists_cons
    have hStop : ∀ c ∈ rest.head?, isWordChar c = false := by
      intro d hD
      simpa [Token.endsBefore] using hEnd d hD
    have hRead := word_append w.all_word hStop
    have hBehind := afterWord_append w.all_word hStop
    simp only [Token.chars, Token.last]
    simp only [hChars, List.cons_append] at hRead hBehind ⊢
    apply sitesFrom_of_step
    rw [step_word hWord, wordStep, hRead, hBehind]
    split
    · rfl
    · rename_i hMember
      have hOther : c :: cs ≠ "import".toList ∧ c :: cs ≠ "export".toList := by
        rw [← hChars]
        exact hFits.resolve_right hMember
      rw [specifier?, if_neg hOther.1, if_neg hOther.2]
  | string s =>
    obtain ⟨-, -, hSlash, -⟩ := isQuote_spec s.quote_isQuote
    simp only [Token.chars, Token.last, s.chars_append]
    apply sitesFrom_of_step
    rw [step, afterComment?_of_ne hSlash]
    simp [hSlash, s.quote_isQuote, readQuoted_body]
  | template body hBody =>
    simp only [Token.chars, Token.last, List.cons_append, List.append_assoc, List.nil_append]
    apply sitesFrom_of_step
    rw [step, afterComment?_of_ne (by decide)]
    simp [isQuote, afterOpen_template hBody]
  | regex body flags hBody hFlags =>
    simp only [isRegexBody, Bool.and_eq_true, bne_iff_ne, ne_eq] at hBody
    obtain ⟨⟨hNe, hStar⟩, hTail⟩ := hBody
    have hStop : ∀ c ∈ rest.head?, c.isAlpha = false := by
      intro d hD
      simpa [Token.endsBefore] using hEnd d hD
    have hHead : (body ++ '/' :: (flags ++ rest)).head? = body.head? := by
      cases body with
      | nil => exact absurd rfl hNe
      | cons d body => rfl
    have hSlash : body.head? ≠ some '/' := by
      intro hSlash
      cases body with
      | nil => cases hSlash
      | cons d body =>
        cases hSlash
        simp [isRegexTail] at hTail
    simp only [Token.chars, Token.last, List.cons_append, List.append_assoc]
    apply sitesFrom_of_step
    rw [step, afterComment?_of_next (hHead ▸ hSlash) (hHead ▸ hStar)]
    dsimp only
    rw [if_pos ⟨rfl, hFits⟩, afterRegex_append hTail hFlags hStop]
  | division tail hTail hStar =>
    have hHead : (tail ++ rest).head? ≠ some '/' ∧ (tail ++ rest).head? ≠ some '*' := by
      cases tail with
      | nil =>
        cases rest with
        | nil => simp
        | cons c rest => simpa [Token.endsBefore] using hEnd c rfl
      | cons d tail =>
        refine ⟨?_, hStar⟩
        intro hSlash
        cases hSlash
        exact absurd (hTail '/' List.mem_cons_self) (by decide)
    simp only [Token.chars, Token.last, List.cons_append]
    rw [← sitesFrom_punctuation '/' hTail rest]
    apply sitesFrom_of_step
    rw [step, afterComment?_of_next hHead.1 hHead.2]
    have hDivides : last.allowsRegex = false := hFits
    simp [hDivides, isQuote, isWordChar, isSpace]
  | punctuation c tail hTail =>
    rw [List.forall_mem_cons] at hTail
    simp only [Token.chars, Token.last, List.cons_append]
    rw [← sitesFrom_punctuation c hTail.2 rest]
    exact sitesFrom_of_step (step_punctuation hTail.1 _ _)
  | braces b => exact hFits.elim

theorem sitesFrom_statement {last : Last} {ts : Spaced} (hPlaced : Placed last ts.tokens)
    (hLegible : ts.Legible ';') (rest : List Char) :
    sitesFrom last (ts.chars ++ ';' :: rest) = sitesFrom (.punctuation ';') rest := by
  induction ts generalizing last with
  | nil => exact sitesFrom_of_step (step_punctuation (by decide) last rest)
  | cons t ts ih =>
    obtain ⟨t, gap⟩ := t
    obtain ⟨hFits, hRest⟩ := hPlaced
    rw [Spaced.chars_cons, sitesFrom_token hFits (hLegible.endsBefore rfl),
      (sitesFrom_skips _).gap, ih hRest hLegible.2]

/-- The start of a text counts as the start of a statement. -/
theorem Placed.of_semicolon {ts : List Token} (h : Placed (.punctuation ';') ts) :
    Placed .start ts := by
  cases ts with
  | nil => trivial
  | cons t ts =>
    obtain ⟨hFits, hRest⟩ := h
    refine ⟨?_, hRest⟩
    cases t with
    | word w => exact Or.inl (hFits.resolve_right (by decide))
    | division tail hTail hStar => cases hFits
    | braces b => exact hFits
    | _ => trivial

theorem typeTokens_inClause (isType : Bool) : ∀ t ∈ Form.typeTokens isType, t.InClause := by
  cases isType <;> simp [Form.typeTokens, Token.InClause]

theorem ImportClause.inClause (clause : ImportClause) : ∀ t ∈ clause.tokens, t.InClause := by
  cases clause <;> simp [tokens, Token.InClause, Token.star, Token.comma]

/-- The first word of a declaration introduces it. -/
theorem specifier?_form (form : Form) {front : Spaced} (hTokens : front.tokens = form.tokens)
    (s : StringToken) (hLegible : front.Legible s.quote) (rest : List Char) :
    ∃ w gap us, front = (.word w, gap) :: us ∧
      specifier? w.chars (gapChars gap ++ (Spaced.chars us ++ (s.chars ++ rest))) =
        some (form.kind, ⟨s.quote, s.body, rest⟩) := by
  cases form with
  | bare =>
    obtain ⟨gap, us, rfl, hUs⟩ := Spaced.exists_of_tokens_eq_cons hTokens
    obtain rfl := Spaced.eq_nil_of_tokens_eq_nil hUs
    refine ⟨.ofImport, gap, [], rfl, ?_⟩
    have hSpecifier := importSpecifier?_string s rest
    rw [specifier?, if_pos Word.chars_ofImport, importSpecifier?_skips.gap]
    exact congrArg (Option.map fun q => (DeclarationKind.import, q)) hSpecifier
  | importing isType clause =>
    obtain ⟨gap, us, rfl, hUs⟩ := Spaced.exists_of_tokens_eq_cons hTokens
    have hClause : ∀ t ∈ Form.typeTokens isType ++ clause.tokens, t.InClause :=
      List.forall_mem_append.mpr ⟨typeTokens_inClause isType, clause.inClause⟩
    refine ⟨.ofImport, gap, us, rfl, ?_⟩
    rw [specifier?, if_pos Word.chars_ofImport, importSpecifier?_skips.gap,
      importSpecifier?_clause hClause hUs s hLegible.2]
    rfl
  | exporting isType clause =>
    obtain ⟨gap, us, rfl, hUs⟩ := Spaced.exists_of_tokens_eq_cons hTokens
    refine ⟨.ofExport, gap, us, rfl, ?_⟩
    rw [specifier?, if_neg (by decide), if_pos Word.chars_ofExport, exportSpecifier?_skips.gap]
    cases isType with
    | false =>
      rw [exportSpecifier?_clause clause hUs s hLegible.2]
      rfl
    | true =>
      obtain ⟨gap', vs, rfl, hVs⟩ := Spaced.exists_of_tokens_eq_cons hUs
      rw [exportSpecifier?_type clause hVs s hLegible.2]
      rfl

/-- Behind the specifier an attribute clause is found if there is one. -/
theorem afterAttributes?_item (d : DeclarationItem) (rest : List Char) :
    ∃ gap : Option Gap,
      afterAttributes? (gapChars d.gap ++ (d.back.chars ++ ';' :: rest)) =
        if d.attributes.isSome then some (gapChars gap ++ ';' :: rest) else none := by
  have hBack := (Spaced.legible_append.mp d.legible).2.2
  have hTokens := d.back_tokens
  rw [afterAttributes?_skips.gap]
  cases hAttributes : d.attributes with
  | none =>
    rw [hAttributes] at hTokens
    refine ⟨none, ?_⟩
    rw [Spaced.eq_nil_of_tokens_eq_nil hTokens]
    exact afterAttributes?_semicolon rest
  | some clause =>
    rw [hAttributes] at hTokens
    have hClause : ∃ w b, (w = .ofWith ∨ w = .ofAssert) ∧
        d.back.tokens = [.word w, .braces b] := by
      cases clause with
      | withBlock b => exact ⟨.ofWith, b, Or.inl rfl, hTokens⟩
      | assertBlock b => exact ⟨.ofAssert, b, Or.inr rfl, hTokens⟩
    obtain ⟨w, b, hWord, hPair⟩ := hClause
    obtain ⟨gap, us, hUs, hRest⟩ := Spaced.exists_of_tokens_eq_cons hPair
    obtain ⟨gap', vs, rfl, hNil⟩ := Spaced.exists_of_tokens_eq_cons hRest
    obtain rfl := Spaced.eq_nil_of_tokens_eq_nil hNil
    rw [hUs] at hBack ⊢
    exact ⟨gap', afterAttributes?_clause hWord hBack rfl⟩

def DeclarationItem.behind (d : DeclarationItem) (rest : List Char) : List Char :=
  gapChars d.gap ++ (d.back.chars ++ rest)

theorem DeclarationItem.chars_eq (d : DeclarationItem) (rest : List Char) :
    (Item.declaration d).spaced.chars ++ rest =
      d.front.chars ++ (d.specifier.chars ++ d.behind rest) := by
  rw [Item.spaced, Spaced.chars_append, List.append_assoc, Spaced.chars_cons]
  rfl

/-- A declaration item is found, and nothing else up to the semicolon behind it. -/
theorem sitesFrom_declaration {last : Last} (hLast : last ≠ .punctuation '.') (d : DeclarationItem)
    (rest : List Char) :
    sitesFrom last ((Item.declaration d).spaced.chars ++ ';' :: rest) =
      ⟨d.form.kind, (Item.declaration d).spaced.chars ++ ';' :: rest,
        ⟨d.specifier.quote, d.specifier.body, d.behind (';' :: rest)⟩, d.attributes.isSome⟩ ::
        sitesFrom (.punctuation ';') rest := by
  have hFront : d.front.Legible d.specifier.quote := (Spaced.legible_append.mp d.legible).1
  obtain ⟨w, gap, us, hUs, hSpecifier⟩ :=
    specifier?_form d.form d.front_tokens d.specifier hFront (d.behind (';' :: rest))
  obtain ⟨gapEnd, hAttributes⟩ := afterAttributes?_item d rest
  obtain ⟨c, cs, hChars, hWord⟩ := w.exists_cons
  have hSemicolon : ∀ g : Option Gap, sitesFrom (.punctuation ';') (gapChars g ++ ';' :: rest) =
      sitesFrom (.punctuation ';') rest := by
    intro g
    rw [(sitesFrom_skips _).gap, sitesFrom_of_step (step_punctuation (by decide) _ rest)]
  have hText := d.chars_eq (';' :: rest)
  rw [hUs] at hFront hText
  have hRead := hFront.word_eq (d.specifier.chars ++ d.behind (';' :: rest)) rfl
  have hBehind := hFront.afterWord_eq (d.specifier.chars ++ d.behind (';' :: rest)) rfl
  rw [Spaced.chars_cons, Token.chars] at hText
  rw [hText]
  rw [hChars] at hSpecifier
  rw [hChars, List.cons_append] at hRead hBehind ⊢
  rw [sitesFrom_cons, step_word hWord, wordStep, if_neg hLast, hRead, hBehind, hSpecifier]
  dsimp only [DeclarationItem.behind] at hAttributes ⊢
  cases hSome : d.attributes with
  | none =>
    rw [hSome] at hAttributes
    have hBack := d.back_tokens
    rw [hSome] at hBack
    rw [hAttributes, Spaced.eq_nil_of_tokens_eq_nil hBack]
    exact congrArg _ (hSemicolon d.gap)
  | some clause =>
    rw [hSome] at hAttributes
    rw [hAttributes]
    exact congrArg _ (hSemicolon gapEnd)

theorem toDeclaration_item (d : DeclarationItem) (soFar rest : List Char) :
    some (Site.toDeclaration (soFar ++ ((Item.declaration d).spaced.chars ++ rest))
      ⟨d.form.kind, (Item.declaration d).spaced.chars ++ rest,
        ⟨d.specifier.quote, d.specifier.body, d.behind rest⟩, d.attributes.isSome⟩) =
      (Item.declaration d).declaration? soFar := by
  have hWhole : Quoted.whole ⟨d.specifier.quote, d.specifier.body, d.behind rest⟩ =
      d.specifier.chars ++ d.behind rest :=
    Quoted.whole_eq_append _
  have hStart : before (soFar ++ ((Item.declaration d).spaced.chars ++ rest))
      (d.specifier.chars ++ d.behind rest) = soFar ++ d.front.chars := by
    rw [d.chars_eq, ← List.append_assoc, before_append]
  have hStop : before (soFar ++ ((Item.declaration d).spaced.chars ++ rest)) (d.behind rest) =
      soFar ++ d.front.chars ++ d.specifier.chars := by
    rw [d.chars_eq, ← List.append_assoc, ← List.append_assoc, before_append]
  simp only [Site.toDeclaration, Quoted.toLiteral, Item.declaration?, before_append, hWhole, hStart,
    hStop, utf8Length_append]

theorem Items.chars_cons (item : Item) (gap : Option Gap) (items : Items) :
    Items.chars ((item, gap) :: items) =
      item.spaced.chars ++ ';' :: (gapChars gap ++ Items.chars items) := by
  simp [Items.chars]

/-- The pass over a text that begins with `items` finds their declarations, and then goes on as at
the start of a statement. -/
theorem sitesFrom_items_append {last : Last} (hLast : last = .start ∨ last = .punctuation ';')
    (items : Items) (soFar rest : List Char) :
    ∃ behind, (behind = .start ∨ behind = .punctuation ';') ∧
      (sitesFrom last (items.chars ++ rest)).map
          (fun site => site.toDeclaration (soFar ++ (items.chars ++ rest))) =
        items.declarations soFar ++ (sitesFrom behind rest).map
          (fun site => site.toDeclaration (soFar ++ (items.chars ++ rest))) := by
  -- every item ends in a semicolon, behind which a statement can start again
  induction items generalizing last soFar with
  | nil => exact ⟨last, hLast, rfl⟩
  | cons i items ih =>
    obtain ⟨item, gap⟩ := i
    obtain ⟨behind, hBehind, hLater⟩ :=
      ih (Or.inr rfl) (soFar ++ (item.spaced.chars ++ ';' :: gapChars gap))
    have hText : soFar ++ (item.spaced.chars ++ ';' :: gapChars gap) ++
        (Items.chars items ++ rest) = soFar ++ (Items.chars ((item, gap) :: items) ++ rest) := by
      rw [Items.chars_cons]
      simp
    have hChars : Items.chars ((item, gap) :: items) ++ rest =
        item.spaced.chars ++ ';' :: (gapChars gap ++ (Items.chars items ++ rest)) := by
      rw [Items.chars_cons]
      simp
    rw [hText] at hLater
    refine ⟨behind, hBehind, ?_⟩
    rw [Items.declarations, List.append_assoc, ← hLater, hChars]
    cases item with
    | statement s =>
      have hPlaced : Placed last s.spaced.tokens := by
        rcases hLast with rfl | rfl
        · exact s.placed.of_semicolon
        · exact s.placed
      have hSites := sitesFrom_statement hPlaced s.legible
        (gapChars gap ++ (Items.chars items ++ rest))
      rw [(sitesFrom_skips _).gap] at hSites
      exact congrArg _ hSites
    | declaration d =>
      have hNoMember : last ≠ .punctuation '.' := by
        rcases hLast with rfl | rfl <;> decide
      rw [sitesFrom_declaration hNoMember d, (sitesFrom_skips _).gap, List.map_cons,
        ← toDeclaration_item d soFar]
      rfl

theorem sitesFrom_items {last : Last} (hLast : last = .start ∨ last = .punctuation ';')
    (items : Items) (soFar : List Char) :
    (sitesFrom last items.chars).map (fun site => site.toDeclaration (soFar ++ items.chars)) =
      items.declarations soFar := by
  obtain ⟨behind, -, hSites⟩ := sitesFrom_items_append hLast items soFar []
  simpa [sitesFrom] using hSites

/-- Only a byte order mark at the very start is passed over in front of everything. -/
theorem SourceText.body_append (s : SourceText) {rest : List Char}
    (hMark : rest.head? ≠ some '\uFEFF') :
    body (s.chars ++ rest) = gapChars s.gap ++ (s.items.chars ++ rest) := by
  rw [chars, front, List.append_assoc, List.append_assoc]
  cases hHas : s.hasMark with
  | true => rfl
  | false =>
    have hHead : (gapChars s.gap ++ (s.items.chars ++ rest)).head? ≠ some '\uFEFF' := by
      intro hHead
      rw [← List.append_assoc, List.head?_append] at hHead
      cases hFirst : (gapChars s.gap ++ s.items.chars).head? with
      | none =>
        rw [hFirst] at hHead
        exact hMark hHead
      | some c =>
        rw [hFirst] at hHead
        rw [s.marked (hFirst.trans hHead)] at hHas
        cases hHas
    simp only [markChars, Bool.false_eq_true, if_false, List.nil_append, body, if_neg hHead]

theorem SourceText.body_chars (s : SourceText) : body s.chars = gapChars s.gap ++ s.items.chars := by
  simpa using @s.body_append [] (by simp)

theorem SourceText.sites_append (s : SourceText) {rest : List Char}
    (hMark : rest.head? ≠ some '\uFEFF') :
    sites (s.chars ++ rest) = sitesFrom .start (s.items.chars ++ rest) := by
  rw [sites, s.body_append hMark, (sitesFrom_skips _).gap]

theorem SourceText.sites_chars (s : SourceText) : sites s.chars = sitesFrom .start s.items.chars := by
  simpa using @s.sites_append [] (by simp)

/-- The declarations of a well-formed source are found, each with its literal, its line and whether
attributes follow, and nothing else is. -/
theorem declarations_text (s : SourceText) : declarations s.text = s.declarations := by
  rw [declarations_eq_map, SourceText.text, String.toList_ofList, s.sites_chars]
  exact sitesFrom_items (Or.inl rfl) s.items s.front

end ExplicitModules.Source
