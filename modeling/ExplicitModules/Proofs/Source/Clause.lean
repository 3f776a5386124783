import ExplicitModules.Proofs.Source.Reading

/-!
# Reading the clauses of a declaration

Behind its keyword every form of a declaration is read up to the string that names the module, also
where `from`, `as` or `type` is a name in it.
-/
namespace ExplicitModules.Source
set_option autoImplicit false

theorem quoted?_eq_none {c : Char} (h : isQuote c = false) (cs : List Char) :
    quoted? (c :: cs) = none := by
  simp [quoted?, h]

section Import

theorem importSource?_eq (cs : List Char) :
    importSource? cs =
      match afterTrivia cs with
      | [] => none
      | c :: rest =>
        if c = '{' then importSource? (afterOpen [.brace] rest)
        else if c = '*' ∨ c = ',' then importSource? rest
        else if isWordChar c then
          if word (c :: rest) = "from".toList ∧
              (afterTrivia (afterWord (c :: rest))).head?.any isQuote then
            quoted? (afterTrivia (afterWord (c :: rest)))
          else importSource? (afterWord (c :: rest))
        else none := by
  rw [importSource?]
  split
  · rename_i hTrivia
    rw [hTrivia]
  · rename_i hTrivia
    rw [hTrivia]
    simp only [dite_eq_ite]

theorem importSource?_afterTrivia (cs : List Char) :
    importSource? (afterTrivia cs) = importSource? cs := by
  rw [importSource?_eq, importSource?_eq cs, afterTrivia_afterTrivia]

theorem importSource?_of_word {cs rest : List Char} {c : Char} (hTrivia : afterTrivia cs = c :: rest)
    (hWord : isWordChar c = true) :
    importSource? cs =
      if word (c :: rest) = "from".toList ∧
          (afterTrivia (afterWord (c :: rest))).head?.any isQuote then
        quoted? (afterTrivia (afterWord (c :: rest)))
      else importSource? (afterWord (c :: rest)) := by
  obtain ⟨-, -, -, -, -, -, hBrace, hStar, hComma⟩ := isWordChar_spec hWord
  rw [importSource?_eq, hTrivia]
  dsimp only
  rw [if_neg hBrace, if_neg (not_or.mpr ⟨hStar, hComma⟩), if_pos hWord]

theorem importSource?_skips : SkipsTrivia importSource? where
  space c cs hSpace := by
    rw [importSource?_eq, importSource?_eq cs, afterTrivia_skips.space c cs hSpace]
  comment cs rest hComment := by
    rw [importSource?_eq, importSource?_eq rest, afterTrivia_skips.comment cs rest hComment]

/-- What an import clause is made of, with `from` itself among the words. -/
def Token.InClause : Token → Prop
  | .word _ => True
  | .braces _ => True
  | .punctuation c tail _ => tail = [] ∧ (c = '*' ∨ c = ',')
  | _ => False

theorem Token.InClause.exists_cons {t : Token} (h : t.InClause) :
    ∃ c cs, t.chars = c :: cs ∧ isSpace c = false ∧ isQuote c = false ∧ c ≠ '/' ∧ c ≠ '(' ∧
      c ≠ '.' := by
  cases t with
  | word w =>
    obtain ⟨c, cs, hChars, hWord⟩ := w.exists_cons
    obtain ⟨hSpace, hQuote, hSlash, -, hOpen, hDot, -⟩ := isWordChar_spec hWord
    exact ⟨c, cs, hChars, hSpace, hQuote, hSlash, hOpen, hDot⟩
  | punctuation c tail hTail =>
    obtain ⟨rfl, rfl | rfl⟩ := h
    · exact ⟨'*', [], rfl, by decide⟩
    · exact ⟨',', [], rfl, by decide⟩
  | braces b => exact ⟨'{', _, rfl, by decide⟩
  | _ => exact h.elim

theorem Token.InClause.afterTrivia {t : Token} (h : t.InClause) (rest : List Char) :
    afterTrivia (t.chars ++ rest) = t.chars ++ rest := by
  obtain ⟨c, cs, hChars, hSpace, -, hSlash, -⟩ := h.exists_cons
  rw [hChars, List.cons_append, afterTrivia_of_ne hSpace hSlash]

theorem Token.InClause.not_quoted {t : Token} (h : t.InClause) (rest : List Char) :
    (t.chars ++ rest).head?.any isQuote = false := by
  obtain ⟨c, cs, hChars, -, hQuote, -⟩ := h.exists_cons
  rw [hChars, List.cons_append, List.head?_cons]
  exact hQuote

theorem StringToken.afterTrivia (s : StringToken) (rest : List Char) :
    afterTrivia (s.chars ++ rest) = s.chars ++ rest := by
  obtain ⟨hSpace, -, hSlash, -⟩ := isQuote_spec s.quote_isQuote
  rw [s.chars_append, afterTrivia_of_ne hSpace hSlash]

theorem StringToken.quoted (s : StringToken) (rest : List Char) :
    (s.chars ++ rest).head?.any isQuote = true := by
  rw [s.chars_append]
  exact s.quote_isQuote

theorem importSource?_mark {c : Char} (h : c = '*' ∨ c = ',') (rest : List Char) :
    importSource? (c :: rest) = importSource? rest := by
  have hTrivia : afterTrivia (c :: rest) = c :: rest := by
    rcases h with rfl | rfl <;> exact afterTrivia_of_ne (by decide) (by decide) rest
  have hBrace : c ≠ '{' := by rcases h with rfl | rfl <;> decide
  rw [importSource?_eq, hTrivia]
  dsimp only
  rw [if_neg hBrace, if_pos h]

theorem importSource?_braces (b : Braces) (rest : List Char) :
    importSource? (b.chars ++ rest) = importSource? rest := by
  rw [b.chars_append, importSource?_eq, afterTrivia_of_ne (by decide) (by decide)]
  dsimp only
  rw [if_pos rfl, afterOpen_body]

theorem importSource?_word (w : Word) {rest : List Char}
    (hEnd : ∀ c ∈ rest.head?, isWordChar c = false) :
    importSource? (w.chars ++ rest) =
      if w.chars = "from".toList ∧ (afterTrivia rest).head?.any isQuote then
        quoted? (afterTrivia rest)
      else importSource? rest := by
  have hRead := word_append w.all_word hEnd
  have hBehind := afterWord_append w.all_word hEnd
  obtain ⟨c, cs, hChars, hWord⟩ := w.exists_cons
  obtain ⟨hSpace, -, hSlash, -⟩ := isWordChar_spec hWord
  rw [hChars, List.cons_append] at hRead hBehind ⊢
  rw [importSource?_of_word (afterTrivia_of_ne hSpace hSlash _) hWord, hRead, hBehind]

theorem exists_clause_head {ps : List Token} (hClause : ∀ t ∈ ps, t.InClause) {ts : Spaced}
    (hTokens : ts.tokens = ps ++ [.word .ofFrom]) :
    ∃ t gap us, ts = (t, gap) :: us ∧ t.InClause := by
  cases ps with
  | nil =>
    obtain ⟨gap, us, rfl, -⟩ := Spaced.exists_of_tokens_eq_cons hTokens
    exact ⟨.word .ofFrom, gap, us, rfl, trivial⟩
  | cons t ps =>
    obtain ⟨gap, us, rfl, -⟩ := Spaced.exists_of_tokens_eq_cons hTokens
    exact ⟨t, gap, us, rfl, hClause t List.mem_cons_self⟩

/-- The tokens of a clause are passed over up to the last `from`, and the string behind it is read. -/
theorem importSource?_clause {ps : List Token} (hClause : ∀ t ∈ ps, t.InClause) {ts : Spaced}
    (hTokens : ts.tokens = ps ++ [.word .ofFrom]) (s : StringToken)
    (hLegible : ts.Legible s.quote) (rest : List Char) :
    importSource? (ts.chars ++ (s.chars ++ rest)) = some ⟨s.quote, s.body, rest⟩ := by
  induction ps generalizing ts with
  | nil =>
    obtain ⟨gap, us, rfl, hNil⟩ := Spaced.exists_of_tokens_eq_cons hTokens
    obtain rfl := Spaced.eq_nil_of_tokens_eq_nil hNil
    rw [Spaced.chars_cons]
    refine (importSource?_word .ofFrom (hLegible.endsWord rfl)).trans ?_
    rw [afterTrivia_skips.gap]
    have hString := s.afterTrivia rest
    have hQuoted := s.quoted rest
    simp only [Spaced.chars, List.flatMap_nil, List.nil_append]
    rw [hString, hQuoted, if_pos ⟨rfl, rfl⟩, quoted?_append]
  | cons p ps ih =>
    obtain ⟨gap, us, rfl, hRest⟩ := Spaced.exists_of_tokens_eq_cons hTokens
    rw [List.forall_mem_cons] at hClause
    have hLater := ih hClause.2 hRest hLegible.2
    have hBehind : importSource? (gapChars gap ++ (Spaced.chars us ++ (s.chars ++ rest))) =
        some ⟨s.quote, s.body, rest⟩ := by rw [importSource?_skips.gap, hLater]
    rw [Spaced.chars_cons]
    cases p with
    | word w =>
      -- another token of the clause follows, so this word is a name
      obtain ⟨u, gap', vs, rfl, hU⟩ := exists_clause_head hClause.2 hRest
      have hName : (afterTrivia (gapChars gap ++
          (Spaced.chars ((u, gap') :: vs) ++ (s.chars ++ rest)))).head?.any isQuote = false := by
        rw [afterTrivia_skips.gap, Spaced.chars_cons, hU.afterTrivia, hU.not_quoted]
      refine (importSource?_word w (hLegible.endsWord rfl)).trans ?_
      rw [hName, if_neg fun h => Bool.false_ne_true h.2, hBehind]
    | punctuation c tail hTail =>
      obtain ⟨rfl, hMark⟩ := hClause.1
      exact (importSource?_mark hMark _).trans hBehind
    | braces b => exact (importSource?_braces b _).trans hBehind
    | _ => exact hClause.1.elim

theorem importSpecifier?_skips : SkipsTrivia importSpecifier? :=
  afterTrivia_skips.comp fun
    | [] => none
    | c :: rest =>
      if c = '(' ∨ c = '.' then none
      else if isQuote c then quoted? (c :: rest)
      else importSource? (c :: rest)

theorem importSpecifier?_string (s : StringToken) (rest : List Char) :
    importSpecifier? (s.chars ++ rest) = some ⟨s.quote, s.body, rest⟩ := by
  obtain ⟨-, -, -, hOpen, hDot, -⟩ := isQuote_spec s.quote_isQuote
  rw [importSpecifier?, s.afterTrivia, ← quoted?_append, s.chars_append]
  dsimp only
  rw [if_neg (not_or.mpr ⟨hOpen, hDot⟩), if_pos s.quote_isQuote]

theorem importSpecifier?_clause {ps : List Token} (hClause : ∀ t ∈ ps, t.InClause) {ts : Spaced}
    (hTokens : ts.tokens = ps ++ [.word .ofFrom]) (s : StringToken)
    (hLegible : ts.Legible s.quote) (rest : List Char) :
    importSpecifier? (ts.chars ++ (s.chars ++ rest)) = some ⟨s.quote, s.body, rest⟩ := by
  have hSource := importSource?_clause hClause hTokens s hLegible rest
  obtain ⟨t, gap, us, rfl, hT⟩ := exists_clause_head hClause hTokens
  rw [Spaced.chars_cons] at hSource ⊢
  rw [importSpecifier?, hT.afterTrivia]
  obtain ⟨c, cs, hChars, -, hQuote, -, hOpen, hDot⟩ := hT.exists_cons
  rw [hChars, List.cons_append] at hSource ⊢
  dsimp only
  rw [if_neg (not_or.mpr ⟨hOpen, hDot⟩), hQuote, if_neg Bool.false_ne_true, hSource]

end Import

section Export

theorem fromString?_skips : SkipsTrivia fromString? :=
  afterTrivia_skips.comp fun cs =>
    if word cs = "from".toList then quoted? (afterTrivia (afterWord cs)) else none

theorem Word.afterTrivia (w : Word) (rest : List Char) :
    afterTrivia (w.chars ++ rest) = w.chars ++ rest :=
  Token.InClause.afterTrivia (t := .word w) trivial rest

theorem fromString?_last {gap : Option Gap} (s : StringToken)
    (hLegible : Spaced.Legible s.quote [(.word .ofFrom, gap)]) (rest : List Char) :
    fromString? (Spaced.chars [(.word .ofFrom, gap)] ++ (s.chars ++ rest)) =
      some ⟨s.quote, s.body, rest⟩ := by
  have hWord := hLegible.word_eq (s.chars ++ rest) rfl
  have hBehind := hLegible.afterWord_eq (s.chars ++ rest) rfl
  rw [Spaced.chars_cons, Token.chars, fromString?, Word.afterTrivia, hWord, hBehind,
    afterTrivia_skips.gap, if_pos Word.chars_ofFrom]
  exact (congrArg quoted? (s.afterTrivia rest)).trans (quoted?_append s rest)

theorem afterExportName?_word {w : Word} {gap : Option Gap} {ts : Spaced} {next : Char}
    (hLegible : Spaced.Legible next ((.word w, gap) :: ts)) (rest : List Char)
    (hNext : rest.head? = some next) :
    afterExportName? (w.chars ++ (gapChars gap ++ (Spaced.chars ts ++ rest))) =
      some (gapChars gap ++ (Spaced.chars ts ++ rest)) := by
  have hBehind := hLegible.afterWord_eq rest hNext
  obtain ⟨c, cs, hChars, hWord⟩ := w.exists_cons
  rw [hChars, List.cons_append] at hBehind ⊢
  simp only [afterExportName?, (isWordChar_spec hWord).2.1, hWord, hBehind, Bool.false_eq_true,
    if_false, if_true]

theorem afterExportName?_string (s : StringToken) (rest : List Char) :
    afterExportName? (s.chars ++ rest) = some rest := by
  have hQuoted := quoted?_append s rest
  rw [s.chars_append] at hQuoted ⊢
  simp only [afterExportName?, s.quote_isQuote, if_true, hQuoted, Option.map_some]

theorem reexportSource?_star {gap gap' : Option Gap} {ts : Spaced} {s : StringToken}
    (hLegible : Spaced.Legible s.quote ((.word .ofAs, gap') :: ts)) (rest : List Char) :
    reexportSource? ('*' :: (gapChars gap ++
        (Spaced.chars ((.word .ofAs, gap') :: ts) ++ (s.chars ++ rest)))) =
      (afterExportName? (afterTrivia (Spaced.chars ts ++ (s.chars ++ rest)))).bind fromString? := by
  have hWord := hLegible.word_eq (s.chars ++ rest) rfl
  have hBehind := hLegible.afterWord_eq (s.chars ++ rest) rfl
  rw [Spaced.chars_cons, Token.chars]
  simp only [reexportSource?]
  rw [afterTrivia_skips.gap, Word.afterTrivia, hWord, hBehind, afterTrivia_skips.gap, if_pos Word.chars_ofAs]

/-- A star, a star with a name, or names in braces are followed up to the string. -/
theorem reexportSource?_clause (clause : ExportClause) {ts : Spaced}
    (hTokens : ts.tokens = clause.tokens ++ [.word .ofFrom]) (s : StringToken)
    (hLegible : ts.Legible s.quote) (rest : List Char) :
    reexportSource? (ts.chars ++ (s.chars ++ rest)) = some ⟨s.quote, s.body, rest⟩ := by
  cases clause with
  | star =>
    obtain ⟨gap, us, rfl, hUs⟩ := Spaced.exists_of_tokens_eq_cons hTokens
    obtain ⟨gap', vs, rfl, hVs⟩ := Spaced.exists_of_tokens_eq_cons hUs
    obtain rfl := Spaced.eq_nil_of_tokens_eq_nil hVs
    have hFrom := fromString?_last s hLegible.2 rest
    have hWord := hLegible.2.word_eq (s.chars ++ rest) rfl
    rw [Spaced.chars_cons] at hFrom ⊢
    simp only [Token.star, Token.chars, List.cons_append, List.nil_append, reexportSource?] at hFrom ⊢
    rw [afterTrivia_skips.gap, Spaced.chars_cons, Token.chars, Word.afterTrivia, hWord,
      if_neg (by decide), hFrom]
  | starAs name =>
    obtain ⟨gap, us, rfl, hUs⟩ := Spaced.exists_of_tokens_eq_cons hTokens
    obtain ⟨gap', vs, rfl, hVs⟩ := Spaced.exists_of_tokens_eq_cons hUs
    obtain ⟨gapName, ws, rfl, hWs⟩ := Spaced.exists_of_tokens_eq_cons hVs
    obtain ⟨gapFrom, xs, rfl, hXs⟩ := Spaced.exists_of_tokens_eq_cons hWs
    obtain rfl := Spaced.eq_nil_of_tokens_eq_nil hXs
    have hName := afterExportName?_word hLegible.2.2 (s.chars ++ rest) rfl
    rw [Spaced.chars_cons]
    refine (reexportSource?_star hLegible.2 rest).trans ?_
    rw [Spaced.chars_cons, Token.chars, Word.afterTrivia, hName, Option.bind_some,
      fromString?_skips.gap, fromString?_last s hLegible.2.2.2]
  | starAsString name =>
    obtain ⟨gap, us, rfl, hUs⟩ := Spaced.exists_of_tokens_eq_cons hTokens
    obtain ⟨gap', vs, rfl, hVs⟩ := Spaced.exists_of_tokens_eq_cons hUs
    obtain ⟨gapName, ws, rfl, hWs⟩ := Spaced.exists_of_tokens_eq_cons hVs
    obtain ⟨gapFrom, xs, rfl, hXs⟩ := Spaced.exists_of_tokens_eq_cons hWs
    obtain rfl := Spaced.eq_nil_of_tokens_eq_nil hXs
    rw [Spaced.chars_cons]
    refine (reexportSource?_star hLegible.2 rest).trans ?_
    rw [Spaced.chars_cons, Token.chars, StringToken.afterTrivia, afterExportName?_string,
      Option.bind_some, fromString?_skips.gap, fromString?_last s hLegible.2.2.2]
  | named names =>
    obtain ⟨gap, us, rfl, hUs⟩ := Spaced.exists_of_tokens_eq_cons hTokens
    obtain ⟨gap', vs, rfl, hVs⟩ := Spaced.exists_of_tokens_eq_cons hUs
    obtain rfl := Spaced.eq_nil_of_tokens_eq_nil hVs
    have hFrom := fromString?_last s hLegible.2 rest
    rw [Spaced.chars_cons, Token.chars, Braces.chars_append, reexportSource?, afterOpen_body,
      fromString?_skips.gap, hFrom]

theorem exportSpecifier?_skips : SkipsTrivia exportSpecifier? :=
  afterTrivia_skips.comp fun clause =>
    if word clause = [] then reexportSource? clause
    else if word clause = "type".toList then reexportSource? (afterTrivia (afterWord clause))
    else none

theorem ExportClause.exists_head (clause : ExportClause) {ts : Spaced}
    (hTokens : ts.tokens = clause.tokens ++ [.word .ofFrom]) (rest : List Char) :
    ∃ c cs, ts.chars ++ rest = c :: cs ∧ isWordChar c = false ∧ isSpace c = false ∧ c ≠ '/' := by
  have hFirst : ∃ t us, clause.tokens ++ [.word .ofFrom] = t :: us ∧
      ∃ c cs, t.chars = c :: cs ∧ isWordChar c = false ∧ isSpace c = false ∧ c ≠ '/' := by
    cases clause with
    | named names => exact ⟨_, _, rfl, '{', _, rfl, by decide⟩
    | _ => exact ⟨_, _, rfl, '*', [], rfl, by decide⟩
  obtain ⟨t, us, hCons, c, cs, hChars, hC⟩ := hFirst
  rw [hCons] at hTokens
  obtain ⟨gap, vs, rfl, -⟩ := Spaced.exists_of_tokens_eq_cons hTokens
  rw [Spaced.chars_cons, hChars, List.cons_append]
  exact ⟨c, _, rfl, hC⟩

theorem exportSpecifier?_clause (clause : ExportClause) {ts : Spaced}
    (hTokens : ts.tokens = clause.tokens ++ [.word .ofFrom]) (s : StringToken)
    (hLegible : ts.Legible s.quote) (rest : List Char) :
    exportSpecifier? (ts.chars ++ (s.chars ++ rest)) = some ⟨s.quote, s.body, rest⟩ := by
  have hSource := reexportSource?_clause clause hTokens s hLegible rest
  obtain ⟨c, cs, hChars, hWord, hSpace, hSlash⟩ := clause.exists_head hTokens (s.chars ++ rest)
  rw [hChars] at hSource ⊢
  have hNone : word (c :: cs) = [] := by simp [word, hWord]
  simp only [exportSpecifier?]
  rw [afterTrivia_of_ne hSpace hSlash, if_pos hNone, hSource]

theorem exportSpecifier?_type (clause : ExportClause) {gap : Option Gap} {ts : Spaced}
    (hTokens : ts.tokens = clause.tokens ++ [.word .ofFrom]) (s : StringToken)
    (hLegible : Spaced.Legible s.quote ((.word .ofType, gap) :: ts)) (rest : List Char) :
    exportSpecifier? (Spaced.chars ((.word .ofType, gap) :: ts) ++ (s.chars ++ rest)) =
      some ⟨s.quote, s.body, rest⟩ := by
  have hWord := hLegible.word_eq (s.chars ++ rest) rfl
  have hBehind := hLegible.afterWord_eq (s.chars ++ rest) rfl
  have hSource := reexportSource?_clause clause hTokens s hLegible.2 rest
  obtain ⟨c, cs, hChars, -, hSpace, hSlash⟩ := clause.exists_head hTokens (s.chars ++ rest)
  rw [Spaced.chars_cons, Token.chars]
  simp only [exportSpecifier?]
  rw [Word.afterTrivia, hWord, hBehind, if_neg Word.ofType.ne_nil, if_pos Word.chars_ofType,
    afterTrivia_skips.gap, hChars, afterTrivia_of_ne hSpace hSlash, ← hChars, hSource]

end Export

section Attributes

theorem afterAttributes?_skips : SkipsTrivia afterAttributes? where
  space c cs hSpace := by
    simp only [afterAttributes?, afterTrivia_skips.space c cs hSpace]
  comment cs rest hComment := by
    simp only [afterAttributes?, afterTrivia_skips.comment cs rest hComment]

theorem afterAttributes?_semicolon (rest : List Char) : afterAttributes? (';' :: rest) = none := by
  simp only [afterAttributes?]
  rw [afterTrivia_of_ne (by decide) (by decide)]
  have hNone : word (';' :: rest) = [] := by simp [word, isWordChar]
  rw [hNone, if_neg (by decide)]

theorem afterAttributes?_clause {w : Word} (hWord : w = .ofWith ∨ w = .ofAssert) {b : Braces}
    {gap gap' : Option Gap} {next : Char}
    (hLegible : Spaced.Legible next [(.word w, gap), (.braces b, gap')]) {rest : List Char}
    (hNext : rest.head? = some next) :
    afterAttributes? (Spaced.chars [(.word w, gap), (.braces b, gap')] ++ rest) =
      some (gapChars gap' ++ rest) := by
  have hRead := hLegible.word_eq rest hNext
  have hBehind := hLegible.afterWord_eq rest hNext
  have hKeyword : w.chars = "with".toList ∨ w.chars = "assert".toList := by
    rcases hWord with rfl | rfl
    · exact Or.inl rfl
    · exact Or.inr rfl
  rw [Spaced.chars_cons, Token.chars]
  simp only [afterAttributes?]
  rw [Word.afterTrivia, hRead, hBehind, if_pos hKeyword, afterTrivia_skips.gap, Spaced.chars_cons,
    Token.chars, Braces.chars_append, afterTrivia_of_ne (by decide) (by decide)]
  simp only [afterOpen_body]
  rfl

end Attributes

end ExplicitModules.Source
