import ExplicitModules.Proofs.Source.Grammar

/-!
# Reading tokens

What each reader makes of a text that begins with a gap, a word, a string, a template, a regular
expression or a block in braces: it is left with the text behind.
-/
namespace ExplicitModules.Source
set_option autoImplicit false

theorem afterLine_append {body : List Char} (h : '\n' ∉ body) (rest : List Char) :
    afterLine (body ++ '\n' :: rest) = '\n' :: rest := by
  unfold afterLine
  rw [List.dropWhile_append_of_pos]
  · rfl
  · intro c hC
    simp only [bne_iff_ne, ne_eq]
    rintro rfl
    exact h hC

theorem afterBlock_append {body : List Char} (h : ¬['*', '/'] <:+: body) (rest : List Char) :
    afterBlock (body ++ '*' :: '/' :: rest) = rest := by
  induction body with
  | nil => rfl
  | cons c body ih =>
    have hBody := ih fun hInfix => h (hInfix.trans (List.suffix_cons c body).isInfix)
    rw [List.cons_append, afterBlock.eq_def]
    split
    · simp_all
    · rename_i hClose
      -- the body would have to begin with the end of the comment
      obtain ⟨rfl, hRest⟩ := List.cons.inj hClose
      cases body with
      | nil => simp at hRest
      | cons d body =>
        rw [List.cons_append] at hRest
        obtain ⟨rfl, -⟩ := List.cons.inj hRest
        exact absurd (List.prefix_append ['*', '/'] body).isInfix h
    · rename_i hCons
      obtain ⟨-, rfl⟩ := List.cons.inj hCons
      exact hBody

/-- A reader to which white space and comments in front make no difference. -/
structure SkipsTrivia {α : Type} (read : List Char → α) : Prop where
  space : ∀ c cs, isSpace c = true → read (c :: cs) = read cs
  comment : ∀ cs rest, afterComment? cs = some rest → read cs = read rest

namespace SkipsTrivia

variable {α : Type} {read : List Char → α} (h : SkipsTrivia read)
include h

theorem filler (f : Filler) (rest : List Char) : read (f.chars ++ rest) = read rest := by
  cases f with
  | space c hSpace => exact h.space c rest hSpace
  | line body hBody =>
    simp only [Filler.chars, List.cons_append, List.append_assoc, List.nil_append]
    rw [h.comment _ ('\n' :: rest), h.space '\n' rest rfl]
    rw [afterComment?, afterLine_append hBody]
  | block body hBody =>
    simp only [Filler.chars, List.cons_append, List.append_assoc, List.nil_append]
    rw [h.comment _ rest]
    rw [afterComment?, afterBlock_append hBody]

theorem gap (g : Option Gap) (rest : List Char) : read (gapChars g ++ rest) = read rest := by
  cases g with
  | none => rfl
  | some g =>
    simp only [gapChars, Option.elim_some, Gap.chars, List.cons_append]
    rw [h.space g.first _ g.first_space]
    induction g.fillers with
    | nil => rfl
    | cons f fillers ih => rw [List.flatMap_cons, List.append_assoc, h.filler, ih]

theorem comp {β : Type} (f : α → β) : SkipsTrivia fun cs => f (read cs) where
  space c cs hSpace := congrArg f (h.space c cs hSpace)
  comment cs rest hComment := congrArg f (h.comment cs rest hComment)

end SkipsTrivia

theorem ne_slash_of_isSpace {c : Char} (h : isSpace c = true) : c ≠ '/' := by
  rintro rfl
  revert h
  decide

theorem afterComment?_eq_none_iff {c : Char} {cs : List Char} :
    afterComment? (c :: cs) = none ↔ ¬(c = '/' ∧ (cs.head? = some '/' ∨ cs.head? = some '*')) := by
  constructor
  · rintro hNone ⟨rfl, hSlash | hStar⟩
    · obtain ⟨ds, rfl⟩ := List.head?_eq_some_iff.mp hSlash
      cases hNone
    · obtain ⟨ds, rfl⟩ := List.head?_eq_some_iff.mp hStar
      cases hNone
  · intro hNot
    by_cases hC : c = '/'
    · have hHead := not_or.mp fun hHead => hNot ⟨hC, hHead⟩
      exact afterComment?_of_next hHead.1 hHead.2
    · exact afterComment?_of_ne hC cs

theorem afterTrivia_skips : SkipsTrivia afterTrivia where
  space c cs hSpace := by rw [afterTrivia, if_pos hSpace]
  comment cs rest hComment := by
    cases cs with
    | nil => cases hComment
    | cons c cs =>
      have hSpace : isSpace c = false := by
        cases hCase : isSpace c with
        | false => rfl
        | true =>
          rw [afterComment?_of_ne (ne_slash_of_isSpace hCase)] at hComment
          cases hComment
      rw [afterTrivia, hSpace]
      simp only [Bool.false_eq_true, if_false]
      split
      · rename_i hRest
        rw [hComment] at hRest
        rw [Option.some.inj hRest]
      · rename_i hNone
        rw [hComment] at hNone
        cases hNone

theorem afterTrivia_stop {c : Char} {cs : List Char} (hSpace : isSpace c = false)
    (hNone : afterComment? (c :: cs) = none) : afterTrivia (c :: cs) = c :: cs := by
  rw [afterTrivia, hSpace, if_neg Bool.false_ne_true]
  split
  · rename_i hSome
    rw [hNone] at hSome
    cases hSome
  · rfl

/-- White space and comments end in front of any other character that is no slash. -/
theorem afterTrivia_of_ne {c : Char} (hSpace : isSpace c = false) (hSlash : c ≠ '/')
    (cs : List Char) : afterTrivia (c :: cs) = c :: cs :=
  afterTrivia_stop hSpace (afterComment?_of_ne hSlash cs)

theorem afterTrivia_afterTrivia (cs : List Char) : afterTrivia (afterTrivia cs) = afterTrivia cs := by
  fun_induction afterTrivia cs with
  | case1 => rw [afterTrivia]
  | case2 c cs hSpace ih => exact ih
  | case3 c cs hSpace rest hComment ih => exact ih
  | case4 c cs hSpace hNone =>
    simp only [Bool.not_eq_true] at hSpace
    exact afterTrivia_stop hSpace hNone

section Words

theorem isWordChar_spec {c : Char} (h : isWordChar c = true) :
    isSpace c = false ∧ isQuote c = false ∧ c ≠ '/' ∧ c ≠ '`' ∧ c ≠ '(' ∧ c ≠ '.' ∧ c ≠ '{' ∧
      c ≠ '*' ∧ c ≠ ',' := by
  have hNot : ∀ d : Char, isWordChar d = false → c ≠ d := by
    rintro d hD rfl
    rw [hD] at h
    cases h
  refine ⟨?_, ?_, hNot _ (by decide), hNot _ (by decide), hNot _ (by decide), hNot _ (by decide),
    hNot _ (by decide), hNot _ (by decide), hNot _ (by decide)⟩
  · unfold isSpace
    simp [hNot ' ' (by decide), hNot '\t' (by decide), hNot '\n' (by decide),
      hNot '\x0c' (by decide), hNot '\r' (by decide)]
  · unfold isQuote
    simp [hNot '\'' (by decide), hNot '"' (by decide)]

theorem isSpace_spec {c : Char} (h : isSpace c = true) :
    isWordChar c = false ∧ c.isAlpha = false ∧ c ≠ '/' ∧ c ≠ '*' := by
  simp only [isSpace, Bool.or_eq_true, beq_iff_eq] at h
  rcases h with (((rfl | rfl) | rfl) | rfl) | rfl <;> decide

variable {cs rest : List Char}

theorem word_append (hWord : ∀ c ∈ cs, isWordChar c = true)
    (hEnd : ∀ c ∈ rest.head?, isWordChar c = false) : word (cs ++ rest) = cs := by
  unfold word
  rw [List.takeWhile_append_of_pos hWord]
  cases rest with
  | nil => simp
  | cons c rest =>
    rw [List.takeWhile_cons, hEnd c rfl]
    simp

theorem afterWord_append (hWord : ∀ c ∈ cs, isWordChar c = true)
    (hEnd : ∀ c ∈ rest.head?, isWordChar c = false) : afterWord (cs ++ rest) = rest := by
  unfold afterWord
  rw [List.dropWhile_append_of_pos hWord]
  cases rest with
  | nil => rfl
  | cons c rest =>
    rw [List.dropWhile_cons, hEnd c rfl]
    simp

theorem Word.exists_cons (w : Word) :
    ∃ c cs, w.chars = c :: cs ∧ isWordChar c = true := by
  obtain ⟨chars, hNe, hAll⟩ := w
  cases chars with
  | nil => exact absurd rfl hNe
  | cons c cs => exact ⟨c, cs, rfl, hAll c List.mem_cons_self⟩

end Words

theorem StringToken.chars_append (s : StringToken) (rest : List Char) :
    s.chars ++ rest = s.quote :: (s.body ++ s.quote :: rest) := by
  simp [StringToken.chars]

theorem readQuoted_body (s : StringToken) (rest : List Char) :
    readQuoted s.quote (s.body ++ s.quote :: rest) = (some s.body, rest) :=
  readQuoted_append (ne_backslash_of_isQuote s.quote_isQuote) s.closed rest

theorem quoted?_append (s : StringToken) (rest : List Char) :
    quoted? (s.chars ++ rest) = some ⟨s.quote, s.body, rest⟩ := by
  rw [s.chars_append, quoted?, if_pos s.quote_isQuote, readQuoted_body]

theorem isQuote_spec {c : Char} (h : isQuote c = true) :
    isSpace c = false ∧ isWordChar c = false ∧ c ≠ '/' ∧ c ≠ '(' ∧ c ≠ '.' ∧ c ≠ '`' := by
  simp only [isQuote, Bool.or_eq_true, beq_iff_eq] at h
  rcases h with rfl | rfl <;> decide

theorem isBraceChar_spec {c : Char} (h : isBraceChar c = true) :
    isQuote c = false ∧ c ≠ '`' ∧ c ≠ '{' ∧ c ≠ '}' ∧ c ≠ '/' := by
  simpa [isBraceChar, and_assoc] using h

/-- What is open further out is closed behind what is open inside. -/
theorem afterOpen_append (inner outer : List Opener) (cs : List Char) :
    afterOpen (inner ++ outer) cs = afterOpen outer (afterOpen inner cs) := by
  fun_induction afterOpen inner cs with
  | case1 => rfl
  | case2 => cases outer <;> simp only [List.cons_append, afterOpen]
  | case3 inner cs ih => rw [List.cons_append, afterOpen, if_pos rfl, ← ih, List.cons_append]
  | case4 inner cs hEscape ih =>
    rw [List.cons_append, afterOpen, if_neg hEscape, if_pos rfl, ih]
  | case5 inner c cs hEscape hTick hOpen ih =>
    rw [List.cons_append, afterOpen, if_neg hEscape, if_neg hTick, if_pos hOpen, ← ih]
    rfl
  | case6 inner c cs hEscape hTick hOpen ih =>
    rw [List.cons_append, afterOpen, if_neg hEscape, if_neg hTick, if_neg hOpen, ← ih,
      List.cons_append]
  | case7 inner c cs rest hComment ih =>
    rw [List.cons_append, afterOpen_of_comment hComment, ← ih, List.cons_append]
  | case8 inner c cs hComment hQuote ih =>
    rw [List.cons_append, afterOpen_of_no_comment hComment, if_pos hQuote, ← ih, List.cons_append]
  | case9 inner cs hComment hQuote ih =>
    rw [List.cons_append, afterOpen_of_no_comment hComment, if_neg hQuote, if_pos rfl, ← ih]
    rfl
  | case10 inner cs hComment hQuote hTick ih =>
    rw [List.cons_append, afterOpen_of_no_comment hComment, if_neg hQuote, if_neg hTick, if_pos rfl,
      ← ih]
    rfl
  | case11 inner cs hComment hQuote hTick hOpen ih =>
    rw [List.cons_append, afterOpen_of_no_comment hComment, if_neg hQuote, if_neg hTick,
      if_neg hOpen, if_pos rfl, ih]
  | case12 inner c cs hComment hQuote hTick hOpen hClose ih =>
    rw [List.cons_append, afterOpen_of_no_comment hComment, if_neg hQuote, if_neg hTick,
      if_neg hOpen, if_neg hClose, ← ih, List.cons_append]

theorem afterOpen_push (o : Opener) (outer : List Opener) (cs : List Char) :
    afterOpen (o :: outer) cs = afterOpen outer (afterOpen [o] cs) :=
  afterOpen_append [o] outer cs

section Braces

variable (outer : List Opener)

theorem afterOpen_char {c : Char} (h : isBraceChar c = true) (rest : List Char) :
    afterOpen (.brace :: outer) (c :: rest) = afterOpen (.brace :: outer) rest := by
  obtain ⟨hQuote, hTemplate, hOpen, hClose, hSlash⟩ := isBraceChar_spec h
  rw [afterOpen_of_no_comment (afterComment?_of_ne hSlash rest), hQuote,
    if_neg Bool.false_ne_true, if_neg hTemplate, if_neg hOpen, if_neg hClose]

theorem afterOpen_skips : SkipsTrivia (afterOpen (.brace :: outer)) where
  space c cs hSpace := by
    apply afterOpen_char
    simp only [isSpace, Bool.or_eq_true, beq_iff_eq] at hSpace
    rcases hSpace with (((rfl | rfl) | rfl) | rfl) | rfl <;> decide
  comment cs rest hComment := afterOpen_of_comment hComment

theorem afterOpen_string (s : StringToken) (rest : List Char) :
    afterOpen (.brace :: outer) (s.chars ++ rest) = afterOpen (.brace :: outer) rest := by
  have hSlash := (isQuote_spec s.quote_isQuote).2.2.1
  rw [s.chars_append, afterOpen_of_no_comment (afterComment?_of_ne hSlash _),
    if_pos s.quote_isQuote, readQuoted_body]

theorem afterOpen_piece (p : BracePiece) (rest : List Char) :
    afterOpen (.brace :: outer) (p.chars ++ rest) = afterOpen (.brace :: outer) rest := by
  cases p with
  | char c hPlain => exact afterOpen_char outer hPlain rest
  | string s => exact afterOpen_string outer s rest
  | filler f => exact (afterOpen_skips outer).filler f rest

theorem afterOpen_close (rest : List Char) :
    afterOpen (.brace :: outer) ('}' :: rest) = afterOpen outer rest := by
  exact afterOpen_of_no_comment rfl

theorem afterOpen_pieces (ps : List BracePiece) (rest : List Char) :
    afterOpen (.brace :: outer) (ps.flatMap BracePiece.chars ++ '}' :: rest) =
      afterOpen outer rest := by
  induction ps with
  | nil => exact afterOpen_close outer rest
  | cons p ps ih => rw [List.flatMap_cons, List.append_assoc, afterOpen_piece, ih]

end Braces

theorem Braces.chars_append (b : Braces) (rest : List Char) :
    b.chars ++ rest = '{' :: (b.pieces.flatMap BracePiece.chars ++ '}' :: rest) := by
  simp [Braces.chars]

theorem afterOpen_body (b : Braces) (rest : List Char) :
    afterOpen [.brace] (b.pieces.flatMap BracePiece.chars ++ '}' :: rest) = rest := by
  rw [afterOpen_pieces, afterOpen]

theorem afterOpen_template {body : List Char} (h : isTemplateBody body = true) (rest : List Char) :
    afterOpen [.template] (body ++ '`' :: rest) = rest := by
  fun_induction isTemplateBody body with
  | case1 =>
    rw [List.nil_append, afterOpen, if_neg (by decide), if_pos rfl, afterOpen]
  | case2 => cases h
  | case3 c cs ih =>
    rw [List.cons_append, List.cons_append, afterOpen, if_pos rfl]
    exact ih h
  | case4 c cs hLast hEscape ih =>
    have hPlain := ne_backslash hLast hEscape
    simp only [Bool.and_eq_true, bne_iff_ne, ne_eq, Bool.not_eq_true', Bool.and_eq_false_iff,
      beq_eq_false_iff_ne] at h
    obtain ⟨⟨hTick, hDollar⟩, hRest⟩ := h
    have hNoSubstitution : ¬(c = '$' ∧ (cs ++ '`' :: rest).head? = some '{') := by
      rintro ⟨hC, hHead⟩
      cases cs with
      | nil => simp at hHead
      | cons d cs => simp_all
    rw [List.cons_append, afterOpen, if_neg hPlain, if_neg hTick, if_neg hNoSubstitution]
    exact ih hRest

theorem afterRegex_cons_of_ne {c : Char} (hEscape : c ≠ '\\') (hLine : c ≠ '\n') (hOpen : c ≠ '[')
    (hClose : c ≠ ']') (hSlash : c ≠ '/') (inClass : Bool) (cs : List Char) :
    afterRegex inClass (c :: cs) = afterRegex inClass cs := by
  rw [afterRegex.eq_def]
  split <;> simp_all

theorem afterRegex_append {inClass : Bool} {body flags rest : List Char}
    (h : isRegexTail inClass body = true) (hFlags : ∀ c ∈ flags, c.isAlpha = true)
    (hEnd : ∀ c ∈ rest.head?, c.isAlpha = false) :
    afterRegex inClass (body ++ '/' :: (flags ++ rest)) = rest := by
  fun_induction isRegexTail inClass body with
  | case1 inClass =>
    rw [List.nil_append, afterRegex, List.dropWhile_append_of_pos hFlags]
    rw [Bool.not_eq_true'] at h
    rw [h, if_neg Bool.false_ne_true]
    cases rest with
    | nil => rfl
    | cons c rest => simp [hEnd c rfl]
  | case2 => cases h
  | case3 inClass c cs ih =>
    rw [List.cons_append, List.cons_append, afterRegex]
    exact ih h
  | case4 => cases h
  | case5 inClass cs _ _ _ ih =>
    rw [List.cons_append, afterRegex]
    exact ih h
  | case6 inClass cs _ _ _ _ ih =>
    rw [List.cons_append, afterRegex]
    exact ih h
  | case7 inClass c cs hLast hEscape hLine hOpen hClose ih =>
    have hPlain := ne_backslash hLast hEscape
    simp only [Bool.and_eq_true, Bool.or_eq_true, bne_iff_ne, ne_eq] at h
    obtain ⟨hSlash, hRest⟩ := h
    rw [List.cons_append, afterRegex.eq_def]
    split <;> simp_all

theorem Token.endsBefore_space {c : Char} (h : isSpace c = true) (t : Token) :
    t.endsBefore c = true := by
  obtain ⟨hWord, hAlpha, hSlash, hStar⟩ := isSpace_spec h
  cases t <;> simp [Token.endsBefore, hWord, hAlpha, hSlash, hStar]

namespace Spaced

theorem chars_cons (t : Token) (gap : Option Gap) (ts : Spaced) (rest : List Char) :
    Spaced.chars ((t, gap) :: ts) ++ rest =
      t.chars ++ (gapChars gap ++ (Spaced.chars ts ++ rest)) := by
  simp [Spaced.chars]

theorem chars_append (ts us : Spaced) :
    Spaced.chars (ts ++ us) = Spaced.chars ts ++ Spaced.chars us :=
  List.flatMap_append

/-- The first token of a legible sequence ends in front of what stands behind it. -/
theorem Legible.endsBefore {next : Char} {t : Token} {gap : Option Gap} {ts : Spaced}
    {rest : List Char} (h : Legible next ((t, gap) :: ts)) (hNext : rest.head? = some next) :
    ∀ c ∈ (gapChars gap ++ (Spaced.chars ts ++ rest)).head?, t.endsBefore c = true := by
  intro c hC
  cases gap with
  | some g =>
    obtain rfl := Option.some.inj hC
    exact t.endsBefore_space g.first_space
  | none =>
    have hFirst := h.1 rfl
    cases hChars : Spaced.chars ts with
    | nil =>
      rw [hChars] at hC hFirst
      obtain rfl := Option.some.inj (hNext.symm.trans hC)
      exact hFirst
    | cons d ds =>
      rw [hChars] at hC hFirst
      obtain rfl := Option.some.inj hC
      exact hFirst

theorem Legible.endsWord {next : Char} {w : Word} {gap : Option Gap} {ts : Spaced}
    {rest : List Char} (h : Legible next ((.word w, gap) :: ts)) (hNext : rest.head? = some next) :
    ∀ c ∈ (gapChars gap ++ (Spaced.chars ts ++ rest)).head?, isWordChar c = false := by
  intro c hC
  simpa [Token.endsBefore] using h.endsBefore hNext c hC

theorem Legible.word_eq {next : Char} {w : Word} {gap : Option Gap} {ts : Spaced}
    (h : Legible next ((.word w, gap) :: ts)) (rest : List Char) (hNext : rest.head? = some next) :
    word (w.chars ++ (gapChars gap ++ (Spaced.chars ts ++ rest))) = w.chars :=
  word_append w.all_word (h.endsWord hNext)

theorem Legible.afterWord_eq {next : Char} {w : Word} {gap : Option Gap} {ts : Spaced}
    (h : Legible next ((.word w, gap) :: ts)) (rest : List Char) (hNext : rest.head? = some next) :
    afterWord (w.chars ++ (gapChars gap ++ (Spaced.chars ts ++ rest))) =
      gapChars gap ++ (Spaced.chars ts ++ rest) :=
  afterWord_append w.all_word (h.endsWord hNext)

theorem exists_of_tokens_eq_cons {ts : Spaced} {t : Token} {rest : List Token}
    (h : ts.tokens = t :: rest) : ∃ gap us, ts = (t, gap) :: us ∧ Spaced.tokens us = rest := by
  obtain ⟨⟨u, gap⟩, us, rfl, rfl, hRest⟩ := List.map_eq_cons_iff.mp h
  exact ⟨gap, us, rfl, hRest⟩

theorem eq_nil_of_tokens_eq_nil {ts : Spaced} (h : ts.tokens = []) : ts = [] :=
  List.map_eq_nil_iff.mp h

theorem legible_append {next : Char} {front back : Spaced} : Legible next (front ++ back) ↔
    Legible ((Spaced.chars back).headD next) front ∧ Legible next back := by
  induction front with
  | nil => exact (and_iff_right trivial).symm
  | cons t front ih =>
    obtain ⟨t, gap⟩ := t
    have hHead : (Spaced.chars (front ++ back)).headD next =
        (Spaced.chars front).headD ((Spaced.chars back).headD next) := by
      rw [chars_append]
      cases Spaced.chars front <;> rfl
    rw [List.cons_append, Legible, Legible, hHead, ih, and_assoc]

end Spaced

end ExplicitModules.Source
