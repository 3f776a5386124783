import ExplicitModules.Proofs.Source.Reading

/-!
# Texts with insertions

A text is compared with itself after an ending has been put in front of some closing quotes and a
clause behind others. Wherever a reader starts, it comes to the same place in both texts, because
what has been put in is passed over: in a string, a template, a comment or a block in braces. Only a
slash or a star must not stand in front of an ending that begins with a slash itself.
-/
namespace ExplicitModules.Source
set_option autoImplicit false

/-- A character with what is put in front of it and behind it. -/
structure Inset where
  char : Char
  front : List Char
  behind : List Char

def bare (c : Char) : Inset :=
  ⟨c, [], []⟩

def plain (xs : List Inset) : List Char :=
  xs.map Inset.char

def woven (xs : List Inset) : List Char :=
  xs.flatMap fun x => x.front ++ x.char :: x.behind

@[simp] theorem plain_nil : plain [] = [] := rfl

@[simp] theorem woven_nil : woven [] = [] := rfl

@[simp] theorem plain_cons (x : Inset) (xs : List Inset) : plain (x :: xs) = x.char :: plain xs :=
  rfl

@[simp] theorem woven_bare (c : Char) (xs : List Inset) : woven (bare c :: xs) = c :: woven xs :=
  rfl

@[simp] theorem bare_char (c : Char) : (bare c).char = c := rfl

theorem plain_inset (q : Char) (e b : List Char) (xs : List Inset) :
    plain (⟨q, e, b⟩ :: xs) = q :: plain xs :=
  rfl

theorem woven_ending (q : Char) (e : List Char) (xs : List Inset) :
    woven (⟨q, e, []⟩ :: xs) = e ++ q :: woven xs := by
  simp [woven]

theorem woven_clause (q : Char) (b : List Char) (xs : List Inset) :
    woven (⟨q, [], b⟩ :: xs) = q :: (b ++ woven xs) := by
  simp [woven]

theorem plain_append (xs ys : List Inset) : plain (xs ++ ys) = plain xs ++ plain ys :=
  List.map_append

theorem woven_append (xs ys : List Inset) : woven (xs ++ ys) = woven xs ++ woven ys :=
  List.flatMap_append

theorem plain_map_bare (cs : List Char) : plain (cs.map bare) = cs := by
  simp [plain, Function.comp_def]

theorem woven_map_bare (cs : List Char) : woven (cs.map bare) = cs := by
  induction cs with
  | nil => rfl
  | cons c cs ih => rw [List.map_cons, woven_bare, ih]

/-- What is put in front of a closing quote. -/
def endings : List (List Char) :=
  [".js".toList, ".jsx".toList, "/index.js".toList, "/index.jsx".toList]

def jsonClause (q : Char) : List Char :=
  " with \x7b type: ".toList ++ q :: ("json".toList ++ q :: " \x7d".toList)

/-- The character `c` makes or ends no comment together with an ending behind it. -/
def Joins (c : Char) (xs : List Inset) : Prop :=
  ∀ x ∈ xs.head?, x.front.head? = some '/' → c ≠ '/' ∧ c ≠ '*'

/-- Insertions stand at quotes that no backslash escapes; a clause comes behind an `n`. -/
inductive Fits : List Inset → Prop
  | nil : Fits []
  | last : Fits [bare '\\']
  | escape (c : Char) {xs : List Inset} (hRest : Fits xs) (hJoins : Joins c xs) :
      Fits (bare '\\' :: bare c :: xs)
  | char {c : Char} {xs : List Inset} (hPlain : c ≠ '\\') (hRest : Fits xs) (hJoins : Joins c xs) :
      Fits (bare c :: xs)
  | ending {q : Char} {e : List Char} {xs : List Inset} (hQuote : isQuote q = true)
      (hEnding : e ∈ endings) (hRest : Fits xs) : Fits (⟨q, e, []⟩ :: xs)
  | clause {q : Char} {xs : List Inset} (hQuote : isQuote q = true) (hRest : Fits xs) :
      Fits (bare 'n' :: ⟨q, [], jsonClause q⟩ :: xs)

/-- A text that may begin behind a backslash. -/
inductive Loose : List Inset → Prop
  | fits {xs : List Inset} (hFits : Fits xs) : Loose xs
  | escaped (c : Char) {xs : List Inset} (hRest : Fits xs) (hJoins : Joins c xs) :
      Loose (bare c :: xs)

/-- In `xs` one place is behind both `cs` and `ds`, endings of the plain and the woven text. -/
def Meet (xs : List Inset) (cs ds : List Char) : Prop :=
  ∃ ys, ys <:+ xs ∧ Loose ys ∧ cs = plain ys ∧ ds = woven ys

theorem Meet.of_suffix {xs ys : List Inset} {cs ds : List Char} (h : Meet ys cs ds)
    (hSuffix : ys <:+ xs) : Meet xs cs ds := by
  obtain ⟨zs, hZs, hLoose, hCs, hDs⟩ := h
  exact ⟨zs, hZs.trans hSuffix, hLoose, hCs, hDs⟩

theorem Meet.cons {x : Inset} {xs : List Inset} {cs ds : List Char} (h : Meet xs cs ds) :
    Meet (x :: xs) cs ds :=
  h.of_suffix (List.suffix_cons x xs)

theorem Meet.here {xs : List Inset} (h : Loose xs) : Meet xs (plain xs) (woven xs) :=
  ⟨xs, List.suffix_refl xs, h, rfl, rfl⟩

theorem joins_of_ne {c : Char} (hSlash : c ≠ '/') (hStar : c ≠ '*') (xs : List Inset) :
    Joins c xs :=
  fun _ _ _ => ⟨hSlash, hStar⟩

theorem joins_bare (c d : Char) (xs : List Inset) : Joins c (bare d :: xs) := by
  rintro x hX hFront
  cases hX
  cases hFront

theorem ending_head {e : List Char} (h : e ∈ endings) :
    e.head? = some '.' ∨ e.head? = some '/' := by
  revert e
  decide

theorem ending_chars {e : List Char} (h : e ∈ endings) :
    ∀ c ∈ e, c ≠ '\\' ∧ c ≠ '\n' ∧ c ≠ '*' ∧ c ≠ '`' ∧ c ≠ '$' ∧ isQuote c = false := by
  revert e
  decide

theorem clause_chars {q : Char} (h : isQuote q = true) :
    ∀ c ∈ jsonClause q, c ≠ '\\' ∧ c ≠ '\n' ∧ c ≠ '*' ∧ c ≠ '`' ∧ c ≠ '$' ∧
      (isQuote c = true → c = q) := by
  simp only [isQuote, Bool.or_eq_true, beq_iff_eq] at h
  rcases h with rfl | rfl <;> decide

/-- A character that no ending begins with and that is no quote begins both texts or neither. -/
theorem Fits.head?_woven {xs : List Inset} (h : Fits xs) {d : Char} (hDot : d ≠ '.')
    (hSlash : d = '/' → ∀ x ∈ xs.head?, x.front.head? ≠ some '/') (hQuote : isQuote d = false) :
    (woven xs).head? = some d ↔ (plain xs).head? = some d := by
  cases h with
  | nil => rfl
  | last => rfl
  | escape c hRest hJoins => rfl
  | char hPlain hRest hJoins => rfl
  | clause hQ hRest => rfl
  | @ending q e xs hQ hEnding hRest =>
    rw [woven_ending]
    constructor
    · intro hHead
      rcases ending_head hEnding with hE | hE
      · rw [List.head?_append, hE] at hHead
        exact absurd (Option.some.inj hHead).symm hDot
      · rw [List.head?_append, hE] at hHead
        exact absurd hE (hSlash (Option.some.inj hHead).symm _ rfl)
    · intro hHead
      obtain rfl := Option.some.inj hHead
      dsimp only at hQuote
      rw [hQ] at hQuote
      cases hQuote

/-- What stands behind a character other than a quote, a backslash and `n` that begins a text. -/
theorem Fits.exists_cons {xs : List Inset} (h : Fits xs) {d : Char} (hQuote : isQuote d = false)
    (hPlain : d ≠ '\\') (hN : d ≠ 'n') (hHead : (plain xs).head? = some d) :
    ∃ ys, xs = bare d :: ys ∧ Fits ys := by
  cases h with
  | nil => cases hHead
  | last => exact absurd (Option.some.inj hHead).symm hPlain
  | escape c hRest hJoins => exact absurd (Option.some.inj hHead).symm hPlain
  | char hC hRest hJoins =>
    obtain rfl := Option.some.inj hHead
    exact ⟨_, rfl, hRest⟩
  | clause hQ hRest => exact absurd (Option.some.inj hHead).symm hN
  | ending hQ hEnding hRest =>
    obtain rfl := Option.some.inj hHead
    dsimp only at hQuote
    rw [hQ] at hQuote
    cases hQuote

theorem ne_line_of_isQuote {q : Char} (h : isQuote q = true) : q ≠ '\n' := by
  rintro rfl
  cases h

section Comments

theorem afterLine_cons_of_ne {c : Char} (h : c ≠ '\n') (cs : List Char) :
    afterLine (c :: cs) = afterLine cs := by
  simp [afterLine, h]

theorem afterLine_line (cs : List Char) : afterLine ('\n' :: cs) = '\n' :: cs := by
  simp [afterLine]

theorem afterLine_pass {cs : List Char} (h : ∀ c ∈ cs, c ≠ '\n') (rest : List Char) :
    afterLine (cs ++ rest) = afterLine rest := by
  apply List.dropWhile_append_of_pos
  intro c hC
  simpa using h c hC

theorem afterLine_over {c : Char} {xs : List Inset} (hRest : Fits xs) (hJoins : Joins c xs)
    (ih : Meet xs (afterLine (plain xs)) (afterLine (woven xs))) :
    Meet (bare c :: xs) (afterLine (c :: plain xs)) (afterLine (c :: woven xs)) := by
  by_cases hLine : c = '\n'
  · rw [hLine, afterLine_line, afterLine_line]
    exact .here (.escaped '\n' hRest (hLine ▸ hJoins))
  · rw [afterLine_cons_of_ne hLine, afterLine_cons_of_ne hLine]
    exact ih.cons

theorem Fits.afterLine_meet {xs : List Inset} (h : Fits xs) :
    Meet xs (afterLine (plain xs)) (afterLine (woven xs)) := by
  induction h with
  | nil => exact .here (.fits .nil)
  | last => exact ⟨[], List.nil_suffix, .fits .nil, rfl, rfl⟩
  | escape c hRest hJoins ih =>
    rw [plain_cons, woven_bare, bare_char, afterLine_cons_of_ne (by decide),
      afterLine_cons_of_ne (by decide)]
    exact (afterLine_over hRest hJoins ih).cons
  | char hPlain hRest hJoins ih => exact afterLine_over hRest hJoins ih
  | ending hQuote hEnding hRest ih =>
    rw [woven_ending, plain_inset, afterLine_pass fun c hC => (ending_chars hEnding c hC).2.1,
      afterLine_cons_of_ne (ne_line_of_isQuote hQuote),
      afterLine_cons_of_ne (ne_line_of_isQuote hQuote)]
    exact ih.cons
  | clause hQuote hRest ih =>
    rw [woven_bare, woven_clause, plain_cons, plain_inset, bare_char,
      afterLine_cons_of_ne (by decide), afterLine_cons_of_ne (ne_line_of_isQuote hQuote),
      afterLine_cons_of_ne (by decide), afterLine_cons_of_ne (ne_line_of_isQuote hQuote),
      afterLine_pass fun c hC => (clause_chars hQuote c hC).2.1]
    exact ih.cons.cons

theorem afterBlock_pass {cs : List Char} (h : ∀ c ∈ cs, c ≠ '*') (rest : List Char) :
    afterBlock (cs ++ rest) = afterBlock rest := by
  induction cs with
  | nil => rfl
  | cons c cs ih =>
    rw [List.forall_mem_cons] at h
    rw [List.cons_append, afterBlock_cons_of_ne h.1, ih h.2]

/-- Behind a slash or a star both texts have the same reason to go on. -/
theorem head?_of_joins {c d : Char} {xs : List Inset} (hRest : Fits xs) (hJoins : Joins c xs)
    (hC : c = '/' ∨ c = '*') (hD : d = '/' ∨ d = '*') :
    (woven xs).head? = some d ↔ (plain xs).head? = some d := by
  apply hRest.head?_woven
  · rcases hD with rfl | rfl <;> decide
  · rintro - x hX hFront
    obtain ⟨hSlash, hStar⟩ := hJoins x hX hFront
    rcases hC with rfl | rfl
    · exact hSlash rfl
    · exact hStar rfl
  · rcases hD with rfl | rfl <;> rfl

theorem afterBlock_over {c : Char} {xs : List Inset} (hRest : Fits xs) (hJoins : Joins c xs)
    (ih : Meet xs (afterBlock (plain xs)) (afterBlock (woven xs))) :
    Meet (bare c :: xs) (afterBlock (c :: plain xs)) (afterBlock (c :: woven xs)) := by
  by_cases hStar : c = '*'
  · subst hStar
    have hHead := head?_of_joins hRest hJoins (Or.inr rfl) (d := '/') (Or.inl rfl)
    by_cases hSlash : (plain xs).head? = some '/'
    · obtain ⟨ys, rfl, hYs⟩ := hRest.exists_cons rfl (by decide) (by decide) hSlash
      exact (Meet.here (.fits hYs)).cons.cons
    · rw [afterBlock_cons_of_next hSlash, afterBlock_cons_of_next (mt hHead.mp hSlash)]
      exact ih.cons
  · rw [afterBlock_cons_of_ne hStar, afterBlock_cons_of_ne hStar]
    exact ih.cons

theorem ne_star_of_isQuote {q : Char} (h : isQuote q = true) : q ≠ '*' := by
  rintro rfl
  cases h

theorem Fits.afterBlock_meet {xs : List Inset} (h : Fits xs) :
    Meet xs (afterBlock (plain xs)) (afterBlock (woven xs)) := by
  induction h with
  | nil => exact .here (.fits .nil)
  | last => exact ⟨[], List.nil_suffix, .fits .nil, rfl, rfl⟩
  | escape c hRest hJoins ih =>
    rw [plain_cons, woven_bare, bare_char, afterBlock_cons_of_ne (by decide),
      afterBlock_cons_of_ne (by decide)]
    exact (afterBlock_over hRest hJoins ih).cons
  | char hPlain hRest hJoins ih => exact afterBlock_over hRest hJoins ih
  | ending hQuote hEnding hRest ih =>
    rw [woven_ending, plain_inset, afterBlock_pass fun c hC => (ending_chars hEnding c hC).2.2.1,
      afterBlock_cons_of_ne (ne_star_of_isQuote hQuote),
      afterBlock_cons_of_ne (ne_star_of_isQuote hQuote)]
    exact ih.cons
  | clause hQuote hRest ih =>
    rw [woven_bare, woven_clause, plain_cons, plain_inset, bare_char,
      afterBlock_cons_of_ne (by decide), afterBlock_cons_of_ne (ne_star_of_isQuote hQuote),
      afterBlock_cons_of_ne (by decide), afterBlock_cons_of_ne (ne_star_of_isQuote hQuote),
      afterBlock_pass fun c hC => (clause_chars hQuote c hC).2.2.1]
    exact ih.cons.cons

theorem afterComment?_over {c : Char} {xs : List Inset} (hRest : Fits xs) (hJoins : Joins c xs) :
    afterComment? (c :: plain xs) = none ∧ afterComment? (c :: woven xs) = none ∨
      ∃ cs ds, afterComment? (c :: plain xs) = some cs ∧ afterComment? (c :: woven xs) = some ds ∧
        Meet xs cs ds := by
  by_cases hFirst : c = '/'
  · subst hFirst
    have hSlash := head?_of_joins hRest hJoins (Or.inl rfl) (d := '/') (Or.inl rfl)
    have hStar := head?_of_joins hRest hJoins (Or.inl rfl) (d := '*') (Or.inr rfl)
    by_cases hLine : (plain xs).head? = some '/'
    · obtain ⟨ys, rfl, hYs⟩ := hRest.exists_cons rfl (by decide) (by decide) hLine
      exact Or.inr ⟨_, _, rfl, rfl, hYs.afterLine_meet.cons⟩
    · by_cases hBlock : (plain xs).head? = some '*'
      · obtain ⟨ys, rfl, hYs⟩ := hRest.exists_cons rfl (by decide) (by decide) hBlock
        exact Or.inr ⟨_, _, rfl, rfl, hYs.afterBlock_meet.cons⟩
      · exact Or.inl ⟨afterComment?_of_next hLine hBlock,
          afterComment?_of_next (mt hSlash.mp hLine) (mt hStar.mp hBlock)⟩
  · exact Or.inl ⟨afterComment?_of_ne hFirst _, afterComment?_of_ne hFirst _⟩

end Comments

section Strings

/-- As `Meet`, or just in front of a clause that is put behind the quote `q`. -/
def MeetBehind (q : Char) (xs : List Inset) (cs ds : List Char) : Prop :=
  ∃ ys, ys <:+ xs ∧ Loose ys ∧ cs = plain ys ∧
    (ds = woven ys ∨ ds = jsonClause q ++ woven ys ∧ ⟨q, [], jsonClause q⟩ :: ys <:+ xs)

theorem MeetBehind.cons {q : Char} {x : Inset} {xs : List Inset} {cs ds : List Char}
    (h : MeetBehind q xs cs ds) : MeetBehind q (x :: xs) cs ds := by
  obtain ⟨ys, hYs, hLoose, hCs, hDs⟩ := h
  have hCons := List.suffix_cons x xs
  exact ⟨ys, hYs.trans hCons, hLoose, hCs, hDs.imp_right fun h => ⟨h.1, h.2.trans hCons⟩⟩

theorem Meet.behind {q : Char} {xs : List Inset} {cs ds : List Char} (h : Meet xs cs ds) :
    MeetBehind q xs cs ds := by
  obtain ⟨ys, hYs, hLoose, hCs, hDs⟩ := h
  exact ⟨ys, hYs, hLoose, hCs, Or.inl hDs⟩

/-- A string is closed in both texts or in neither, and ends at the same place. -/
def StringMeet (q : Char) (xs : List Inset) (r s : Option (List Char) × List Char) : Prop :=
  s.1.isSome = r.1.isSome ∧ MeetBehind q xs r.2 s.2

theorem readQuoted_pass {q : Char} {cs : List Char}
    (h : ∀ c ∈ cs, c ≠ '\\' ∧ c ≠ q ∧ c ≠ '\n') (rest : List Char) :
    readQuoted q (cs ++ rest) =
      ((readQuoted q rest).1.map (cs ++ ·), (readQuoted q rest).2) := by
  induction cs with
  | nil => simp
  | cons c cs ih =>
    rw [List.forall_mem_cons] at h
    obtain ⟨⟨hEscape, hQuote, hLine⟩, hRest⟩ := h
    rw [List.cons_append, readQuoted_cons_of_ne hEscape hQuote hLine, ih hRest]
    simp [Function.comp_def]

theorem StringMeet.cons {q c : Char} {xs : List Inset} {cs ds : List Char}
    (hPlain : c ≠ '\\') (hQuote : c ≠ q) (hLine : c ≠ '\n') {x : Inset}
    (h : StringMeet q xs (readQuoted q cs) (readQuoted q ds)) :
    StringMeet q (x :: xs) (readQuoted q (c :: cs)) (readQuoted q (c :: ds)) := by
  rw [readQuoted_cons_of_ne hPlain hQuote hLine, readQuoted_cons_of_ne hPlain hQuote hLine]
  exact ⟨by simpa using h.1, h.2.cons⟩

theorem StringMeet.pass {q : Char} {xs : List Inset} {front : List Char}
    {r : Option (List Char) × List Char} {ds : List Char}
    (hFront : ∀ c ∈ front, c ≠ '\\' ∧ c ≠ q ∧ c ≠ '\n')
    (h : StringMeet q xs r (readQuoted q ds)) :
    StringMeet q xs r (readQuoted q (front ++ ds)) := by
  rw [readQuoted_pass hFront]
  exact ⟨by simpa using h.1, h.2⟩

theorem StringMeet.closed {q : Char} (hQuote : isQuote q = true) {xs : List Inset}
    {cs ds : List Char} (h : MeetBehind q xs cs ds) :
    StringMeet q xs (readQuoted q (q :: cs)) (readQuoted q (q :: ds)) := by
  have hPlain := ne_backslash_of_isQuote hQuote
  rw [readQuoted_cons_quote hPlain, readQuoted_cons_quote hPlain]
  exact ⟨rfl, h⟩

theorem isQuote_ending_ne {q : Char} (hQuote : isQuote q = true) {e : List Char}
    (hEnding : e ∈ endings) : ∀ c ∈ e, c ≠ '\\' ∧ c ≠ q ∧ c ≠ '\n' := by
  intro c hC
  obtain ⟨hEscape, hLine, -, -, -, hNoQuote⟩ := ending_chars hEnding c hC
  refine ⟨hEscape, ?_, hLine⟩
  rintro rfl
  rw [hQuote] at hNoQuote
  cases hNoQuote

theorem Fits.string_meet {q : Char} (hQuote : isQuote q = true) {xs : List Inset} (h : Fits xs) :
    StringMeet q xs (readQuoted q (plain xs)) (readQuoted q (woven xs)) := by
  induction h with
  | nil => exact ⟨rfl, (Meet.here (.fits .nil)).behind⟩
  | last => exact ⟨rfl, [], List.nil_suffix, .fits .nil, rfl, Or.inl rfl⟩
  | escape c hRest hJoins ih =>
    rw [plain_cons, plain_cons, woven_bare, woven_bare, bare_char, bare_char, readQuoted, readQuoted]
    exact ⟨by simpa using ih.1, ih.2.cons.cons⟩
  | @char c xs hPlain hRest hJoins ih =>
    rw [plain_cons, woven_bare, bare_char]
    by_cases hClose : c = q
    · subst hClose
      exact .closed hQuote (Meet.here (.fits hRest)).cons.behind
    · by_cases hLine : c = '\n'
      · subst hLine
        rw [readQuoted_cons_line (Ne.symm hClose), readQuoted_cons_line (Ne.symm hClose)]
        exact ⟨rfl, (Meet.here (.fits (.char hPlain hRest hJoins))).behind⟩
      · exact ih.cons hPlain hClose hLine
  | @ending q' e xs hQuote' hEnding hRest ih =>
    rw [plain_inset, woven_ending]
    apply StringMeet.pass (isQuote_ending_ne hQuote hEnding)
    by_cases hClose : q' = q
    · subst hClose
      exact .closed hQuote (Meet.here (.fits hRest)).cons.behind
    · exact ih.cons (ne_backslash_of_isQuote hQuote') hClose (ne_line_of_isQuote hQuote')
  | @clause q' xs hQuote' hRest ih =>
    have hN : 'n' ≠ q := by
      rintro rfl
      cases hQuote
    rw [plain_cons, plain_inset, woven_bare, woven_clause, bare_char]
    by_cases hClose : q' = q
    · subst hClose
      have hBehind : MeetBehind q' (⟨q', [], jsonClause q'⟩ :: xs) (plain xs)
          (jsonClause q' ++ woven xs) :=
        ⟨xs, List.suffix_cons _ _, .fits hRest, rfl, Or.inr ⟨rfl, List.suffix_refl _⟩⟩
      exact (StringMeet.closed hQuote hBehind).cons (by decide) hN (by decide)
    · have hPass : ∀ c ∈ jsonClause q', c ≠ '\\' ∧ c ≠ q ∧ c ≠ '\n' := by
        intro c hC
        obtain ⟨hEscape, hLine, -, -, -, hSame⟩ := clause_chars hQuote' c hC
        refine ⟨hEscape, ?_, hLine⟩
        rintro rfl
        exact hClose (hSame hQuote).symm
      exact ((StringMeet.pass hPass ih).cons (ne_backslash_of_isQuote hQuote') hClose
        (ne_line_of_isQuote hQuote')).cons (by decide) hN (by decide)

end Strings

section Open

variable (outer : List Opener)

theorem afterOpen_template_pass {cs : List Char} (h : ∀ c ∈ cs, c ≠ '\\' ∧ c ≠ '`' ∧ c ≠ '$')
    (rest : List Char) :
    afterOpen (.template :: outer) (cs ++ rest) = afterOpen (.template :: outer) rest := by
  induction cs with
  | nil => rfl
  | cons c cs ih =>
    rw [List.forall_mem_cons] at h
    obtain ⟨⟨hEscape, hTick, hDollar⟩, hRest⟩ := h
    rw [List.cons_append, afterOpen, if_neg hEscape, if_neg hTick,
      if_neg (fun hBoth => hDollar hBoth.1), ih hRest]

theorem afterOpen_brace_pass {cs : List Char} (h : ∀ c ∈ cs, isBraceChar c = true)
    (rest : List Char) :
    afterOpen (.brace :: outer) (cs ++ rest) = afterOpen (.brace :: outer) rest := by
  induction cs with
  | nil => rfl
  | cons c cs ih =>
    rw [List.forall_mem_cons] at h
    rw [List.cons_append, afterOpen_char outer h.1, ih h.2]

theorem afterOpen_quote {q : Char} (hQuote : isQuote q = true) (cs : List Char) :
    afterOpen (.brace :: outer) (q :: cs) = afterOpen (.brace :: outer) (readQuoted q cs).2 := by
  rw [afterOpen_of_no_comment (afterComment?_of_ne (isQuote_spec hQuote).2.2.1 cs), if_pos hQuote]

theorem afterOpen_ending {e : List Char} (h : e ∈ endings) (rest : List Char) :
    afterOpen (.brace :: outer) (e ++ rest) = afterOpen (.brace :: outer) rest := by
  have hSlash : ∀ cs, afterOpen (.brace :: outer) ('/' :: 'i' :: cs) =
      afterOpen (.brace :: outer) ('i' :: cs) := by
    intro cs
    exact afterOpen_of_no_comment rfl
  have hIndex : ∀ cs : List Char, (∀ c ∈ cs, isBraceChar c = true) →
      afterOpen (.brace :: outer) ('/' :: 'i' :: cs ++ rest) =
        afterOpen (.brace :: outer) rest := by
    intro cs hCs
    rw [List.cons_append, List.cons_append, hSlash, afterOpen_char outer rfl,
      afterOpen_brace_pass outer hCs]
  simp only [endings, List.mem_cons, List.not_mem_nil, or_false] at h
  rcases h with rfl | rfl | rfl | rfl
  · exact afterOpen_brace_pass outer (by decide) rest
  · exact afterOpen_brace_pass outer (by decide) rest
  · exact hIndex "ndex.js".toList (by decide)
  · exact hIndex "ndex.jsx".toList (by decide)

theorem jsonClause_append (q : Char) (rest : List Char) :
    jsonClause q ++ rest = " with ".toList ++ '{' :: (" type: ".toList ++
      q :: ("json".toList ++ q :: (" ".toList ++ '}' :: rest))) := by
  unfold jsonClause
  simp only [List.append_assoc, List.cons_append]
  rfl

theorem isQuotedBody_json {q : Char} (hQuote : isQuote q = true) :
    IsQuotedBody q "json".toList := by
  have hPlain : unescaped "json".toList = ['j', 's', 'o', 'n'] := by simp [unescaped]
  intro c hC
  rw [hPlain] at hC
  simp only [isQuote, Bool.or_eq_true, beq_iff_eq] at hQuote
  revert c
  rcases hQuote with rfl | rfl <;> decide

theorem afterOpen_json {q : Char} (hQuote : isQuote q = true) (rest : List Char) :
    afterOpen (.brace :: outer) (" type: ".toList ++
      q :: ("json".toList ++ q :: (" ".toList ++ '}' :: rest))) = afterOpen outer rest := by
  have hString := readQuoted_append (ne_backslash_of_isQuote hQuote) (isQuotedBody_json hQuote)
    (" ".toList ++ '}' :: rest)
  have hPass := fun (cs : List Char) (h : ∀ c ∈ cs, isBraceChar c = true) =>
    afterOpen_brace_pass outer h
  rw [hPass " type: ".toList (by decide), afterOpen_quote outer hQuote, hString,
    hPass " ".toList (by decide), afterOpen_close]

/-- A clause is a block of its own. -/
theorem afterOpen_clause {q : Char} (hQuote : isQuote q = true) (rest : List Char) :
    afterOpen (.brace :: outer) (jsonClause q ++ rest) = afterOpen (.brace :: outer) rest := by
  have hWith : ∀ c ∈ " with ".toList, isBraceChar c = true := by decide
  have hBlock : ∀ cs, afterOpen (.brace :: outer) ('{' :: cs) =
      afterOpen (.brace :: .brace :: outer) cs := by
    intro cs
    exact afterOpen_of_no_comment rfl
  rw [jsonClause_append, afterOpen_brace_pass outer hWith, hBlock, afterOpen_json _ hQuote]

/-- Where the quote in front of a clause opens a string, the quotes of the clause leave one open. -/
theorem afterOpen_inside_clause {q : Char} (hQuote : isQuote q = true) (rest : List Char) :
    afterOpen (.brace :: outer) (q :: (jsonClause q ++ rest)) =
      afterOpen (.brace :: outer) (readQuoted q rest).2 := by
  have hPass : ∀ cs : List Char, (∀ c ∈ cs, c ≠ '\\' ∧ c ≠ '\n' ∧ isQuote c = false) → ∀ ds,
      (readQuoted q (cs ++ ds)).2 = (readQuoted q ds).2 := by
    intro cs hCs ds
    rw [readQuoted_pass]
    intro c hC
    obtain ⟨hEscape, hLine, hNoQuote⟩ := hCs c hC
    refine ⟨hEscape, ?_, hLine⟩
    rintro rfl
    rw [hQuote] at hNoQuote
    cases hNoQuote
  have hFirst : (readQuoted q (jsonClause q ++ rest)).2 =
      "json".toList ++ q :: (" \x7d".toList ++ rest) := by
    unfold jsonClause
    simp only [List.append_assoc, List.cons_append]
    rw [hPass _ (by decide), readQuoted_cons_quote (ne_backslash_of_isQuote hQuote)]
  have hPlain : ∀ c ∈ "json".toList, isBraceChar c = true := by decide
  rw [afterOpen_quote outer hQuote, hFirst, afterOpen_brace_pass outer hPlain, afterOpen_quote outer hQuote,
    hPass _ (by decide)]

/-- What a reader of `opened` may begin with: a template is read from an unescaped place. -/
def Entry : List Opener → List Inset → Prop
  | .template :: _, xs => Fits xs
  | _, xs => Loose xs

theorem Fits.entry {xs : List Inset} (h : Fits xs) (opened : List Opener) : Entry opened xs := by
  unfold Entry
  split
  · exact h
  · exact .fits h

/-- In braces one character is read, if all later text is read alike. -/
theorem afterOpen_over {c : Char} {xs : List Inset} (hRest : Fits xs) (hJoins : Joins c xs)
    (ih : ∀ ys opened, ys.length ≤ xs.length → Entry opened ys →
      Meet ys (afterOpen opened (plain ys)) (afterOpen opened (woven ys))) :
    Meet (bare c :: xs) (afterOpen (.brace :: outer) (c :: plain xs))
      (afterOpen (.brace :: outer) (c :: woven xs)) := by
  have hGo := fun opened => (ih xs opened (Nat.le_refl _) (hRest.entry opened)).cons (x := bare c)
  rcases afterComment?_over hRest hJoins with ⟨hNone, hNone'⟩ | ⟨cs, ds, hSome, hSome', hMeet⟩
  · rw [afterOpen_of_no_comment hNone, afterOpen_of_no_comment hNone']
    split
    -- behind the closing quote of a string a clause may stand, which is a block of its own
    · rename_i hQuote
      obtain ⟨-, ys, hYs, hLoose, hPlain, hWoven⟩ := hRest.string_meet hQuote
      have hBehind := (ih ys (.brace :: outer) hYs.length_le hLoose).of_suffix
        (hYs.trans (List.suffix_cons (bare c) xs))
      rw [hPlain]
      rcases hWoven with hWoven | ⟨hWoven, -⟩
      · rw [hWoven]
        exact hBehind
      · rw [hWoven, afterOpen_clause outer hQuote]
        exact hBehind
    · split
      · exact hGo _
      · split
        · exact hGo _
        · split
          · exact hGo _
          · exact hGo _
  · obtain ⟨ys, hYs, hLoose, rfl, rfl⟩ := hMeet
    rw [afterOpen_of_comment hSome, afterOpen_of_comment hSome']
    exact (ih ys (.brace :: outer) hYs.length_le hLoose).of_suffix
      (hYs.trans (List.suffix_cons (bare c) xs))

theorem afterOpen_template_char {c : Char} {cs : List Char} (hEscape : c ≠ '\\') (hTick : c ≠ '`')
    (hOpen : ¬(c = '$' ∧ cs.head? = some '{')) :
    afterOpen (.template :: outer) (c :: cs) = afterOpen (.template :: outer) cs := by
  rw [afterOpen, if_neg hEscape, if_neg hTick, if_neg hOpen]

theorem afterOpen_template_quote {q : Char} (hQuote : isQuote q = true) (cs : List Char) :
    afterOpen (.template :: outer) (q :: cs) = afterOpen (.template :: outer) cs := by
  apply afterOpen_template_char outer (ne_backslash_of_isQuote hQuote) (isQuote_spec hQuote).2.2.2.2.2
  rintro ⟨rfl, -⟩
  cases hQuote

section Step

variable {xs : List Inset} (ih : ∀ ys opened, ys.length < xs.length → Entry opened ys →
  Meet ys (afterOpen opened (plain ys)) (afterOpen opened (woven ys)))
include ih

theorem Fits.template_meet (h : Fits xs) :
    Meet xs (afterOpen (.template :: outer) (plain xs))
      (afterOpen (.template :: outer) (woven xs)) := by
  cases h with
  | nil =>
    rw [plain_nil, woven_nil, afterOpen]
    exact .here (.fits .nil)
  | last =>
    have hEnd : afterOpen (.template :: outer) ['\\'] = [] := by
      rw [afterOpen, if_pos rfl, List.drop_nil, afterOpen]
    exact ⟨[], List.nil_suffix, .fits .nil, hEnd, hEnd⟩
  | @escape c ys hRest hJoins =>
    have hEscape : ∀ cs, afterOpen (.template :: outer) ('\\' :: c :: cs) =
        afterOpen (.template :: outer) cs := by
      intro cs
      rw [afterOpen, if_pos rfl, List.drop_one, List.tail_cons]
    rw [plain_cons, plain_cons, woven_bare, woven_bare, bare_char, bare_char, hEscape, hEscape]
    exact (ih ys (.template :: outer) (by simp only [List.length_cons]; omega) hRest).cons.cons
  | @char c ys hPlain hRest hJoins =>
    have hGo := fun opened => (ih ys opened (by simp) (hRest.entry opened)).cons (x := bare c)
    have hHead : (woven ys).head? = some '{' ↔ (plain ys).head? = some '{' :=
      hRest.head?_woven (by decide) (fun h => absurd h (by decide)) rfl
    rw [plain_cons, woven_bare, bare_char]
    by_cases hTick : c = '`'
    · rw [afterOpen, if_neg hPlain, if_pos hTick, afterOpen, if_neg hPlain, if_pos hTick]
      exact hGo outer
    · by_cases hOpen : c = '$' ∧ (plain ys).head? = some '{'
      · obtain ⟨hDollar, hBrace⟩ := hOpen
        rw [afterOpen, if_neg hPlain, if_neg hTick, if_pos ⟨hDollar, hBrace⟩, afterOpen,
          if_neg hPlain, if_neg hTick, if_pos ⟨hDollar, hHead.mpr hBrace⟩]
        obtain ⟨zs, rfl, hZs⟩ := hRest.exists_cons rfl (by decide) (by decide) hBrace
        exact (ih zs _ (by simp only [List.length_cons]; omega) (hZs.entry _)).cons.cons
      · have hOpen' : ¬(c = '$' ∧ (woven ys).head? = some '{') := by rwa [hHead]
        rw [afterOpen_template_char outer hPlain hTick hOpen,
          afterOpen_template_char outer hPlain hTick hOpen']
        exact hGo _
  | @ending q e ys hQuote hEnding hRest =>
    have hPass : ∀ c ∈ e, c ≠ '\\' ∧ c ≠ '`' ∧ c ≠ '$' := by
      intro c hC
      obtain ⟨hEscape, -, -, hTick, hDollar, -⟩ := ending_chars hEnding c hC
      exact ⟨hEscape, hTick, hDollar⟩
    rw [plain_inset, woven_ending, afterOpen_template_pass outer hPass,
      afterOpen_template_quote outer hQuote, afterOpen_template_quote outer hQuote]
    exact (ih ys (.template :: outer) (by simp) hRest).cons
  | @clause q ys hQuote hRest =>
    have hPass : ∀ c ∈ jsonClause q, c ≠ '\\' ∧ c ≠ '`' ∧ c ≠ '$' := by
      intro c hC
      obtain ⟨hEscape, -, -, hTick, hDollar, -⟩ := clause_chars hQuote c hC
      exact ⟨hEscape, hTick, hDollar⟩
    have hN : ∀ cs, afterOpen (.template :: outer) ('n' :: cs) =
        afterOpen (.template :: outer) cs :=
      fun cs => afterOpen_template_char outer (by decide) (by decide) (by simp)
    rw [plain_cons, plain_inset, woven_bare, woven_clause, bare_char, hN, hN,
      afterOpen_template_quote outer hQuote, afterOpen_template_quote outer hQuote,
      afterOpen_template_pass outer hPass]
    exact (ih ys (.template :: outer) (by simp only [List.length_cons]; omega) hRest).cons.cons

theorem Fits.brace_meet (h : Fits xs) :
    Meet xs (afterOpen (.brace :: outer) (plain xs)) (afterOpen (.brace :: outer) (woven xs)) := by
  cases h with
  | nil =>
    rw [plain_nil, woven_nil, afterOpen]
    exact .here (.fits .nil)
  | last =>
    have hEnd : afterOpen (.brace :: outer) ['\\'] = [] := by
      rw [afterOpen_char outer rfl, afterOpen]
    exact ⟨[], List.nil_suffix, .fits .nil, hEnd, hEnd⟩
  | @escape c ys hRest hJoins =>
    rw [plain_cons, woven_bare, bare_char, afterOpen_char outer rfl, afterOpen_char outer rfl]
    exact (ih (bare c :: ys) (.brace :: outer) (by simp) (Loose.escaped c hRest hJoins)).cons
  | @char c ys hPlain hRest hJoins =>
    exact afterOpen_over outer hRest hJoins fun zs opened hZs hEntry =>
      ih zs opened (by simp only [List.length_cons]; omega) hEntry
  | @ending q e ys hQuote hEnding hRest =>
    obtain ⟨-, zs, hZs, hLoose, hPlain, hWoven⟩ := hRest.string_meet hQuote
    have hBehind := (ih zs (.brace :: outer) (Nat.lt_succ_of_le hZs.length_le) hLoose).of_suffix
      (hZs.trans (List.suffix_cons ⟨q, e, []⟩ ys))
    rw [plain_inset, woven_ending, afterOpen_ending outer hEnding, afterOpen_quote outer hQuote,
      afterOpen_quote outer hQuote, hPlain]
    rcases hWoven with hWoven | ⟨hWoven, -⟩
    · rw [hWoven]
      exact hBehind
    · rw [hWoven, afterOpen_clause outer hQuote]
      exact hBehind
  | @clause q ys hQuote hRest =>
    obtain ⟨-, zs, hZs, hLoose, hPlain, hWoven⟩ := hRest.string_meet hQuote
    have hLength := hZs.length_le
    have hBehind := (ih zs (.brace :: outer) (by simp only [List.length_cons]; omega) hLoose).of_suffix
      ((hZs.trans (List.suffix_cons ⟨q, [], jsonClause q⟩ ys)).trans
        (List.suffix_cons (bare 'n') _))
    have hN : ∀ cs, afterOpen (.brace :: outer) ('n' :: cs) = afterOpen (.brace :: outer) cs :=
      fun cs => afterOpen_char outer rfl cs
    rw [plain_cons, plain_inset, woven_bare, woven_clause, bare_char, hN, hN,
      afterOpen_quote outer hQuote, hPlain]
    rw [afterOpen_inside_clause outer hQuote]
    rcases hWoven with hWoven | ⟨hWoven, -⟩
    · rw [hWoven]
      exact hBehind
    · rw [hWoven, afterOpen_clause outer hQuote]
      exact hBehind

end Step

theorem afterOpen_meet (opened : List Opener) {xs : List Inset} (h : Entry opened xs) :
    Meet xs (afterOpen opened (plain xs)) (afterOpen opened (woven xs)) := by
  induction hLength : xs.length using Nat.strongRecOn generalizing opened xs with
  | ind n ih =>
    subst hLength
    cases opened with
    | nil =>
      rw [afterOpen, afterOpen]
      exact .here h
    | cons o outer =>
      cases o with
      | template =>
        exact Fits.template_meet outer (fun ys opened hYs hEntry =>
          ih ys.length hYs opened hEntry rfl) h
      | brace =>
        cases h with
        | escaped c hRest hJoins =>
          exact afterOpen_over outer hRest hJoins fun ys opened hYs hEntry =>
            ih ys.length (Nat.lt_succ_of_le hYs) opened hEntry rfl
        | fits hFits =>
          exact Fits.brace_meet outer (fun ys opened hYs hEntry =>
            ih ys.length hYs opened hEntry rfl) hFits

end Open

end ExplicitModules.Source
