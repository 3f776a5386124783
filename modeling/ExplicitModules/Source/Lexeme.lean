/-!
# Lexemes that hold no declaration

Each function takes the text from some point on and returns the text behind one lexeme: a comment,
a quoted string, a regular expression, a template or a block in braces. The result is always an
ending of the argument, which is what the readers built on these functions terminate by.
-/
namespace ExplicitModules.Source
set_option autoImplicit false

def isSpace (c : Char) : Bool :=
  c == ' ' || c == '\t' || c == '\n' || c == '\x0c' || c == '\r'

/-- Letters, digits, underscore, dollar and everything outside ASCII make up words. -/
def isWordChar (c : Char) : Bool :=
  c.isAlphanum || c == '_' || c == '$' || decide (0x80 ≤ c.toNat)

def isQuote (c : Char) : Bool :=
  c == '\'' || c == '"'

/-- A line comment ends in front of its line end. -/
def afterLine (cs : List Char) : List Char :=
  cs.dropWhile (· != '\n')

/-- The text behind the `*/` that closes a block comment, or nothing if it is never closed. -/
def afterBlock : List Char → List Char
  | [] => []
  | '*' :: '/' :: cs => cs
  | _ :: cs => afterBlock cs

def afterComment? : List Char → Option (List Char)
  | '/' :: '/' :: cs => some (afterLine cs)
  | '/' :: '*' :: cs => some (afterBlock cs)
  | _ => none

/-- Reads on from an opening quote `q`: the body, if a closing quote is found, and the text from
there on. A string ends unclosed in front of a line end that no backslash precedes. -/
def readQuoted (q : Char) : List Char → Option (List Char) × List Char
  | [] => (none, [])
  | ['\\'] => (none, [])
  | '\\' :: c :: cs =>
    let (body, rest) := readQuoted q cs
    (body.map fun body => '\\' :: c :: body, rest)
  | c :: cs =>
    if c = q then (some [], cs)
    else if c = '\n' then (none, c :: cs)
    else
      let (body, rest) := readQuoted q cs
      (body.map (c :: ·), rest)

/-- The text behind a regular expression whose opening slash has been read. A slash inside a
character class does not close it, and an unclosed one ends in front of the line end. -/
def afterRegex (inClass : Bool) : List Char → List Char
  | [] => []
  | ['\\'] => []
  | '\\' :: _ :: cs => afterRegex inClass cs
  | '\n' :: cs => '\n' :: cs
  | '[' :: cs => afterRegex true cs
  | ']' :: cs => afterRegex false cs
  | '/' :: cs => if inClass then afterRegex inClass cs else cs.dropWhile Char.isAlpha
  | _ :: cs => afterRegex inClass cs

theorem afterComment?_of_head {cs : List Char} (h : cs.head? ≠ some '/') :
    afterComment? cs = none := by
  unfold afterComment?
  split <;> simp_all

theorem afterComment?_of_ne {c : Char} (h : c ≠ '/') (cs : List Char) :
    afterComment? (c :: cs) = none := by
  unfold afterComment?
  split <;> simp_all

theorem afterComment?_of_next {c : Char} {cs : List Char} (hSlash : cs.head? ≠ some '/')
    (hStar : cs.head? ≠ some '*') : afterComment? (c :: cs) = none := by
  unfold afterComment?
  split <;> simp_all

theorem afterBlock_cons_of_ne {c : Char} (h : c ≠ '*') (cs : List Char) :
    afterBlock (c :: cs) = afterBlock cs := by
  rw [afterBlock.eq_def]
  split <;> simp_all

theorem afterBlock_cons_of_next {c : Char} {cs : List Char} (h : cs.head? ≠ some '/') :
    afterBlock (c :: cs) = afterBlock cs := by
  rw [afterBlock.eq_def]
  split <;> simp_all

/-- A character is no backslash if neither pattern of an escape fits. -/
theorem ne_backslash {c : Char} {cs : List Char} (hLast : c = '\\' → cs = [] → False)
    (hEscape : ∀ d ds, c = '\\' → cs = d :: ds → False) : c ≠ '\\' := by
  rintro rfl
  cases cs with
  | nil => exact hLast rfl rfl
  | cons d ds => exact hEscape d ds rfl rfl

theorem readQuoted_cons_of_ne {q c : Char} (hEscape : c ≠ '\\') (hQuote : c ≠ q) (hLine : c ≠ '\n')
    (cs : List Char) :
    readQuoted q (c :: cs) = ((readQuoted q cs).1.map (c :: ·), (readQuoted q cs).2) := by
  rw [readQuoted.eq_def]
  split <;> simp_all

theorem readQuoted_cons_quote {q : Char} (hEscape : q ≠ '\\') (cs : List Char) :
    readQuoted q (q :: cs) = (some [], cs) := by
  rw [readQuoted.eq_def]
  split <;> simp_all

theorem readQuoted_cons_line {q : Char} (hQuote : q ≠ '\n') (cs : List Char) :
    readQuoted q ('\n' :: cs) = (none, '\n' :: cs) := by
  simp [readQuoted, Ne.symm hQuote]

theorem afterLine_suffix (cs : List Char) : afterLine cs <:+ cs :=
  List.dropWhile_suffix _

theorem afterBlock_suffix (cs : List Char) : afterBlock cs <:+ cs := by
  fun_induction afterBlock cs with
  | case1 => exact List.suffix_refl _
  | case2 cs => exact (List.suffix_cons _ _).trans (List.suffix_cons _ _)
  | case3 _ _ _ ih => exact ih.trans (List.suffix_cons _ _)

theorem afterComment?_suffix {cs rest : List Char} (h : afterComment? cs = some rest) :
    rest <:+ cs ∧ rest.length < cs.length := by
  unfold afterComment? at h
  split at h
  · obtain rfl := Option.some.inj h
    have hRest := afterLine_suffix ‹_›
    refine ⟨hRest.trans ((List.suffix_cons _ _).trans (List.suffix_cons _ _)), ?_⟩
    have hLen := hRest.length_le
    simp only [List.length_cons]
    omega
  · obtain rfl := Option.some.inj h
    have hRest := afterBlock_suffix ‹_›
    refine ⟨hRest.trans ((List.suffix_cons _ _).trans (List.suffix_cons _ _)), ?_⟩
    have hLen := hRest.length_le
    simp only [List.length_cons]
    omega
  · cases h

theorem readQuoted_suffix (q : Char) (cs : List Char) : (readQuoted q cs).2 <:+ cs := by
  fun_induction readQuoted q cs with
  | case1 => exact List.suffix_refl _
  | case2 => exact List.nil_suffix
  | case3 c cs body rest hRead ih =>
    rw [hRead] at ih
    exact ih.trans ((List.suffix_cons _ _).trans (List.suffix_cons _ _))
  | case4 => exact List.suffix_cons _ _
  | case5 => exact List.suffix_refl _
  | case6 c cs _ _ _ _ body rest hRead ih =>
    rw [hRead] at ih
    exact ih.trans (List.suffix_cons _ _)

theorem readQuoted_eq_some {q : Char} {cs body rest : List Char}
    (h : readQuoted q cs = (some body, rest)) : cs = body ++ q :: rest := by
  fun_induction readQuoted q cs generalizing body with
  | case1 => cases h
  | case2 => cases h
  | case3 c cs inner rest' hRead ih =>
    obtain ⟨hBody, rfl⟩ := Prod.mk.inj h
    obtain ⟨inner', rfl, rfl⟩ := Option.map_eq_some_iff.mp hBody
    rw [ih hRead]
    rfl
  | case4 cs =>
    obtain ⟨hBody, rfl⟩ := Prod.mk.inj h
    cases hBody
    rfl
  | case5 => cases h
  | case6 c cs _ _ _ _ inner rest' hRead ih =>
    obtain ⟨hBody, rfl⟩ := Prod.mk.inj h
    obtain ⟨inner', rfl, rfl⟩ := Option.map_eq_some_iff.mp hBody
    rw [ih hRead]
    rfl

theorem afterRegex_suffix (inClass : Bool) (cs : List Char) : afterRegex inClass cs <:+ cs := by
  fun_induction afterRegex inClass cs with
  | case1 => exact List.suffix_refl _
  | case2 => exact List.nil_suffix
  | case3 _ _ _ ih => exact ih.trans ((List.suffix_cons _ _).trans (List.suffix_cons _ _))
  | case4 => exact List.suffix_refl _
  | case5 _ _ ih => exact ih.trans (List.suffix_cons _ _)
  | case6 _ _ ih => exact ih.trans (List.suffix_cons _ _)
  | case7 _ ih => exact ih.trans (List.suffix_cons _ _)
  | case8 => exact (List.dropWhile_suffix _).trans (List.suffix_cons _ _)
  | case9 _ _ _ _ _ _ _ _ _ ih => exact ih.trans (List.suffix_cons _ _)

inductive Opener
  | template
  | brace
deriving DecidableEq, Repr

/-- The text behind everything that is open, innermost first. In a template only a backslash, a
backtick and `${` matter; inside braces comments, strings, templates and braces do. -/
def afterOpen : List Opener → List Char → List Char
  | [], cs => cs
  | _ :: _, [] => []
  | .template :: outer, c :: cs =>
    if c = '\\' then afterOpen (.template :: outer) (cs.drop 1)
    else if c = '`' then afterOpen outer cs
    else if c = '$' ∧ cs.head? = some '{' then afterOpen (.brace :: .template :: outer) (cs.drop 1)
    else afterOpen (.template :: outer) cs
  | .brace :: outer, c :: cs =>
    match _h : afterComment? (c :: cs) with
    | some rest => afterOpen (.brace :: outer) rest
    | none =>
      if isQuote c then afterOpen (.brace :: outer) (readQuoted c cs).2
      else if c = '`' then afterOpen (.template :: .brace :: outer) cs
      else if c = '{' then afterOpen (.brace :: .brace :: outer) cs
      else if c = '}' then afterOpen outer cs
      else afterOpen (.brace :: outer) cs
termination_by _ cs => cs.length
decreasing_by
  · simp only [List.length_cons, List.length_drop]; omega
  · simp
  · simp only [List.length_cons, List.length_drop]; omega
  · simp
  · exact (afterComment?_suffix _h).2
  · exact Nat.lt_succ_of_le (readQuoted_suffix _ _).length_le
  · simp
  · simp
  · simp
  · simp

theorem afterOpen_of_comment {outer : List Opener} {cs rest : List Char}
    (h : afterComment? cs = some rest) :
    afterOpen (.brace :: outer) cs = afterOpen (.brace :: outer) rest := by
  cases cs with
  | nil => cases h
  | cons c cs =>
    rw [afterOpen]
    split
    · rename_i hRest
      rw [h] at hRest
      rw [Option.some.inj hRest]
    · rename_i hNone
      rw [h] at hNone
      cases hNone

theorem afterOpen_of_no_comment {outer : List Opener} {c : Char} {cs : List Char}
    (h : afterComment? (c :: cs) = none) :
    afterOpen (.brace :: outer) (c :: cs) =
      if isQuote c then afterOpen (.brace :: outer) (readQuoted c cs).2
      else if c = '`' then afterOpen (.template :: .brace :: outer) cs
      else if c = '{' then afterOpen (.brace :: .brace :: outer) cs
      else if c = '}' then afterOpen outer cs
      else afterOpen (.brace :: outer) cs := by
  rw [afterOpen]
  split
  · rename_i hRest
    rw [h] at hRest
    cases hRest
  · rfl

theorem afterOpen_suffix (opened : List Opener) (cs : List Char) : afterOpen opened cs <:+ cs := by
  have hDrop : ∀ (c : Char) (cs : List Char), cs.drop 1 <:+ c :: cs := fun c cs =>
    (List.drop_suffix _ _).trans (List.suffix_cons _ _)
  fun_induction afterOpen opened cs with
  | case1 => exact List.suffix_refl _
  | case2 => exact List.suffix_refl _
  | case3 _ _ ih => exact ih.trans (hDrop _ _)
  | case4 _ _ _ ih => exact ih.trans (List.suffix_cons _ _)
  | case5 _ _ _ _ _ _ ih => exact ih.trans (hDrop _ _)
  | case6 _ _ _ _ _ _ ih => exact ih.trans (List.suffix_cons _ _)
  | case7 _ _ _ _ hComment ih => exact ih.trans (afterComment?_suffix hComment).1
  | case8 _ _ _ _ _ ih => exact ih.trans ((readQuoted_suffix _ _).trans (List.suffix_cons _ _))
  | case9 _ _ _ _ ih => exact ih.trans (List.suffix_cons _ _)
  | case10 _ _ _ _ _ ih => exact ih.trans (List.suffix_cons _ _)
  | case11 _ _ _ _ _ _ ih => exact ih.trans (List.suffix_cons _ _)
  | case12 _ _ _ _ _ _ _ _ ih => exact ih.trans (List.suffix_cons _ _)

def afterTrivia : List Char → List Char
  | [] => []
  | c :: cs =>
    if isSpace c then afterTrivia cs
    else
      match _h : afterComment? (c :: cs) with
      | some rest => afterTrivia rest
      | none => c :: cs
termination_by cs => cs.length
decreasing_by
  · simp
  · exact (afterComment?_suffix _h).2

theorem afterTrivia_suffix (cs : List Char) : afterTrivia cs <:+ cs := by
  fun_induction afterTrivia cs with
  | case1 => exact List.suffix_refl _
  | case2 _ _ _ ih => exact ih.trans (List.suffix_cons _ _)
  | case3 _ _ _ _ hComment ih => exact ih.trans (afterComment?_suffix hComment).1
  | case4 => exact List.suffix_refl _

def word (cs : List Char) : List Char :=
  cs.takeWhile isWordChar

def afterWord (cs : List Char) : List Char :=
  cs.dropWhile isWordChar

@[simp] theorem word_append_afterWord (cs : List Char) : word cs ++ afterWord cs = cs :=
  List.takeWhile_append_dropWhile

theorem afterWord_suffix (cs : List Char) : afterWord cs <:+ cs :=
  List.dropWhile_suffix _

theorem afterWord_cons_suffix {c : Char} (hWord : isWordChar c = true) (cs : List Char) :
    afterWord (c :: cs) <:+ cs := by
  simp only [afterWord, List.dropWhile_cons, hWord, if_true]
  exact List.dropWhile_suffix _

end ExplicitModules.Source
