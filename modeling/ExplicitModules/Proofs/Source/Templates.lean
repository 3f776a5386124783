import ExplicitModules.Proofs.Source.Closing
import ExplicitModules.Proofs.Source.Shifting

/-!
# Template literals

The code of a substitution is made up of the tokens of statements. The reader of templates knows
strings, comments, templates and braces in it, but takes a regular expression for punctuation: what
stands in one is read as code. A literal is passed over exactly if it is closed at its end when it
is read like that.
-/
namespace ExplicitModules.Source
set_option autoImplicit false
open Text

/-- A place in a template literal: in its text, or behind a lexeme of the code in braces. -/
inductive Place
  | text
  | code (last : Last)

def Place.opener : Place → Opener
  | .text => .template
  | .code _ => .brace

/-- The texts that lead from a place to behind the backtick or brace that closes what the place is
in. A regular expression may stand where `allowed` admits it, which sees the text behind it too. -/
inductive Remainder (allowed : List Char → List Char → Prop) : Place → List Char → Prop
  | backtick : Remainder allowed .text ['`']
  | escape (c : Char) {cs : List Char} (hRest : Remainder allowed .text cs) :
    Remainder allowed .text ('\\' :: c :: cs)
  | char {c : Char} {cs : List Char} (hEscape : c ≠ '\\') (hTick : c ≠ '`')
    (hOpen : ¬(c = '$' ∧ cs.head? = some '{')) (hRest : Remainder allowed .text cs) :
    Remainder allowed .text (c :: cs)
  | substitution {code cs : List Char} (hCode : Remainder allowed (.code (.punctuation '{')) code)
    (hRest : Remainder allowed .text cs) : Remainder allowed .text ('$' :: '{' :: (code ++ cs))
  | brace (last : Last) : Remainder allowed (.code last) ['}']
  | filler (f : Filler) {last : Last} {cs : List Char} (hRest : Remainder allowed (.code last) cs) :
    Remainder allowed (.code last) (f.chars ++ cs)
  | word (w : Word) {last : Last} {cs : List Char} (hEnd : ∀ c ∈ cs.head?, isWordChar c = false)
    (hRest : Remainder allowed (.code (.word w.chars)) cs) :
    Remainder allowed (.code last) (w.chars ++ cs)
  | string (s : StringToken) {last : Last} {cs : List Char}
    (hRest : Remainder allowed (.code (.punctuation s.quote)) cs) :
    Remainder allowed (.code last) (s.chars ++ cs)
  | template {last : Last} {t cs : List Char} (hTemplate : Remainder allowed .text t)
    (hRest : Remainder allowed (.code (.punctuation '`')) cs) :
    Remainder allowed (.code last) ('`' :: (t ++ cs))
  | regex {last : Last} {body flags cs : List Char} (hLast : last.allowsRegex = true)
    (hBody : isRegexBody body = true) (hFlags : ∀ c ∈ flags, c.isAlpha = true)
    (hEnd : ∀ c ∈ cs.head?, c.isAlpha = false)
    (hAllowed : allowed ('/' :: (body ++ '/' :: flags)) cs)
    (hRest : Remainder allowed (.code (.punctuation '/')) cs) :
    Remainder allowed (.code last) ('/' :: (body ++ '/' :: flags) ++ cs)
  | division {last : Last} {cs : List Char} (hLast : last.allowsRegex = false)
    (hSlash : cs.head? ≠ some '/') (hStar : cs.head? ≠ some '*')
    (hRest : Remainder allowed (.code (.punctuation '/')) cs) :
    Remainder allowed (.code last) ('/' :: cs)
  | punctuation {c : Char} {last : Last} {cs : List Char} (hPlain : isPunctuation c = true)
    (hOpen : c ≠ '{') (hClose : c ≠ '}') (hRest : Remainder allowed (.code (.punctuation c)) cs) :
    Remainder allowed (.code last) (c :: cs)
  | braces {last : Last} {code cs : List Char}
    (hCode : Remainder allowed (.code (.punctuation '{')) code)
    (hRest : Remainder allowed (.code (.punctuation '}')) cs) :
    Remainder allowed (.code last) ('{' :: (code ++ cs))

/-- Read as code in `depth` braces, the text leaves what is open as it was, and so does the slash at
its end if `behind` follows. -/
def passesAsCode (behind : List Char) : Nat → List Char → Bool
  | depth, [] => depth == 0
  | depth, c :: cs =>
    (afterComment? (c :: (cs ++ behind))).isNone && !isQuote c && c != '`' &&
      if c = '{' then passesAsCode behind (depth + 1) cs
      else if c = '}' then depth != 0 && passesAsCode behind (depth - 1) cs
      else passesAsCode behind depth cs

/-- A regular expression with no quotes or backticks in it, whose braces are balanced and which
shows no comment when it is read as code. -/
def IsInert (regex behind : List Char) : Prop :=
  passesAsCode behind 0 regex = true

instance (regex behind : List Char) : Decidable (IsInert regex behind) :=
  inferInstanceAs (Decidable (_ = true))

section Reading

variable {allowed : List Char → List Char → Prop} {p : Place} {cs : List Char}

theorem Remainder.ne_nil (h : Remainder allowed p cs) : cs ≠ [] := by
  induction h with
  | filler _ _ ih => exact List.append_ne_nil_of_right_ne_nil _ ih
  | word _ _ _ ih => exact List.append_ne_nil_of_right_ne_nil _ ih
  | string _ _ ih => exact List.append_ne_nil_of_right_ne_nil _ ih
  | _ => exact List.cons_ne_nil _ _

theorem isBraceChar_of_isWordChar {c : Char} (h : isWordChar c = true) : isBraceChar c = true := by
  obtain ⟨-, hQuote, hSlash, hTick, -, -, hOpen, -⟩ := isWordChar_spec h
  have hClose : c ≠ '}' := by
    rintro rfl
    cases h
  simp [isBraceChar, hQuote, hSlash, hTick, hOpen, hClose]

theorem isBraceChar_of_isPunctuation {c : Char} (h : isPunctuation c = true) (hOpen : c ≠ '{')
    (hClose : c ≠ '}') : isBraceChar c = true := by
  simp only [isPunctuation, Bool.and_eq_true, Bool.not_eq_true', bne_iff_ne, ne_eq] at h
  obtain ⟨⟨⟨-, hQuote⟩, hTick⟩, hSlash⟩ := h
  simp [isBraceChar, hQuote, hSlash, hTick, hOpen, hClose]

theorem afterOpen_slash (outer : List Opener) (hSlash : cs.head? ≠ some '/')
    (hStar : cs.head? ≠ some '*') :
    afterOpen (.brace :: outer) ('/' :: cs) = afterOpen (.brace :: outer) cs := by
  rw [afterOpen_of_no_comment (afterComment?_of_next hSlash hStar)]
  rfl

theorem afterOpen_passesAsCode {behind : List Char} (hBehind : behind ≠ []) {depth : Nat}
    (h : passesAsCode behind depth cs = true) (outer : List Opener) (rest : List Char) :
    afterOpen (List.replicate depth .brace ++ .brace :: outer) (cs ++ (behind ++ rest)) =
      afterOpen (.brace :: outer) (behind ++ rest) := by
  induction cs generalizing depth with
  | nil =>
    obtain rfl : depth = 0 := by simpa [passesAsCode] using h
    rfl
  | cons c cs ih =>
    simp only [passesAsCode, Bool.and_eq_true, Bool.not_eq_true', bne_iff_ne, ne_eq,
      Option.isNone_iff_eq_none] at h
    obtain ⟨⟨⟨hComment, hQuote⟩, hTick⟩, hRest⟩ := h
    have hNext : (cs ++ behind ++ rest).head? = _ :=
      List.head?_append_of_ne_nil _ (List.append_ne_nil_of_right_ne_nil cs hBehind)
    rw [afterComment?_eq_none_iff, ← hNext, ← afterComment?_eq_none_iff, List.append_assoc]
      at hComment
    -- the innermost brace, whatever the depth
    have hOpened : ∃ inner,
        List.replicate depth Opener.brace ++ .brace :: outer = .brace :: inner := by
      cases depth with
      | zero => exact ⟨outer, rfl⟩
      | succ depth => exact ⟨_, rfl⟩
    obtain ⟨inner, hInner⟩ := hOpened
    rw [List.cons_append, hInner, afterOpen_of_no_comment hComment, hQuote,
      if_neg Bool.false_ne_true, if_neg hTick]
    split_ifs at hRest ⊢ with hOpen hClose
    · rw [← hInner]
      exact ih hRest
    · rw [Bool.and_eq_true, bne_iff_ne] at hRest
      obtain ⟨depth, rfl⟩ := Nat.exists_eq_succ_of_ne_zero hRest.1
      obtain rfl := List.tail_eq_of_cons_eq hInner
      exact ih hRest.2
    · rw [← hInner]
      exact ih hRest

/-- A reader of templates passes over what is left of a place and closes what the place is in. -/
theorem Remainder.afterOpen_append (h : Remainder IsInert p cs) (outer : List Opener)
    (rest : List Char) : afterOpen (p.opener :: outer) (cs ++ rest) = afterOpen outer rest := by
  induction h generalizing outer rest with
  | backtick =>
    rw [Place.opener, List.cons_append, afterOpen, if_neg (by decide), if_pos rfl, List.nil_append]
  | escape c _ ih =>
    rw [Place.opener, List.cons_append, List.cons_append, afterOpen, if_pos rfl]
    exact ih outer rest
  | char hEscape hTick hOpen hRest ih =>
    -- what is left is not empty, so the next character is its own and none of `rest`
    have hNext : (_ ++ rest).head? = _ := List.head?_append_of_ne_nil _ hRest.ne_nil
    rw [← hNext] at hOpen
    rw [List.cons_append, Place.opener, afterOpen_template_char outer hEscape hTick hOpen]
    exact ih outer rest
  | substitution _ _ ihCode ihRest =>
    rw [Place.opener, List.cons_append, List.cons_append, afterOpen, if_neg (by decide),
      if_neg (by decide), if_pos ⟨rfl, rfl⟩, List.append_assoc]
    exact (ihCode _ _).trans (ihRest outer rest)
  | brace last => exact afterOpen_close outer rest
  | filler f _ ih =>
    rw [List.append_assoc, Place.opener, (afterOpen_skips outer).filler f]
    exact ih outer rest
  | word w _ _ ih =>
    have hPass : ∀ c ∈ w.chars, isBraceChar c = true :=
      fun c hC => isBraceChar_of_isWordChar (w.all_word c hC)
    rw [List.append_assoc, Place.opener, afterOpen_brace_pass outer hPass]
    exact ih outer rest
  | string s _ ih =>
    rw [List.append_assoc, Place.opener, afterOpen_string outer s]
    exact ih outer rest
  | template _ _ ihTemplate ihRest =>
    rw [List.cons_append, List.append_assoc, Place.opener,
      afterOpen_of_no_comment (afterComment?_of_ne (by decide) _)]
    exact (ihTemplate _ _).trans (ihRest outer rest)
  | regex _ _ _ _ hAllowed hRest ih =>
    rw [List.append_assoc]
    exact (afterOpen_passesAsCode hRest.ne_nil hAllowed outer rest).trans (ih outer rest)
  | division _ hSlash hStar hRest ih =>
    have hNext : (_ ++ rest).head? = _ := List.head?_append_of_ne_nil _ hRest.ne_nil
    rw [← hNext] at hSlash hStar
    rw [List.cons_append, Place.opener, afterOpen_slash outer hSlash hStar]
    exact ih outer rest
  | punctuation hPlain hOpen hClose _ ih =>
    rw [List.cons_append, Place.opener,
      afterOpen_char outer (isBraceChar_of_isPunctuation hPlain hOpen hClose)]
    exact ih outer rest
  | braces _ _ ihCode ihRest =>
    rw [List.cons_append, List.append_assoc, Place.opener,
      afterOpen_of_no_comment (afterComment?_of_ne (by decide) _)]
    exact (ihCode _ _).trans (ihRest outer rest)

end Reading

/-- Read in front of one semicolon the text is passed over as the rest of a template. -/
def ClosesAtEnd (t : List Char) : Prop :=
  afterOpen [.template] (t ++ [';']) = [';']

instance (t : List Char) : Decidable (ClosesAtEnd t) :=
  inferInstanceAs (Decidable (_ = _))

variable {t : List Char}

theorem ClosesAtEnd.afterOpen_eq (h : ClosesAtEnd t) (rest : List Char) :
    afterOpen [.template] (t ++ rest) = rest :=
  afterOpen_local (List.cons_ne_nil _ _) h rest

theorem ClosesAtEnd.ne_nil (h : ClosesAtEnd t) : t ≠ [] :=
  ne_nil_of_afterOpen (List.cons_ne_nil _ _) h

theorem Remainder.closesAtEnd (h : Remainder IsInert .text t) : ClosesAtEnd t := by
  have hClosed := h.afterOpen_append [] [';']
  rwa [afterOpen] at hClosed

theorem step_template (last : Last) (cs : List Char) :
    step last '`' cs = ⟨none, .punctuation '`', afterOpen [.template] cs⟩ := by
  rw [step, afterComment?_of_ne (by decide)]
  rfl

theorem step_template_iff : ClosesAtEnd t ↔
    ∀ last rest, step last '`' (t ++ rest) = ⟨none, .punctuation '`', rest⟩ := by
  constructor
  · intro h last rest
    rw [step_template, h.afterOpen_eq]
  · intro h
    have hStep := h .start [';']
    rw [step_template] at hStep
    exact congrArg Step.rest hStep

/-- The statement of a template literal leads on to what stands behind its semicolon. -/
theorem ClosesAtEnd.sitesFrom_eq (h : ClosesAtEnd t) (last : Last) (rest : List Char) :
    sitesFrom last ('`' :: (t ++ ';' :: rest)) = sitesFrom (.punctuation ';') rest := by
  rw [sitesFrom_of_step (step_template_iff.mp h last _)]
  exact sitesFrom_of_step (step_punctuation (by decide) _ rest)

def withTemplate (front : SourceText) (t rest : List Char) : String :=
  String.ofList (front.chars ++ '`' :: (t ++ ';' :: rest))

theorem ClosesAtEnd.declarations_eq (h : ClosesAtEnd t) (front : SourceText) (rest : List Char) :
    declarations (withTemplate front t rest) = front.declarations ++
      (declarationsBehind (.punctuation ';') rest).map
        (.shifted (utf8Length front.chars + utf8Length t + 2)
          (front.chars.count '\n' + t.count '\n')) := by
  have hMark : ('`' :: (t ++ ';' :: rest)).head? ≠ some '\uFEFF' := by simp
  have hText : front.chars ++ '`' :: (t ++ ';' :: rest) =
      front.chars ++ '`' :: (t ++ [';']) ++ rest := by simp
  obtain ⟨last, -, hDeclarations⟩ := front.declarations_append hMark
  rw [withTemplate, hDeclarations, h.sitesFrom_eq, hText, map_toDeclaration_append]
  have hBytes : utf8Length (front.chars ++ '`' :: (t ++ [';'])) =
      utf8Length front.chars + utf8Length t + 2 := by
    simp only [utf8Length_append, utf8Length_cons, utf8Length_nil]
    have hTick : Char.utf8Size '`' = 1 := rfl
    have hSemicolon : Char.utf8Size ';' = 1 := rfl
    omega
  have hLines : (front.chars ++ '`' :: (t ++ [';'])).count '\n' =
      front.chars.count '\n' + t.count '\n' := by
    simp
  rw [hBytes, hLines]

theorem closesAtEnd_empty : ClosesAtEnd ['`'] :=
  Remainder.backtick.closesAtEnd

/-- A template literal is passed over as a whole exactly if reading it as code in front of one
semicolon closes it at its end, as it does if its regular expressions are inert. Its statement then
declares nothing, and what follows is found as it is behind an empty template, further down by what
the literal is longer. -/
theorem template_passed (t : List Char) :
    (Remainder IsInert .text t → ClosesAtEnd t) ∧
    (ClosesAtEnd t ↔
      ∀ last rest, step last '`' (t ++ rest) = ⟨none, .punctuation '`', rest⟩) ∧
    (ClosesAtEnd t → ∀ (front : SourceText) (rest : List Char),
      declarations (withTemplate front t []) = front.declarations ∧
      ∃ behind, declarations (withTemplate front ['`'] rest) = front.declarations ++ behind ∧
        declarations (withTemplate front t rest) = front.declarations ++
          behind.map (.shifted (utf8Length t - utf8Length ['`']) (t.count '\n'))) := by
  refine ⟨Remainder.closesAtEnd, step_template_iff, ?_⟩
  intro h front rest
  constructor
  · rw [h.declarations_eq, declarationsBehind, sitesFrom]
    simp
  · refine ⟨_, closesAtEnd_empty.declarations_eq front rest, ?_⟩
    have hPos : 1 ≤ utf8Length t :=
      Nat.le_trans (List.length_pos_iff.mpr h.ne_nil) (length_le_utf8Length t)
    have hTick : utf8Length ['`'] = 1 := rfl
    have hBytes : utf8Length front.chars + 1 + 2 + (utf8Length t - 1) =
        utf8Length front.chars + utf8Length t + 2 := by
      omega
    have hLines : front.chars.count '\n' + List.count '\n' ['`'] + t.count '\n' =
        front.chars.count '\n' + t.count '\n' := rfl
    rw [h.declarations_eq, hTick, List.map_map]
    congr 2
    funext d
    rw [Function.comp_apply, Declaration.shifted_shifted, hBytes, hLines]

def noSource : SourceText :=
  ⟨false, none, [], by decide⟩

def importLine : List Char :=
  "import './e';".toList

def countedTemplate : List Char :=
  '\n' :: '$' :: '{' :: (('/' :: ("a\x7b2\x7d".toList ++ ['/']) ++ ['}']) ++ ['`'])

theorem countedTemplate_passed :
    Remainder IsInert .text countedTemplate ∧
    declarations (withTemplate noSource ['`'] importLine) =
      [⟨.import, ⟨10, 15, '\'', "./e"⟩, false, 1⟩] ∧
    declarations (withTemplate noSource countedTemplate importLine) =
      [⟨.import, ⟨20, 25, '\'', "./e"⟩, false, 2⟩] := by
  have hCode : Remainder IsInert (.code (.punctuation '{'))
      ('/' :: ("a\x7b2\x7d".toList ++ ['/']) ++ ['}']) :=
    .regex (by decide) (by decide) (by decide) (by decide) (by decide) (.brace _)
  have hTemplate : Remainder IsInert .text countedTemplate :=
    .char (by decide) (by decide) (by decide) (.substitution hCode .backtick)
  have hPassed := template_passed countedTemplate
  obtain ⟨-, behind, hEmpty, hCounted⟩ := hPassed.2.2 (hPassed.1 hTemplate) noSource importLine
  have hFound : declarations (withTemplate noSource ['`'] importLine) =
      [⟨.import, ⟨10, 15, '\'', "./e"⟩, false, 1⟩] := by decide +kernel
  refine ⟨hTemplate, hFound, ?_⟩
  obtain rfl := hEmpty.symm.trans hFound
  rw [hCounted]
  decide +kernel

def tickTemplate : List Char :=
  '$' :: '{' :: (('/' :: (['`'] ++ ['/']) ++ ['}']) ++ ['`'])

/-- Regular expressions that are not inert are not passed over. -/
theorem not_forall_template_passed :
    ¬∀ t rest : List Char, Remainder (fun _ _ => True) .text t →
      declarations (withTemplate noSource t rest) =
        (declarations (withTemplate noSource ['`'] rest)).map
          (.shifted (utf8Length t - utf8Length ['`']) (t.count '\n')) := by
  intro hAll
  have hCode : Remainder (fun _ _ => True) (.code (.punctuation '{'))
      ('/' :: (['`'] ++ ['/']) ++ ['}']) :=
    .regex (by decide) (by decide) (by decide) (by decide) trivial (.brace _)
  have hTemplate : Remainder (fun _ _ => True) .text tickTemplate :=
    .substitution hCode .backtick
  have hShifted := hAll tickTemplate importLine hTemplate
  revert hShifted
  decide +kernel

end ExplicitModules.Source
