import ExplicitModules.Proofs.Source.Closing
import ExplicitModules.Proofs.Source.Lines

/-!
# Reading lines that end in a carriage return

A text is read again with a carriage return in front of every line end. A reader that stops in front of
the line end then stops behind the return, which makes no difference to what reads on from there: both
characters are white space. A backslash in a template takes only the return with it, with the same
effect.
-/
namespace ExplicitModules.Source
set_option autoImplicit false
open Text

/-- The text with a carriage return in front of every line end. -/
def withReturns (cs : List Char) : List Char :=
  cs.flatMap fun c => if c = '\n' then ['\r', '\n'] else [c]

section Text

@[simp] theorem withReturns_nil : withReturns [] = [] := rfl

theorem withReturns_line (cs : List Char) :
    withReturns ('\n' :: cs) = '\r' :: '\n' :: withReturns cs := rfl

theorem withReturns_cons {c : Char} (h : c ≠ '\n') (cs : List Char) :
    withReturns (c :: cs) = c :: withReturns cs := by
  rw [withReturns, List.flatMap_cons, if_neg h]
  rfl

theorem withReturns_append (cs ds : List Char) :
    withReturns (cs ++ ds) = withReturns cs ++ withReturns ds :=
  List.flatMap_append

theorem withReturns_of_no_line {cs : List Char} (h : '\n' ∉ cs) : withReturns cs = cs := by
  induction cs with
  | nil => rfl
  | cons c cs ih =>
    rw [List.mem_cons, not_or] at h
    rw [withReturns_cons (Ne.symm h.1), ih h.2]

theorem head?_withReturns {d : Char} (hReturn : d ≠ '\r') (hLine : d ≠ '\n') (cs : List Char) :
    (withReturns cs).head? = some d ↔ cs.head? = some d := by
  cases cs with
  | nil => rfl
  | cons c cs =>
    by_cases hC : c = '\n'
    · subst hC
      rw [withReturns_line, List.head?_cons, List.head?_cons, Option.some.injEq, Option.some.injEq]
      exact iff_of_false (Ne.symm hReturn) (Ne.symm hLine)
    · rw [withReturns_cons hC, List.head?_cons, List.head?_cons]

theorem count_withReturns (cs : List Char) : (withReturns cs).count '\n' = cs.count '\n' := by
  induction cs with
  | nil => rfl
  | cons c cs ih =>
    by_cases hC : c = '\n'
    · subst hC
      rw [withReturns_line, List.count_cons_of_ne (by decide), List.count_cons_self,
        List.count_cons_self, ih]
    · rw [withReturns_cons hC, List.count_cons_of_ne hC, List.count_cons_of_ne hC, ih]

theorem utf8Length_withReturns (cs : List Char) :
    utf8Length (withReturns cs) = utf8Length cs + cs.count '\n' := by
  have hReturn : '\r'.utf8Size = 1 := by decide
  induction cs with
  | nil => rfl
  | cons c cs ih =>
    by_cases hC : c = '\n'
    · subst hC
      rw [withReturns_line, utf8Length_cons, utf8Length_cons, utf8Length_cons, ih,
        List.count_cons_self, hReturn]
      omega
    · rw [withReturns_cons hC, utf8Length_cons, utf8Length_cons, ih, List.count_cons_of_ne hC,
        Nat.add_assoc]

theorem before_withReturns {text rest : List Char} (h : rest <:+ text) :
    before (withReturns text) (withReturns rest) = withReturns (before text rest) := by
  obtain ⟨front, rfl⟩ := h
  rw [withReturns_append, before_append, before_append]

end Text

/-- Reading has come to `cs` in the text, and in the text with returns to the same place or, at a line
end, behind its return. -/
def Abreast (cs ds : List Char) : Prop :=
  ds = withReturns cs ∨ ∃ rest, cs = '\n' :: rest ∧ ds = '\n' :: withReturns rest

theorem Abreast.here (cs : List Char) : Abreast cs (withReturns cs) :=
  Or.inl rfl

theorem Abreast.behindReturn (rest : List Char) : Abreast ('\n' :: rest) ('\n' :: withReturns rest) :=
  Or.inr ⟨rest, rfl, rfl⟩

section Trivia

variable {α : Type} {read : List Char → α}

theorem SkipsTrivia.line (h : SkipsTrivia read) (rest : List Char) :
    read (withReturns ('\n' :: rest)) = read (withReturns rest) := by
  rw [withReturns_line, h.space '\r' _ (by decide), h.space '\n' _ (by decide)]

theorem SkipsTrivia.abreast (h : SkipsTrivia read) {cs ds : List Char} (hAbreast : Abreast cs ds) :
    read ds = read (withReturns cs) := by
  rcases hAbreast with rfl | ⟨rest, rfl, rfl⟩
  · rfl
  · rw [h.line, h.space '\n' _ (by decide)]

theorem afterLine_abreast (cs : List Char) : Abreast (afterLine cs) (afterLine (withReturns cs)) := by
  induction cs with
  | nil => exact .here []
  | cons c cs ih =>
    by_cases hC : c = '\n'
    · subst hC
      rw [withReturns_line, afterLine_cons_of_ne (c := '\r') (by decide), afterLine_line, afterLine_line]
      exact .behindReturn cs
    · rw [withReturns_cons hC, afterLine_cons_of_ne hC, afterLine_cons_of_ne hC]
      exact ih

theorem afterBlock_withReturns (cs : List Char) :
    afterBlock (withReturns cs) = withReturns (afterBlock cs) := by
  fun_induction afterBlock cs with
  | case1 => rfl
  | case2 cs =>
    rw [withReturns_cons (by decide), withReturns_cons (by decide), afterBlock]
  | case3 c cs hClose ih =>
    by_cases hC : c = '\n'
    · subst hC
      rw [withReturns_line, afterBlock_cons_of_ne (by decide), afterBlock_cons_of_ne (by decide), ih]
    · rw [withReturns_cons hC, ← ih]
      by_cases hStar : c = '*'
      · apply afterBlock_cons_of_next
        rw [Ne, head?_withReturns (by decide) (by decide)]
        intro hSlash
        obtain ⟨rest, rfl⟩ := List.head?_eq_some_iff.mp hSlash
        exact hClose rest hStar rfl
      · exact afterBlock_cons_of_ne hStar _

theorem afterComment?_abreast {cs rest : List Char} (h : afterComment? cs = some rest) :
    ∃ ds, afterComment? (withReturns cs) = some ds ∧ Abreast rest ds := by
  unfold afterComment? at h
  split at h
  · obtain rfl := Option.some.inj h
    rw [withReturns_cons (by decide), withReturns_cons (by decide)]
    exact ⟨_, rfl, afterLine_abreast _⟩
  · obtain rfl := Option.some.inj h
    rw [withReturns_cons (by decide), withReturns_cons (by decide)]
    exact ⟨_, rfl, Or.inl (afterBlock_withReturns _)⟩
  · cases h

theorem no_comment_withReturns {c : Char} {cs : List Char} (h : afterComment? (c :: cs) = none) :
    afterComment? (c :: withReturns cs) = none := by
  rw [afterComment?_eq_none_iff] at h ⊢
  rwa [head?_withReturns (by decide) (by decide), head?_withReturns (by decide) (by decide)]

theorem afterTrivia_withReturns (cs : List Char) :
    afterTrivia (withReturns cs) = withReturns (afterTrivia cs) := by
  fun_induction afterTrivia cs with
  | case1 => rw [withReturns_nil, afterTrivia]
  | case2 c cs hSpace ih =>
    by_cases hC : c = '\n'
    · subst hC
      rw [afterTrivia_skips.line, ih]
    · rw [withReturns_cons hC, afterTrivia_skips.space c _ hSpace, ih]
  | case3 c cs _ rest hComment ih =>
    obtain ⟨ds, hAgain, hAbreast⟩ := afterComment?_abreast hComment
    rw [afterTrivia_skips.comment _ _ hAgain, afterTrivia_skips.abreast hAbreast, ih]
  | case4 c cs hSpace hComment =>
    have hC : c ≠ '\n' := by
      rintro rfl
      exact hSpace (by decide)
    rw [withReturns_cons hC,
      afterTrivia_stop (Bool.eq_false_iff.mpr hSpace) (no_comment_withReturns hComment)]

theorem word_withReturns (cs : List Char) :
    word (withReturns cs) = word cs ∧ afterWord (withReturns cs) = withReturns (afterWord cs) := by
  induction cs with
  | nil => exact ⟨rfl, rfl⟩
  | cons c cs ih =>
    by_cases hC : c = '\n'
    · subst hC
      exact ⟨rfl, rfl⟩
    · rw [withReturns_cons hC]
      cases hWord : isWordChar c with
      | true =>
        rw [(word_cons_of_word hWord _).1, (word_cons_of_word hWord _).2,
          (word_cons_of_word hWord _).1, (word_cons_of_word hWord _).2, ih.1, ih.2]
        exact ⟨rfl, rfl⟩
      | false =>
        rw [(word_cons_of_not hWord _).1, (word_cons_of_not hWord _).2,
          (word_cons_of_not hWord _).1, (word_cons_of_not hWord _).2, withReturns_cons hC]
        exact ⟨rfl, rfl⟩

end Trivia

section Strings

variable {cs : List Char}

theorem readQuoted_abreast {q : Char} (hQuote : isQuote q = true)
    (h : '\n' ∉ before cs (readQuoted q cs).2) :
    (readQuoted q (withReturns cs)).1 = (readQuoted q cs).1 ∧
      Abreast (readQuoted q cs).2 (readQuoted q (withReturns cs)).2 := by
  have hReturn : '\r' ≠ q := by
    rintro rfl
    cases hQuote
  fun_induction readQuoted q cs with
  | case1 => exact ⟨rfl, .here []⟩
  | case2 => exact ⟨rfl, .here []⟩
  | case3 c cs body rest hRead ih =>
    have hSuffix := readQuoted_suffix q cs
    rw [hRead] at hSuffix ih
    rw [before_cons (hSuffix.trans (List.suffix_cons c cs)), before_cons hSuffix, List.mem_cons,
      List.mem_cons, not_or, not_or] at h
    obtain ⟨hBody, hRest⟩ := ih h.2.2
    rw [withReturns_cons (by decide), withReturns_cons (Ne.symm h.2.1), readQuoted]
    exact ⟨congrArg (Option.map _) hBody, hRest⟩
  | case4 cs hLast hEscape =>
    rw [withReturns_cons (ne_line_of_isQuote hQuote),
      readQuoted_cons_quote (ne_backslash hLast hEscape)]
    exact ⟨rfl, .here cs⟩
  | case5 cs _ _ hNot =>
    rw [withReturns_line, readQuoted_cons_of_ne (by decide) hReturn (by decide),
      readQuoted_cons_line (Ne.symm hNot)]
    exact ⟨rfl, .behindReturn cs⟩
  | case6 c cs hLast hEscape hNot hLine body rest hRead ih =>
    have hSuffix := readQuoted_suffix q cs
    rw [hRead] at hSuffix ih
    rw [before_cons hSuffix, List.mem_cons, not_or] at h
    obtain ⟨hBody, hRest⟩ := ih h.2
    rw [withReturns_cons hLine, readQuoted_cons_of_ne (ne_backslash hLast hEscape) hNot hLine]
    exact ⟨by rw [hBody], hRest⟩

theorem readQuoted_withReturns {q : Char} {body rest : List Char} (hQuote : isQuote q = true)
    (hRead : readQuoted q cs = (some body, rest)) (h : '\n' ∉ before cs rest) :
    readQuoted q (withReturns cs) = (some (withReturns body), withReturns rest) := by
  have hParts := readQuoted_eq_some hRead
  have hBody : '\n' ∉ body := by
    have hText : cs = (body ++ [q]) ++ rest := by rw [hParts, List.append_assoc]; rfl
    rw [hText, before_append] at h
    exact fun hMem => h (List.mem_append_left [q] hMem)
  have hClosed := isQuotedBody_of_readQuoted hRead
  rw [hParts, withReturns_append, withReturns_cons (ne_line_of_isQuote hQuote),
    withReturns_of_no_line hBody]
  exact readQuoted_append (ne_backslash_of_isQuote hQuote) hClosed (withReturns rest)

theorem dropWhile_isAlpha_withReturns (cs : List Char) :
    (withReturns cs).dropWhile Char.isAlpha = withReturns (cs.dropWhile Char.isAlpha) := by
  induction cs with
  | nil => rfl
  | cons c cs ih =>
    by_cases hC : c = '\n'
    · subst hC
      rfl
    · rw [withReturns_cons hC, List.dropWhile_cons, List.dropWhile_cons]
      split
      · exact ih
      · exact (withReturns_cons hC cs).symm

theorem afterRegex_abreast {inClass : Bool} (h : '\n' ∉ before cs (afterRegex inClass cs)) :
    Abreast (afterRegex inClass cs) (afterRegex inClass (withReturns cs)) := by
  have hTail : ∀ {c : Char} {ds : List Char} {b : Bool}, '\n' ∉ before (c :: ds) (afterRegex b ds) →
      c ≠ '\n' ∧ '\n' ∉ before ds (afterRegex b ds) := by
    intro c ds b hMem
    rw [before_cons (afterRegex_suffix b ds), List.mem_cons, not_or] at hMem
    exact ⟨Ne.symm hMem.1, hMem.2⟩
  fun_induction afterRegex inClass cs with
  | case1 => exact .here []
  | case2 => exact .here []
  | case3 inClass c cs ih =>
    rw [before_cons ((afterRegex_suffix inClass cs).trans (List.suffix_cons c cs)), List.mem_cons,
      not_or] at h
    obtain ⟨hLine, hRest⟩ := hTail h.2
    rw [withReturns_cons (by decide), withReturns_cons hLine, afterRegex]
    exact ih hRest
  | case4 inClass cs =>
    rw [withReturns_line, afterRegex_cons_of_ne (by decide) (by decide) (by decide) (by decide)
      (by decide), afterRegex]
    exact .behindReturn cs
  | case5 inClass cs ih =>
    rw [withReturns_cons (by decide), afterRegex]
    exact ih (hTail h).2
  | case6 inClass cs ih =>
    rw [withReturns_cons (by decide), afterRegex]
    exact ih (hTail h).2
  | case7 cs ih =>
    rw [withReturns_cons (by decide), afterRegex, if_pos rfl]
    exact ih (hTail h).2
  | case8 inClass cs hOut =>
    rw [withReturns_cons (by decide), afterRegex, if_neg hOut]
    exact Or.inl (dropWhile_isAlpha_withReturns cs)
  | case9 inClass c cs hLast hEscape hLine hOpen hClose hSlash ih =>
    rw [withReturns_cons hLine,
      afterRegex_cons_of_ne (ne_backslash hLast hEscape) hLine hOpen hClose hSlash]
    exact ih (hTail h).2

end Strings

/-- In the text of a template as in a block white space makes no difference. -/
theorem afterOpen_space {c : Char} (h : isSpace c = true) (o : Opener) (outer : List Opener)
    (cs : List Char) : afterOpen (o :: outer) (c :: cs) = afterOpen (o :: outer) cs := by
  cases o with
  | template =>
    have hNot : ∀ d : Char, isSpace d = false → c ≠ d := by
      rintro d hD rfl
      rw [h] at hD
      cases hD
    exact afterOpen_template_char outer (hNot '\\' (by decide)) (hNot '`' (by decide))
      fun hSubstitution => hNot '$' (by decide) hSubstitution.1
  | brace => exact (afterOpen_skips outer).space c cs h

section Opened

variable {text : List Char} (hText : EndsOnLine text)
include hText

/-- One lexeme inside what is open leaves the same open, and what is behind it is read alike. -/
theorem openStep_withReturns {o : Opener} {outer : List Opener} {c : Char} {cs : List Char}
    (hLine : c ≠ '\n') (h : Reads text (.inside (o :: outer)) (c :: cs)) :
    (openStep outer c (withReturns cs) o).1 = (openStep outer c cs o).1 ∧
      afterOpen (openStep outer c cs o).1 (openStep outer c (withReturns cs) o).2 =
        afterOpen (openStep outer c cs o).1 (withReturns (openStep outer c cs o).2) := by
  cases o with
  | template =>
    rw [openStep, openStep]
    by_cases hEscape : c = '\\'
    · rw [if_pos hEscape, if_pos hEscape]
      refine ⟨rfl, ?_⟩
      cases cs with
      | nil => rfl
      | cons d ds =>
        by_cases hEnd : d = '\n'
        · subst hEnd
          exact afterOpen_space (by decide) .template outer _
        · rw [withReturns_cons hEnd]
          rfl
    · have hHead := head?_withReturns (d := '{') (by decide) (by decide) cs
      simp only [if_neg hEscape, hHead]
      split_ifs with hTick hDollar
      · exact ⟨rfl, rfl⟩
      · obtain ⟨ds, rfl⟩ := List.head?_eq_some_iff.mp hDollar.2
        rw [withReturns_cons (by decide)]
        exact ⟨rfl, rfl⟩
      · exact ⟨rfl, rfl⟩
  | brace =>
    cases hComment : afterComment? (c :: cs) with
    | some rest =>
      obtain ⟨ds, hAgain, hAbreast⟩ := afterComment?_abreast hComment
      rw [withReturns_cons hLine] at hAgain
      simp only [openStep, hComment, hAgain]
      exact ⟨trivial, (afterOpen_skips outer).abreast hAbreast⟩
    | none =>
      simp only [openStep, hComment, no_comment_withReturns hComment]
      split_ifs with hQuote
      · obtain ⟨-, hAbreast⟩ := readQuoted_abreast hQuote (hText.string h rfl hQuote)
        exact ⟨rfl, (afterOpen_skips outer).abreast hAbreast⟩
      all_goals exact ⟨rfl, rfl⟩

/-- What is open is closed at the same place, if every string that is read on the way ends on its
line. -/
theorem afterOpen_withReturns {opened : List Opener} {cs : List Char}
    (h : Reads text (.inside opened) cs) :
    afterOpen opened (withReturns cs) = withReturns (afterOpen opened cs) := by
  -- on the length, as one step can take away more than one character
  induction hSize : cs.length using Nat.strongRecOn generalizing opened cs with
  | ind size ih =>
    subst hSize
    cases opened with
    | nil => rw [afterOpen, afterOpen]
    | cons o outer =>
      cases cs with
      | nil => rw [withReturns_nil, afterOpen, withReturns_nil]
      | cons c cs =>
        have hNext := ih _ (Nat.lt_succ_of_le (openStep_suffix o outer c cs).2) h.inside rfl
        by_cases hLine : c = '\n'
        · subst hLine
          have hStep : openStep outer '\n' cs o = (o :: outer, cs) := by cases o <;> rfl
          rw [hStep] at hNext
          rw [withReturns_line, afterOpen_space (by decide), afterOpen_space (by decide),
            afterOpen_space (by decide), hNext]
        · obtain ⟨hOpened, hRest⟩ := openStep_withReturns hText hLine h
          rw [withReturns_cons hLine, afterOpen_cons, afterOpen_cons, hOpened, hRest, hNext]

end Opened

end ExplicitModules.Source
