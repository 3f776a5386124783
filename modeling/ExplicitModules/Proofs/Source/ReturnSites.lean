import ExplicitModules.Proofs.Source.Returns
import ExplicitModules.Proofs.Source.Spans
import Mathlib.Data.List.Infix

/-!
# Declarations of lines that end in a carriage return

If no string and no regular expression goes on behind a line end, the declarations of a text are found
again when a carriage return is put in front of every line end: each with its kind, quote, attributes and
line, and further down by the returns in front of it. The condition cannot be left out for a specifier:
with the return behind the backslash the line end behind it is no longer escaped.
-/
namespace ExplicitModules.Source
set_option autoImplicit false
open Text

def Quoted.withReturns (q : Quoted) : Quoted :=
  ⟨q.quote, Source.withReturns q.body, Source.withReturns q.rest⟩

def Site.withReturns (site : Site) : Site :=
  ⟨site.kind, Source.withReturns site.keyword, site.specifier.withReturns, site.hasAttributes⟩

theorem Quoted.whole_withReturns {q : Quoted} (h : q.quote ≠ '\n') :
    q.withReturns.whole = Source.withReturns q.whole := by
  rw [whole, whole, withReturns_cons h, withReturns_append, withReturns_cons h]
  rfl

section Clauses

theorem any_isQuote_withReturns (cs : List Char) :
    (withReturns cs).head?.any isQuote = cs.head?.any isQuote := by
  cases cs with
  | nil => rfl
  | cons c cs =>
    by_cases hLine : c = '\n'
    · subst hLine
      rfl
    · rw [withReturns_cons hLine, List.head?_cons, List.head?_cons]

theorem importSource?_withReturns_word {cs rest : List Char} {c : Char}
    (hTrivia : afterTrivia cs = c :: rest) (hWord : isWordChar c = true) :
    importSource? (withReturns cs) =
      if word (c :: rest) = "from".toList ∧
          (afterTrivia (afterWord (c :: rest))).head?.any isQuote then
        quoted? (withReturns (afterTrivia (afterWord (c :: rest))))
      else importSource? (withReturns (afterWord (c :: rest))) := by
  have hLine : c ≠ '\n' := by
    rintro rfl
    cases hWord
  have hTrivia' : afterTrivia (withReturns cs) = c :: withReturns rest := by
    rw [afterTrivia_withReturns, hTrivia, withReturns_cons hLine]
  rw [importSource?_of_word hTrivia' hWord, ← withReturns_cons hLine, (word_withReturns _).1,
    (word_withReturns _).2, afterTrivia_withReturns, any_isQuote_withReturns]

variable {text : List Char} (hText : EndsOnLine text)
include hText

theorem quoted?_withReturns {reader : Reader} {cs : List Char} (h : Reads text reader cs)
    (hKnows : reader.knowsStrings = true) :
    quoted? (withReturns cs) = (quoted? cs).map Quoted.withReturns := by
  cases cs with
  | nil => rfl
  | cons c cs =>
    by_cases hLine : c = '\n'
    · subst hLine
      rfl
    · rw [withReturns_cons hLine]
      cases hQuote : isQuote c with
      | false =>
        rw [quoted?_eq_none hQuote, quoted?_eq_none hQuote]
        rfl
      | true =>
        have hOnLine := hText.string h hKnows hQuote
        obtain ⟨hBody, -⟩ := readQuoted_abreast hQuote hOnLine
        rw [quoted?, quoted?, if_pos hQuote, if_pos hQuote]
        cases hRead : readQuoted c cs with
        | mk body rest =>
          rw [hRead] at hBody hOnLine
          cases body with
          | none =>
            cases hAgain : readQuoted c (withReturns cs) with
            | mk body' rest' =>
              rw [hAgain] at hBody
              obtain rfl : body' = none := hBody
              rfl
          | some body =>
            rw [readQuoted_withReturns hQuote hRead hOnLine]
            rfl

theorem importSource?_withReturns {cs : List Char} (h : Reads text .clause cs) :
    importSource? (withReturns cs) = (importSource? cs).map Quoted.withReturns := by
  fun_induction importSource? cs with
  | case1 cs hTrivia =>
    rw [importSource?_eq, afterTrivia_withReturns, hTrivia]
    rfl
  | case2 cs rest hTrivia ih =>
    have hBlock := hTrivia ▸ h.trivia
    rw [importSource?_eq, afterTrivia_withReturns, hTrivia, withReturns_cons (by decide)]
    dsimp only
    rw [if_pos rfl, afterOpen_withReturns hText hBlock.block, ih hBlock.behindBlock]
  | case3 cs c rest hTrivia hBrace hMark ih =>
    have hLine : c ≠ '\n' := by rcases hMark with rfl | rfl <;> decide
    rw [importSource?_eq, afterTrivia_withReturns, hTrivia, withReturns_cons hLine]
    dsimp only
    rw [if_neg hBrace, if_pos hMark, ih ((hTrivia ▸ h.trivia).mark hMark)]
  | case4 cs c rest hTrivia hBrace hMark hWord behind hFrom =>
    have hBehind : Reads text .clause behind := (hTrivia ▸ h.trivia).word
    rw [importSource?_withReturns_word hTrivia hWord, if_pos hFrom]
    exact quoted?_withReturns hText hBehind.trivia rfl
  | case5 cs c rest hTrivia hBrace hMark hWord behind hFrom ih =>
    have hBehind : Reads text .clause behind := (hTrivia ▸ h.trivia).word
    rw [importSource?_withReturns_word hTrivia hWord, if_neg hFrom]
    exact ih hBehind
  | case6 cs c rest hTrivia hBrace hMark hWord =>
    rw [importSource?_eq, afterTrivia_withReturns, hTrivia]
    by_cases hLine : c = '\n'
    · subst hLine
      rfl
    · rw [withReturns_cons hLine]
      dsimp only
      rw [if_neg hBrace, if_neg hMark, if_neg hWord]
      rfl

theorem importSpecifier?_withReturns {cs : List Char} (h : Reads text .clause cs) :
    importSpecifier? (withReturns cs) = (importSpecifier? cs).map Quoted.withReturns := by
  have hString := quoted?_withReturns hText h.trivia rfl
  have hSource := importSource?_withReturns hText h.trivia
  unfold importSpecifier?
  rw [afterTrivia_withReturns]
  cases hTrivia : afterTrivia cs with
  | nil => rfl
  | cons c rest =>
    rw [hTrivia] at hString hSource
    by_cases hLine : c = '\n'
    · subst hLine
      exact hSource
    · rw [withReturns_cons hLine] at hString hSource ⊢
      dsimp only
      split
      · rfl
      · split
        · exact hString
        · exact hSource

theorem fromString?_withReturns {cs : List Char} (h : Reads text .clause cs) :
    fromString? (withReturns cs) = (fromString? cs).map Quoted.withReturns := by
  have hString := quoted?_withReturns hText h.trivia.word.trivia rfl
  unfold fromString?
  rw [afterTrivia_withReturns, (word_withReturns _).1, (word_withReturns _).2,
    afterTrivia_withReturns]
  split
  · exact hString
  · rfl

theorem afterExportName?_withReturns {cs : List Char} (h : Reads text .clause cs) :
    afterExportName? (withReturns cs) = (afterExportName? cs).map withReturns := by
  cases cs with
  | nil => rfl
  | cons c cs =>
    by_cases hLine : c = '\n'
    · subst hLine
      rfl
    · have hString := quoted?_withReturns hText h rfl
      have hWord := (word_withReturns (c :: cs)).2
      rw [withReturns_cons hLine] at hString hWord ⊢
      rw [afterExportName?, afterExportName?]
      split
      · rw [hString, Option.map_map, Option.map_map]
        rfl
      · split
        · rw [hWord]
          rfl
        · rfl

omit hText in
theorem reads_afterExportName? {cs rest : List Char} (h : Reads text .clause cs)
    (hWord : word cs = "as".toList)
    (hName : afterExportName? (afterTrivia (afterWord cs)) = some rest) :
    Reads text .clause rest := by
  cases hBehind : afterTrivia (afterWord cs) with
  | nil =>
    rw [hBehind] at hName
    cases hName
  | cons c ds =>
    rw [hBehind, afterExportName?] at hName
    split at hName
    · rename_i hQuote
      obtain ⟨q, hString, rfl⟩ := Option.map_eq_some_iff.mp hName
      have hNext := h.name hWord hBehind hQuote
      rw [quoted?, if_pos hQuote] at hString
      split at hString
      · rename_i hRead
        obtain rfl := Option.some.inj hString
        rwa [hRead] at hNext
      · cases hString
    · split at hName
      · obtain rfl := Option.some.inj hName
        exact (hBehind ▸ h.word.trivia).word
      · cases hName

theorem reexportSource?_withReturns {cs : List Char} (h : Reads text .clause cs) :
    reexportSource? (withReturns cs) = (reexportSource? cs).map Quoted.withReturns := by
  cases cs with
  | nil => rfl
  | cons c cs =>
    by_cases hStar : c = '*'
    · subst hStar
      have hNamed := (h.mark (Or.inl rfl)).trivia
      have hName := afterExportName?_withReturns hText hNamed.word.trivia
      rw [withReturns_cons (by decide)]
      simp only [reexportSource?]
      rw [afterTrivia_withReturns, (word_withReturns _).1, (word_withReturns _).2,
        afterTrivia_withReturns, hName]
      split
      · rename_i hAs
        cases hRest : afterExportName? (afterTrivia (afterWord (afterTrivia cs))) with
        | none => rfl
        | some rest =>
          exact fromString?_withReturns hText (reads_afterExportName? hNamed hAs hRest)
      · exact fromString?_withReturns hText hNamed
    · by_cases hBrace : c = '{'
      · subst hBrace
        rw [withReturns_cons (by decide)]
        simp only [reexportSource?]
        rw [afterOpen_withReturns hText h.block, fromString?_withReturns hText h.behindBlock]
      · rw [reexportSource?_of_ne hStar hBrace]
        by_cases hLine : c = '\n'
        · subst hLine
          rfl
        · rw [withReturns_cons hLine, reexportSource?_of_ne hStar hBrace]
          rfl

theorem exportSpecifier?_withReturns {cs : List Char}
    (h : word (afterTrivia cs) = [] ∨ word (afterTrivia cs) = "type".toList →
      Reads text .clause (afterTrivia cs)) :
    exportSpecifier? (withReturns cs) = (exportSpecifier? cs).map Quoted.withReturns := by
  simp only [exportSpecifier?]
  rw [afterTrivia_withReturns, (word_withReturns _).1, (word_withReturns _).2,
    afterTrivia_withReturns]
  split
  · rename_i hNone
    exact reexportSource?_withReturns hText (h (Or.inl hNone))
  · split
    · rename_i hType
      exact reexportSource?_withReturns hText (h (Or.inr hType)).word.trivia
    · rfl

theorem afterAttributes?_withReturns {cs : List Char}
    (h : ∀ rest, (word (afterTrivia cs) = "with".toList ∨ word (afterTrivia cs) = "assert".toList) →
      afterTrivia (afterWord (afterTrivia cs)) = '{' :: rest → Reads text (.inside [.brace]) rest) :
    afterAttributes? (withReturns cs) = (afterAttributes? cs).map withReturns := by
  simp only [afterAttributes?]
  rw [afterTrivia_withReturns, (word_withReturns _).1, (word_withReturns _).2,
    afterTrivia_withReturns]
  split
  · rename_i hWord
    have hBlock := fun rest => h rest hWord
    generalize afterTrivia (afterWord (afterTrivia cs)) = block at hBlock
    by_cases hBrace : block.head? = some '{'
    · obtain ⟨rest, rfl⟩ := List.head?_eq_some_iff.mp hBrace
      rw [withReturns_cons (by decide)]
      exact congrArg some (afterOpen_withReturns hText (hBlock rest rfl))
    · have hAgain := mt (head?_withReturns (by decide) (by decide) block).mp hBrace
      exact (noAttributes_of_head? hAgain).trans
        (congrArg (Option.map withReturns) (noAttributes_of_head? hBrace)).symm
  · rfl

theorem specifier?_withReturns {last : Last} {cs : List Char}
    (h : Reads text (.statements last) cs) (hMember : last ≠ .punctuation '.') :
    specifier? (word cs) (withReturns (afterWord cs)) =
      (specifier? (word cs) (afterWord cs)).map fun found => (found.1, found.2.withReturns) := by
  unfold specifier?
  split
  · rename_i hWord
    rw [importSpecifier?_withReturns hText (h.importing hMember hWord), Option.map_map,
      Option.map_map]
    rfl
  · split
    · rename_i hWord
      rw [exportSpecifier?_withReturns hText fun hClause => h.exporting hMember hWord hClause,
        Option.map_map, Option.map_map]
      rfl
    · rfl

end Clauses

section Pass

/-- What the step reads in the text it reads in the text with returns, up to a return. -/
structure Step.Again (s s' : Step) : Prop where
  site : s'.site = s.site.map Site.withReturns
  last : s'.last = s.last
  rest : Abreast s.rest s'.rest

variable {text : List Char} (hText : EndsOnLine text)
include hText

theorem wordStep_withReturns {last : Last} {cs : List Char} (h : Reads text (.statements last) cs) :
    Step.Again (wordStep last cs) (wordStep last (withReturns cs)) := by
  unfold wordStep
  rw [(word_withReturns cs).1, (word_withReturns cs).2]
  by_cases hMember : last = .punctuation '.'
  · rw [if_pos hMember, if_pos hMember]
    exact ⟨rfl, rfl, .here _⟩
  · rw [if_neg hMember, if_neg hMember, specifier?_withReturns hText h hMember]
    cases hSpecifier : specifier? (word cs) (afterWord cs) with
    | none => exact ⟨rfl, rfl, .here _⟩
    | some found =>
      obtain ⟨kind, q⟩ := found
      have hAttributes := afterAttributes?_withReturns hText fun rest hWord hBlock =>
        h.attributes hMember hSpecifier hWord hBlock
      have hRest : q.withReturns.rest = withReturns q.rest := rfl
      simp only [Option.map_some, hRest, hAttributes]
      cases afterAttributes? q.rest with
      | none => exact ⟨rfl, rfl, .here _⟩
      | some rest => exact ⟨rfl, rfl, .here _⟩

theorem step_withReturns {last : Last} {c : Char} {cs : List Char} (hLine : c ≠ '\n')
    (h : Reads text (.statements last) (c :: cs)) :
    Step.Again (step last c cs) (step last c (withReturns cs)) := by
  unfold step
  cases hComment : afterComment? (c :: cs) with
  | some rest =>
    obtain ⟨ds, hAgain, hAbreast⟩ := afterComment?_abreast hComment
    rw [withReturns_cons hLine] at hAgain
    rw [hAgain]
    exact ⟨rfl, rfl, hAbreast⟩
  | none =>
    rw [no_comment_withReturns hComment]
    dsimp only
    split
    · rename_i hRegex
      obtain ⟨rfl, hAllowed⟩ := hRegex
      exact ⟨rfl, rfl, afterRegex_abreast (hText.regex h hAllowed hComment)⟩
    · split
      · rename_i hQuote
        exact ⟨rfl, rfl, (readQuoted_abreast hQuote (hText.string h rfl hQuote)).2⟩
      · split
        · rename_i hTick
          subst hTick
          exact ⟨rfl, rfl, Or.inl (afterOpen_withReturns hText h.template)⟩
        · split
          · rw [← withReturns_cons hLine]
            exact wordStep_withReturns hText h
          · split
            · exact ⟨rfl, rfl, .here cs⟩
            · exact ⟨rfl, rfl, .here cs⟩

theorem sitesFrom_withReturns {last : Last} {cs : List Char} (h : Reads text (.statements last) cs) :
    sitesFrom last (withReturns cs) = (sitesFrom last cs).map Site.withReturns := by
  fun_induction sitesFrom last cs with
  | case1 => rw [withReturns_nil, sitesFrom]; rfl
  | case2 last c cs ih =>
    by_cases hLine : c = '\n'
    · subst hLine
      rw [(sitesFrom_skips last).line]
      exact ih h.step
    · obtain ⟨hSite, hLast, hRest⟩ := step_withReturns hText hLine h
      rw [withReturns_cons hLine, sitesFrom_cons, hSite, hLast,
        (sitesFrom_skips _).abreast hRest, ih h.step, List.map_append]
      cases (step last c cs).site <;> rfl

omit hText in
theorem body_withReturns (text : List Char) : body (withReturns text) = withReturns (body text) := by
  unfold body
  simp only [head?_withReturns (d := '\uFEFF') (by decide) (by decide) text]
  split
  · rename_i hHead
    obtain ⟨cs, rfl⟩ := List.head?_eq_some_iff.mp hHead
    rw [withReturns_cons (by decide)]
    rfl
  · rfl

theorem sites_withReturns : sites (withReturns text) = (sites text).map Site.withReturns := by
  rw [sites, body_withReturns]
  exact sitesFrom_withReturns hText .start

end Pass

def lineEndsIn (text : List Char) (n : Nat) : Nat :=
  (splitAtByte text n).elim 0 fun parts => parts.1.count '\n'

theorem lineEndsIn_before {text rest : List Char} (h : rest <:+ text) :
    lineEndsIn text (utf8Length (before text rest)) = (before text rest).count '\n' := by
  obtain ⟨front, rfl⟩ := h
  have hSplit := (splitAtByte_eq_some_iff (front ++ rest) front rest _).mpr ⟨rfl, rfl⟩
  rw [before_append, lineEndsIn, hSplit]
  rfl

/-- The declaration further down by the returns in front of it, with returns in its value. -/
def Declaration.withReturns (text : List Char) (d : Declaration) : Declaration :=
  { d with
    specifier.start := d.specifier.start + lineEndsIn text d.specifier.start
    specifier.stop := d.specifier.stop + lineEndsIn text d.specifier.stop
    specifier.value := String.ofList (Source.withReturns d.specifier.value.toList) }

theorem Site.toDeclaration_withReturns {text : List Char} {site : Site}
    (hQuote : site.specifier.quote ≠ '\n') (hKeyword : site.keyword <:+ text)
    (hWhole : site.specifier.whole <:+ text) :
    site.withReturns.toDeclaration (Source.withReturns text) =
      (site.toDeclaration text).withReturns text := by
  have hRest := site.specifier.rest_suffix_whole.trans hWhole
  have hSame : site.withReturns.specifier = site.specifier.withReturns := rfl
  simp only [toDeclaration, Quoted.toLiteral, Declaration.withReturns, hSame,
    Quoted.whole_withReturns hQuote, String.toList_ofList]
  simp only [withReturns, Quoted.withReturns, before_withReturns hKeyword,
    before_withReturns hWhole, before_withReturns hRest, utf8Length_withReturns, count_withReturns,
    lineEndsIn_before hWhole, lineEndsIn_before hRest]

/-- A backslash in front of a return leaves the line end unescaped. -/
theorem mem_unescaped_withReturns {value : List Char} (h : '\n' ∈ value) :
    '\n' ∈ unescaped (withReturns value) := by
  fun_induction unescaped value with
  | case1 => cases h
  | case2 => simp at h
  | case3 c cs ih =>
    rw [withReturns_cons (by decide)]
    by_cases hC : c = '\n'
    · subst hC
      rw [withReturns_line, unescaped, unescaped_cons_of_ne (by decide)]
      exact List.mem_cons_self
    · rw [withReturns_cons hC, unescaped]
      simp only [List.mem_cons] at h
      exact ih ((h.resolve_left (by decide)).resolve_left (Ne.symm hC))
  | case4 c cs hEnd hEscape ih =>
    by_cases hC : c = '\n'
    · subst hC
      rw [withReturns_line, unescaped_cons_of_ne (c := '\r') (by decide),
        unescaped_cons_of_ne (by decide)]
      exact List.mem_cons_of_mem _ List.mem_cons_self
    · rw [withReturns_cons hC, unescaped_cons_of_ne (ne_backslash hEnd hEscape)]
      exact List.mem_cons_of_mem _ (ih ((List.mem_cons.mp h).resolve_left (Ne.symm hC)))

/-- The declarations of a text and of the text with returns are the same, up to their places, if all
strings and regular expressions that are read end on their lines. They are so if no line with a quote or
a slash ends in a backslash; a specifier that does not end on its line is never found again. -/
theorem declarations_withReturns (text : List Char) :
    ((∀ c cs, c :: cs <:+ text → isQuote c = true ∨ c = '/' → endsInBackslash cs = false) →
      EndsOnLine text) ∧
    (EndsOnLine text →
      declarations (String.ofList (withReturns text)) =
        (declarations (String.ofList text)).map (.withReturns text)) ∧
    (declarations (String.ofList (withReturns text)) =
        (declarations (String.ofList text)).map (.withReturns text) →
      ∀ d ∈ declarations (String.ofList text), '\n' ∉ d.specifier.value.toList) := by
  refine ⟨EndsOnLine.of_lines, fun hText => ?_, fun hAgain d hD hMem => ?_⟩
  · rw [declarations_eq_map, declarations_eq_map, String.toList_ofList, String.toList_ofList,
      sites_withReturns hText, List.map_map, List.map_map]
    apply List.map_congr_left
    intro site hSite
    obtain ⟨hKeyword, hWhole⟩ := (sites_inOrder text).forall_mem site hSite
    have hQuote := (quoted?_eq_some (sites_sound text site hSite).specifier_closed).1
    exact Site.toDeclaration_withReturns (ne_line_of_isQuote hQuote) hKeyword hWhole
  · have hFound : d.withReturns text ∈ declarations (String.ofList (withReturns text)) := by
      rw [hAgain]
      exact List.mem_map_of_mem hD
    have hBody := ((declarations_placedInOrder _).forall_mem _ hFound).body
    have hLine := mem_unescaped_withReturns hMem
    rw [Declaration.withReturns, String.toList_ofList] at hBody
    exact (hBody _ hLine).2.1 rfl

def foldedText : List Char :=
  "`\\\n`;\nimport \x7b\n\x7d from './a'\nwith \x7b\x7d;\n/'\"/\nexport *\nfrom \"é\"".toList

theorem foldedText_withReturns :
    EndsOnLine foldedText ∧
    declarations (String.ofList foldedText) =
      [⟨.import, ⟨22, 27, '\'', "./a"⟩, true, 3⟩, ⟨.export, ⟨56, 60, '"', "é"⟩, false, 7⟩] ∧
    declarations (String.ofList (withReturns foldedText)) =
      [⟨.import, ⟨25, 30, '\'', "./a"⟩, true, 3⟩, ⟨.export, ⟨63, 67, '"', "é"⟩, false, 7⟩] := by
  have hTails : ∀ cs ∈ foldedText.tails, (cs.head?.any isQuote || cs.head? == some '/') = true →
      endsInBackslash (cs.drop 1) = false := by decide +kernel
  obtain ⟨hLines, hAgain, -⟩ := declarations_withReturns foldedText
  have hText : EndsOnLine foldedText := by
    refine hLines fun c cs hSuffix hOpens => ?_
    refine hTails (c :: cs) ((List.mem_tails _ _).mpr hSuffix) ?_
    simpa using hOpens
  have hFound : declarations (String.ofList foldedText) =
      [⟨.import, ⟨22, 27, '\'', "./a"⟩, true, 3⟩, ⟨.export, ⟨56, 60, '"', "é"⟩, false, 7⟩] := by
    decide +kernel
  refine ⟨hText, hFound, ?_⟩
  rw [hAgain hText, hFound]
  decide +kernel

/-- A specifier that goes on behind a line end is not found again. -/
theorem not_forall_declarations_withReturns :
    ¬∀ text : List Char, '\r' ∉ text →
      declarations (String.ofList (withReturns text)) =
        (declarations (String.ofList text)).map (.withReturns text) := by
  intro h
  have hAgain := h "import './a\\\nb';".toList (by decide)
  revert hAgain
  decide +kernel

end ExplicitModules.Source
