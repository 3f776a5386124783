import ExplicitModules.Proofs.Source.Quoting
import ExplicitModules.Source.Scan

/-!
# Readers do not stop inside a word

Wherever one step of the pass over a text ends, no word that starts with a letter goes on from in
front of that place: the last character read is none that words are made of, or the next one is not
a letter. So a keyword is only ever found as a whole word.
-/
namespace ExplicitModules.Source
set_option autoImplicit false

/-- From `cs` on, `rest` is reached without stopping inside a word. -/
def CleanEnd (cs rest : List Char) : Prop :=
  ∃ front, cs = front ++ rest ∧ ((∀ c ∈ rest.head?, c.isAlpha = false) ∨
    ∃ d, front.getLast? = some d ∧ isWordChar d = false)

namespace CleanEnd

theorem of_head {cs rest : List Char} (hSuffix : rest <:+ cs)
    (hHead : ∀ c ∈ rest.head?, c.isAlpha = false) : CleanEnd cs rest := by
  obtain ⟨front, rfl⟩ := hSuffix
  exact ⟨front, rfl, Or.inl hHead⟩

theorem of_last {d : Char} (hWord : isWordChar d = false) (rest : List Char) :
    CleanEnd (d :: rest) rest :=
  ⟨[d], rfl, Or.inr ⟨d, rfl, hWord⟩⟩

theorem of_suffix {cs mid rest : List Char} (h : CleanEnd mid rest) (hSuffix : mid <:+ cs) :
    CleanEnd cs rest := by
  obtain ⟨start, rfl⟩ := hSuffix
  obtain ⟨front, rfl, hEnd⟩ := h
  refine ⟨start ++ front, (List.append_assoc start front rest).symm, hEnd.imp_right ?_⟩
  rintro ⟨d, hLast, hWord⟩
  exact ⟨d, by rw [List.getLast?_append, hLast]; rfl, hWord⟩

theorem cons {c : Char} {cs rest : List Char} (h : CleanEnd cs rest) : CleanEnd (c :: cs) rest :=
  h.of_suffix (List.suffix_cons c cs)

theorem nil (cs : List Char) : CleanEnd cs [] :=
  of_head List.nil_suffix nofun

end CleanEnd

theorem afterBlock_clean (cs : List Char) : CleanEnd cs (afterBlock cs) := by
  fun_induction afterBlock cs with
  | case1 => exact .nil _
  | case2 cs => exact (CleanEnd.of_last (by decide) cs).cons
  | case3 c cs _ ih => exact ih.cons

theorem afterLine_clean (cs : List Char) : CleanEnd cs (afterLine cs) := by
  refine .of_head (afterLine_suffix cs) ?_
  intro c hC
  have hStop := List.head?_dropWhile_not (· != '\n') cs
  rw [show cs.dropWhile (· != '\n') = afterLine cs from rfl, hC] at hStop
  obtain rfl : c = '\n' := by simpa using hStop
  decide

theorem afterComment?_clean {cs rest : List Char} (h : afterComment? cs = some rest) :
    CleanEnd cs rest := by
  unfold afterComment? at h
  split at h
  · obtain rfl := Option.some.inj h
    exact (afterLine_clean _).cons.cons
  · obtain rfl := Option.some.inj h
    exact (afterBlock_clean _).cons.cons
  · cases h

theorem readQuoted_clean {q : Char} (hQuote : isWordChar q = false) (cs : List Char) :
    CleanEnd cs (readQuoted q cs).2 := by
  fun_induction readQuoted q cs with
  | case1 => exact .nil _
  | case2 => exact .nil _
  | case3 c cs body rest hRead ih =>
    rw [hRead] at ih
    exact ih.cons.cons
  | case4 cs => exact .of_last hQuote cs
  | case5 => exact .of_head (List.suffix_refl _) (by simp)
  | case6 c cs _ _ _ _ body rest hRead ih =>
    rw [hRead] at ih
    exact ih.cons

theorem afterRegex_clean (inClass : Bool) (cs : List Char) :
    CleanEnd cs (afterRegex inClass cs) := by
  fun_induction afterRegex inClass cs with
  | case1 => exact .nil _
  | case2 => exact .nil _
  | case3 _ _ _ ih => exact ih.cons.cons
  | case4 => exact .of_head (List.suffix_refl _) (by simp)
  | case5 _ _ ih => exact ih.cons
  | case6 _ _ ih => exact ih.cons
  | case7 _ ih => exact ih.cons
  | case8 _ cs =>
    refine .of_head ((List.dropWhile_suffix _).trans (List.suffix_cons _ _)) ?_
    intro c hC
    have hStop := List.head?_dropWhile_not Char.isAlpha cs
    rw [hC] at hStop
    simpa using hStop
  | case9 _ _ _ _ _ _ _ _ _ ih => exact ih.cons

theorem afterOpen_clean {opened : List Opener} (hOpened : opened ≠ []) (cs : List Char) :
    CleanEnd cs (afterOpen opened cs) := by
  have hClose : ∀ (outer : List Opener) (c : Char) (cs : List Char), isWordChar c = false →
      (outer ≠ [] → CleanEnd cs (afterOpen outer cs)) → CleanEnd (c :: cs) (afterOpen outer cs) := by
    intro outer c cs hWord hOuter
    cases outer with
    | nil =>
      rw [afterOpen]
      exact .of_last hWord cs
    | cons o outer => exact (hOuter (List.cons_ne_nil _ _)).cons
  fun_induction afterOpen opened cs with
  | case1 => exact absurd rfl hOpened
  | case2 => exact .nil _
  | case3 _ _ ih =>
    exact (ih (List.cons_ne_nil _ _)).of_suffix ((List.drop_suffix _ _).trans (List.suffix_cons _ _))
  | case4 outer cs _ ih => exact hClose outer '`' cs (by decide) ih
  | case5 _ _ _ _ _ _ ih =>
    exact (ih (List.cons_ne_nil _ _)).of_suffix ((List.drop_suffix _ _).trans (List.suffix_cons _ _))
  | case6 _ _ _ _ _ _ ih => exact (ih (List.cons_ne_nil _ _)).cons
  | case7 _ _ _ _ hComment ih =>
    exact (ih (List.cons_ne_nil _ _)).of_suffix (afterComment?_suffix hComment).1
  | case8 _ _ _ _ _ ih =>
    exact (ih (List.cons_ne_nil _ _)).of_suffix ((readQuoted_suffix _ _).trans (List.suffix_cons _ _))
  | case9 _ _ _ _ ih => exact (ih (List.cons_ne_nil _ _)).cons
  | case10 _ _ _ _ _ ih => exact (ih (List.cons_ne_nil _ _)).cons
  | case11 outer cs _ _ _ _ ih => exact hClose outer '}' cs (by decide) ih
  | case12 _ _ _ _ _ _ _ _ ih => exact (ih (List.cons_ne_nil _ _)).cons

theorem afterWord_clean (cs : List Char) : CleanEnd cs (afterWord cs) := by
  refine .of_head (afterWord_suffix _) ?_
  intro d hD
  have hStop := List.head?_dropWhile_not isWordChar cs
  rw [show cs.dropWhile isWordChar = afterWord cs from rfl, hD] at hStop
  have hNoWord : isWordChar d = false := by simpa using hStop
  simp only [isWordChar, Char.isAlphanum, Bool.or_eq_false_iff] at hNoWord
  exact hNoWord.1.1.1.1

theorem isWordChar_of_isQuote {q : Char} (h : isQuote q = true) : isWordChar q = false := by
  simp only [isQuote, Bool.or_eq_true, beq_iff_eq] at h
  rcases h with rfl | rfl <;> decide

theorem Quoted.rest_clean {q : Quoted} (hQuote : isQuote q.quote = true) :
    CleanEnd q.whole q.rest := by
  have hEnd := CleanEnd.of_last (isWordChar_of_isQuote hQuote) q.rest
  exact hEnd.of_suffix ⟨q.quote :: q.body, by simp [Quoted.whole]⟩

theorem afterAttributes?_clean {cs rest : List Char} (h : afterAttributes? cs = some rest) :
    CleanEnd cs rest := by
  dsimp only [afterAttributes?] at h
  split at h
  · split at h
    · rename_i block hTrivia
      obtain rfl := Option.some.inj h
      have hBlock := (afterOpen_clean (List.cons_ne_nil .brace []) block).of_suffix
        (List.suffix_cons '{' block)
      exact hBlock.of_suffix (hTrivia ▸ (afterTrivia_suffix _).trans
        ((afterWord_suffix _).trans (afterTrivia_suffix cs)))
    · cases h
  · cases h

section Specifiers

variable {cs : List Char} {q : Quoted}

theorem quoted?_whole (h : quoted? cs = some q) : quoted? q.whole = some q := by
  obtain ⟨-, hWhole⟩ := quoted?_eq_some h
  rwa [← hWhole]

/-- What is read as a closed string has no quote in its body that a backslash does not escape. -/
theorem Quoted.isQuotedBody (h : quoted? q.whole = some q) : IsQuotedBody q.quote q.body := by
  obtain ⟨hQuote, -⟩ := quoted?_eq_some h
  simp only [Quoted.whole, quoted?, hQuote, if_true] at h
  split at h
  · rename_i hRead
    have hSame := Option.some.inj h
    have hBody := isQuotedBody_of_readQuoted hRead
    rw [← hSame]
    exact hBody
  · cases h

theorem importSource?_whole (h : importSource? cs = some q) : quoted? q.whole = some q := by
  fun_induction importSource? cs with
  | case1 => cases h
  | case2 _ _ _ ih => exact ih h
  | case3 _ _ _ _ _ _ ih => exact ih h
  | case4 => exact quoted?_whole h
  | case5 _ _ _ _ _ _ _ _ _ ih => exact ih h
  | case6 => cases h

theorem importSpecifier?_whole (h : importSpecifier? cs = some q) : quoted? q.whole = some q := by
  unfold importSpecifier? at h
  split at h
  · cases h
  · split at h
    · cases h
    · split at h
      · exact quoted?_whole h
      · exact importSource?_whole h

theorem fromString?_whole (h : fromString? cs = some q) : quoted? q.whole = some q := by
  unfold fromString? at h
  split at h
  · exact quoted?_whole h
  · cases h

theorem reexportSource?_whole (h : reexportSource? cs = some q) : quoted? q.whole = some q := by
  unfold reexportSource? at h
  split at h
  · dsimp only at h
    split at h
    · obtain ⟨_, -, hFrom⟩ := Option.bind_eq_some_iff.mp h
      exact fromString?_whole hFrom
    · exact fromString?_whole h
  · exact fromString?_whole h
  · cases h

theorem exportSpecifier?_whole (h : exportSpecifier? cs = some q) : quoted? q.whole = some q := by
  dsimp only [exportSpecifier?] at h
  split at h
  · exact reexportSource?_whole h
  · split at h
    · exact reexportSource?_whole h
    · cases h

/-- A specifier is found behind the keyword of its kind only. -/
theorem specifier?_eq_some {w : List Char} {kind : DeclarationKind}
    (h : specifier? w cs = some (kind, q)) :
    w = kind.keyword.toList ∧ quoted? q.whole = some q := by
  unfold specifier? at h
  split at h
  · rename_i hWord
    obtain ⟨q', hImport, hEq⟩ := Option.map_eq_some_iff.mp h
    cases hEq
    exact ⟨hWord, importSpecifier?_whole hImport⟩
  · split at h
    · rename_i hWord
      obtain ⟨q', hExport, hEq⟩ := Option.map_eq_some_iff.mp h
      cases hEq
      exact ⟨hWord, exportSpecifier?_whole hExport⟩
    · cases h

end Specifiers

structure Site.IsSound (text : List Char) (site : Site) : Prop where
  starts : site.keyword = body text ∨ CleanEnd text site.keyword
  word_eq : word site.keyword = site.kind.keyword.toList
  specifier_suffix : site.specifier.whole <:+ afterWord site.keyword
  specifier_closed : quoted? site.specifier.whole = some site.specifier

theorem wordStep_clean {last : Last} (cs : List Char) : CleanEnd cs (wordStep last cs).rest := by
  unfold wordStep
  split
  · exact afterWord_clean cs
  · split
    · exact afterWord_clean cs
    · rename_i kind q hSpecifier
      have hWhole := (specifier?_suffix hSpecifier).trans (afterWord_suffix cs)
      have hQuote := (quoted?_eq_some (specifier?_eq_some hSpecifier).2).1
      split
      · rename_i rest hAttributes
        exact (afterAttributes?_clean hAttributes).of_suffix (q.rest_suffix_whole.trans hWhole)
      · exact (Quoted.rest_clean hQuote).of_suffix hWhole

theorem step_clean (last : Last) (c : Char) (cs : List Char) :
    CleanEnd (c :: cs) (step last c cs).rest := by
  unfold step
  split
  · rename_i hComment
    exact afterComment?_clean hComment
  · split
    · exact (afterRegex_clean false cs).cons
    · split
      · rename_i hQuote
        exact (readQuoted_clean (isWordChar_of_isQuote hQuote) cs).cons
      · split
        · exact (afterOpen_clean (List.cons_ne_nil _ _) cs).cons
        · split
          · exact wordStep_clean (c :: cs)
          · rename_i hWord
            have hWord := Bool.eq_false_iff.mpr hWord
            split <;> exact .of_last hWord cs

theorem wordStep_sound {text cs : List Char} {last : Last} {site : Site}
    (hStart : cs = body text ∨ CleanEnd text cs) (h : (wordStep last cs).site = some site) :
    site.IsSound text := by
  unfold wordStep at h
  split at h
  · cases h
  · split at h
    · cases h
    · rename_i kind q hSpecifier
      obtain ⟨hWord, hClosed⟩ := specifier?_eq_some hSpecifier
      have hSuffix := specifier?_suffix hSpecifier
      split at h <;> cases h <;> exact ⟨hStart, hWord, hSuffix, hClosed⟩

theorem step_sound {text cs : List Char} {last : Last} {c : Char} {site : Site}
    (hStart : c :: cs = body text ∨ CleanEnd text (c :: cs))
    (h : (step last c cs).site = some site) : site.IsSound text := by
  unfold step at h
  split at h
  · cases h
  · split at h
    · cases h
    · split at h
      · cases h
      · split at h
        · cases h
        · split at h
          · exact wordStep_sound hStart h
          · split at h <;> cases h

theorem sitesFrom_sound {text cs : List Char} (last : Last)
    (hStart : cs = body text ∨ CleanEnd text cs) :
    ∀ site ∈ sitesFrom last cs, site.IsSound text := by
  fun_induction sitesFrom last cs with
  | case1 => exact fun _ hSite => absurd hSite List.not_mem_nil
  | case2 last c cs ih =>
    have hSuffix : c :: cs <:+ text := by
      rcases hStart with hBody | ⟨front, hText, -⟩
      · exact hBody ▸ body_suffix text
      · exact ⟨front, hText.symm⟩
    have hRest := ih (Or.inr ((step_clean last c cs).of_suffix hSuffix))
    intro site hSite
    rcases List.mem_append.mp hSite with hHere | hLater
    · exact step_sound hStart (Option.mem_toList.mp hHere)
    · exact hRest site hLater

theorem sites_sound (text : List Char) : ∀ site ∈ sites text, site.IsSound text :=
  sitesFrom_sound .start (Or.inl rfl)

end ExplicitModules.Source
