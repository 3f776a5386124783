import ExplicitModules.Proofs.Source.Marks
import ExplicitModules.Proofs.Source.Recognition
import Mathlib.Data.List.Forall2

/-!
# Reading a text with marks

What is put in at the specifiers of a text changes nothing about where declarations are found. The
pass over the new text finds the same declarations, with the endings as part of the specifiers and
the clauses as attributes.
-/
namespace ExplicitModules.Source
set_option autoImplicit false

section Regex

variable {front rest rest' : List Char}

theorem exists_front (start : List Char) {cs : List Char} (h : rest.length ≤ cs.length)
    (hCs : front ++ rest = start ++ cs) : ∃ behind, front = start ++ behind ∧ cs = behind ++ rest := by
  rcases List.append_eq_append_iff.mp hCs with ⟨as, hStart, hRest⟩ | ⟨behind, hFront, hBehind⟩
  · have hLength := congrArg List.length hRest
    rw [List.length_append] at hLength
    obtain rfl := List.length_eq_zero_iff.mp (by omega : as.length = 0)
    rw [List.append_nil] at hStart
    exact ⟨[], by rw [hStart, List.append_nil], hRest.symm⟩
  · exact ⟨behind, hFront, hBehind⟩

variable (hHead : rest'.head? = rest.head?)
include hHead

theorem eq_nil_of_head? (hRest : rest = []) : rest' = [] := by
  rw [hRest] at hHead
  exact List.head?_eq_none_iff.mp hHead

theorem dropWhile_local {p : Char → Bool} (h : (front ++ rest).dropWhile p = rest) :
    (front ++ rest').dropWhile p = rest' := by
  induction front with
  | nil =>
    have hStop := List.head?_dropWhile_not p rest
    rw [List.nil_append] at h ⊢
    rw [h, ← hHead] at hStop
    cases rest' with
    | nil => rfl
    | cons c cs =>
      have hC : p c = false := by simpa using hStop
      rw [List.dropWhile_cons, hC, if_neg Bool.false_ne_true]
  | cons c front ih =>
    rw [List.cons_append, List.dropWhile_cons] at h ⊢
    split at h
    · rename_i hC
      rw [if_pos hC]
      exact ih h
    · have hLength := congrArg List.length h
      simp only [List.length_cons, List.length_append] at hLength
      omega

/-- A regular expression in front of `rest` ends there whatever follows the first character. -/
theorem afterRegex_local {inClass : Bool} (h : afterRegex inClass (front ++ rest) = rest) :
    afterRegex inClass (front ++ rest') = rest' := by
  have hShort : ∀ (b : Bool) (cs : List Char), afterRegex b cs = rest → rest.length ≤ cs.length :=
    fun b cs hCs => hCs ▸ (afterRegex_suffix b cs).length_le
  generalize hCs : front ++ rest = cs at h
  fun_induction afterRegex inClass cs generalizing front with
  | case1 =>
    obtain ⟨rfl, hNil⟩ := List.append_eq_nil_iff.mp hCs
    rw [eq_nil_of_head? hHead hNil]
    rfl
  | case2 =>
    rw [← h, List.append_nil] at hCs
    rw [eq_nil_of_head? hHead h.symm, List.append_nil, hCs]
    rfl
  | case3 inClass c cs ih =>
    obtain ⟨behind, rfl, hBehind⟩ := exists_front ['\\', c] (hShort _ _ h) hCs
    have hLater := ih hBehind.symm h
    exact hLater
  | case4 cs =>
    obtain rfl : front = [] := by
      have hLength := congrArg List.length hCs
      rw [List.length_append, ← h] at hLength
      exact List.length_eq_zero_iff.mp (by omega)
    rw [← h] at hHead
    cases rest' with
    | nil => cases hHead
    | cons c cs' =>
      obtain rfl := Option.some.inj hHead
      rfl
  | case5 inClass cs ih =>
    obtain ⟨behind, rfl, hBehind⟩ := exists_front ['['] (hShort _ _ h) hCs
    have hLater := ih hBehind.symm h
    exact hLater
  | case6 inClass cs ih =>
    obtain ⟨behind, rfl, hBehind⟩ := exists_front [']'] (hShort _ _ h) hCs
    have hLater := ih hBehind.symm h
    exact hLater
  | case7 cs ih =>
    obtain ⟨behind, rfl, hBehind⟩ := exists_front ['/'] (hShort _ _ h) hCs
    have hLater := ih hBehind.symm h
    exact hLater
  | case8 inClass cs hOut =>
    have hLength := (List.dropWhile_suffix (l := cs) Char.isAlpha).length_le
    rw [h] at hLength
    obtain ⟨behind, rfl, hBehind⟩ := exists_front ['/'] hLength hCs
    rw [hBehind] at h
    rw [List.append_assoc, List.singleton_append, afterRegex, if_neg hOut]
    exact dropWhile_local hHead h
  | case9 inClass c cs hLast hEscape hLine hOpen hClose hSlash ih =>
    obtain ⟨behind, rfl, hBehind⟩ := exists_front [c] (hShort _ _ h) hCs
    rw [List.append_assoc, List.singleton_append,
      afterRegex_cons_of_ne (ne_backslash hLast hEscape) hLine hOpen hClose hSlash]
    exact ih hBehind.symm h

end Regex

section Step

variable {c : Char} {xs : List Inset} (h : Loose (bare c :: xs))
include h

theorem Loose.afterComment?_meet :
    afterComment? (c :: plain xs) = none ∧ afterComment? (c :: woven xs) = none ∨
      ∃ cs ds, afterComment? (c :: plain xs) = some cs ∧ afterComment? (c :: woven xs) = some ds ∧
        Meet xs cs ds := by
  by_cases hSlash : c = '/'
  · subst hSlash
    obtain ⟨hRest, hJoins⟩ := h.tail.fits (by decide) (by decide)
    exact afterComment?_over hRest hJoins
  · exact Or.inl ⟨afterComment?_of_ne hSlash _, afterComment?_of_ne hSlash _⟩

theorem Loose.step_meet (last : Last) (hWord : isWordChar c = false) :
    (∃ last' cs ds, step last c (plain xs) = ⟨none, last', cs⟩ ∧
      step last c (woven xs) = ⟨none, last', ds⟩ ∧ MeetBehind c xs cs ds) ∨
    step last c (plain xs) = ⟨none, .punctuation c, afterRegex false (plain xs)⟩ ∧
      step last c (woven xs) = ⟨none, .punctuation c, afterRegex false (woven xs)⟩ := by
  have hN : c ≠ 'n' := by
    rintro rfl
    cases hWord
  rcases h.afterComment?_meet with ⟨hNone, hNone'⟩ | ⟨cs, ds, hSome, hSome', hMeet⟩
  · unfold step
    rw [hNone, hNone']
    dsimp only
    by_cases hRegex : c = '/' ∧ last.allowsRegex = true
    · rw [if_pos hRegex, if_pos hRegex]
      exact Or.inr ⟨rfl, rfl⟩
    · rw [if_neg hRegex, if_neg hRegex]
      left
      split
      · rename_i hQuote
        exact ⟨_, _, _, rfl, rfl, ((h.tail.fits_of_isQuote hQuote).string_meet hQuote).2⟩
      · split
        · rename_i hTick
          have hFits := (h.tail.fits (hTick ▸ by decide) hN).1
          exact ⟨_, _, _, rfl, rfl, (afterOpen_meet [.template] hFits).behind⟩
        · rw [hWord, if_neg Bool.false_ne_true, if_neg Bool.false_ne_true]
          have hHere := (Meet.here (h.tail.loose hN)).behind (q := c)
          split
          · exact ⟨_, _, _, rfl, rfl, hHere⟩
          · exact ⟨_, _, _, rfl, rfl, hHere⟩
  · refine Or.inl ⟨last, cs, ds, ?_, ?_, hMeet.behind⟩
    · rw [step, hSome]
    · rw [step, hSome']

end Step

/-- What a declaration says, apart from where it stands. -/
structure Content where
  kind : DeclarationKind
  quote : Char
  value : List Char
  hasAttributes : Bool
deriving DecidableEq, Repr

def Site.content (site : Site) : Content :=
  ⟨site.kind, site.specifier.quote, site.specifier.body, site.hasAttributes⟩

def Mark.content (m : Mark) (site : Site) : Content :=
  ⟨site.kind, site.specifier.quote, site.specifier.body ++ m.front,
    site.hasAttributes || decide (m = .clause)⟩

/-- The step `s` over a text with marks goes as the step `r` over the text without, with the sites
`later` behind. -/
structure Step.Marked (f : Site → Mark) (later : List Site) (r s : Step) : Prop where
  last : s.last = r.last
  rest : s.rest = woven (weave f r.rest later)
  site : s.site.map Site.content = r.site.map fun site => (f site).content site

section Marked

variable {f : Site → Mark} {c : Char} {cs : List Char} {sites : List Site}

theorem Within.of_suffix {rest : List Char} (hRest : rest <:+ cs) (h : Within rest sites) :
    Within cs sites := by
  cases sites with
  | nil => trivial
  | cons site sites => exact ⟨h.1.trans hRest, h.2⟩

/-- The place that two readers come to. -/
theorem MeetBehind.eq_woven {q : Char} {xs : List Inset} {rest ds : List Char}
    (h : MeetBehind q xs rest ds) (hXs : xs <:+ weave f cs sites) (hRest : rest <:+ cs)
    (hWithin : Within rest sites) : ds = woven (weave f rest sites) := by
  obtain ⟨ys, hYs, -, rfl, hDs⟩ := h
  have hEq := eq_weave_of_suffix hRest hWithin (hYs.trans hXs) rfl
  rcases hDs with rfl | ⟨-, hMark⟩
  · rw [← hEq]
  · have hLength := length_of_marked hRest hWithin (clause_is_marked q) (hMark.trans hXs)
    rw [length_plain] at hLength
    omega

theorem step_site_of_not_word {last : Last} (hWord : isWordChar c = false) :
    (step last c cs).site = none := by
  unfold step
  split
  · rfl
  · split
    · rfl
    · split
      · rfl
      · split
        · rfl
        · rw [hWord, if_neg Bool.false_ne_true]
          split <;> rfl

theorem step_marked {last : Last} (hWord : isWordChar c = false)
    (hFits : Fits (weave f (c :: cs) sites)) (hRest : Within (step last c cs).rest sites) :
    ∃ xs, weave f (c :: cs) sites = bare c :: xs ∧
      Step.Marked f sites (step last c cs) (step last c (woven xs)) := by
  have hWithin := hRest.of_suffix (step_rest last c cs).1
  have hPlain := plain_weave f hWithin
  obtain ⟨xs, hXs⟩ := weave_cons f hWithin
  rw [hXs] at hFits hPlain
  obtain rfl : plain xs = cs := (List.cons.inj hPlain).2
  have hSuffix := (step_rest last c (plain xs)).1
  refine ⟨xs, hXs, ?_⟩
  rcases (Loose.fits hFits).step_meet last hWord with
    ⟨last', rest, ds, hPlainStep, hStep, hMeet⟩ | ⟨hPlainStep, hStep⟩
  · rw [hPlainStep] at hRest hSuffix ⊢
    rw [hStep]
    have hTail : xs <:+ weave f (c :: plain xs) sites := hXs ▸ List.suffix_cons _ _
    exact ⟨rfl, hMeet.eq_woven hTail hSuffix hRest, rfl⟩
  · rw [hPlainStep] at hRest ⊢
    rw [hStep]
    obtain ⟨front, hFront⟩ := afterRegex_suffix false (plain xs)
    have hBehind := weave_append f (c :: front) hRest
    rw [List.cons_append, hFront, hXs, List.map_cons, List.cons_append] at hBehind
    have hWoven := congrArg woven (List.cons.inj hBehind).2
    rw [woven_append, woven_map_bare] at hWoven
    refine ⟨rfl, ?_, rfl⟩
    dsimp only
    rw [hWoven]
    exact afterRegex_local (head?_weave f hRest) (by rw [hFront])

theorem word_marked {xs : List Inset} (hXs : weave f (c :: plain xs) sites = bare c :: xs)
    (hFits : Fits (bare c :: xs)) (hRest : Within (afterWord (c :: plain xs)) sites) (w : List Char) :
    Step.Marked f sites ⟨none, .word w, afterWord (c :: plain xs)⟩
      ⟨none, .word w, afterWord (c :: woven xs)⟩ := by
  have hSuffix := afterWord_suffix (c :: plain xs)
  have hWhole : bare c :: xs <:+ weave f (c :: plain xs) sites := hXs ▸ List.suffix_refl _
  refine ⟨rfl, ?_, rfl⟩
  rcases hFits.word_meet.2 with hMeet | ⟨-, q, ys, -, hMark, hPlain, -⟩
  · exact (hMeet.behind (q := c)).eq_woven hWhole hSuffix hRest
  · have hLength := length_of_marked hSuffix hRest (clause_is_marked q) (hMark.trans hWhole)
    rw [plain_cons, bare_char] at hPlain
    rw [hPlain, List.length_cons, length_plain] at hLength
    omega

theorem wordStep_of_none {last : Last} {ws : List Char}
    (h : last = .punctuation '.' ∨ specifier? (word ws) (afterWord ws) = none) :
    wordStep last ws = ⟨none, .word (word ws), afterWord ws⟩ := by
  unfold wordStep
  split
  · rfl
  · rename_i hMember
    rw [h.resolve_left hMember]

theorem wordStep_of_some {last : Last} {ws : List Char} {kind : DeclarationKind} {q : Quoted}
    (hMember : last ≠ .punctuation '.') (h : specifier? (word ws) (afterWord ws) = some (kind, q)) :
    wordStep last ws = ⟨some ⟨kind, ws, q, (afterAttributes? q.rest).isSome⟩, .punctuation ';',
      (afterAttributes? q.rest).getD q.rest⟩ := by
  unfold wordStep
  rw [if_neg hMember, h]
  dsimp only
  split
  · rename_i hRest
    rw [hRest]
    rfl
  · rename_i hNone
    rw [hNone]
    rfl

theorem afterAttributes?_weave {cs : List Char} (hFits : Fits (weave f cs sites))
    (hRest : Within ((afterAttributes? cs).getD cs) sites) :
    (afterAttributes? (woven (weave f cs sites))).isSome = (afterAttributes? cs).isSome ∧
      (afterAttributes? (woven (weave f cs sites))).getD (woven (weave f cs sites)) =
        woven (weave f ((afterAttributes? cs).getD cs) sites) := by
  have hSuffix : (afterAttributes? cs).getD cs <:+ cs := by
    cases hCase : afterAttributes? cs with
    | none => exact List.suffix_refl cs
    | some rest => exact afterAttributes?_suffix hCase
  have hMeet := (Loose.fits hFits).afterAttributes?_meet
  rw [plain_weave f (hRest.of_suffix hSuffix)] at hMeet
  rcases hMeet with ⟨hNone, hNone'⟩ | ⟨rest, ds, hSome, hSome', hMeet⟩
  · rw [hNone, hNone']
    exact ⟨rfl, rfl⟩
  · rw [hSome] at hRest hSuffix ⊢
    rw [hSome']
    exact ⟨rfl, (hMeet.behind (q := 'n')).eq_woven (List.suffix_refl _) hSuffix hRest⟩

theorem afterAttributes?_marked {site : Site} (hQuote : isQuote site.specifier.quote = true)
    (hAllowed : (f site).Allowed site)
    (hAttributes : site.hasAttributes = (afterAttributes? site.specifier.rest).isSome)
    (hFits : Fits (weave f site.specifier.rest sites))
    (hRest : Within ((afterAttributes? site.specifier.rest).getD site.specifier.rest) sites) :
    let behind := (f site).behind site.specifier.quote ++ woven (weave f site.specifier.rest sites)
    (afterAttributes? behind).isSome = (site.hasAttributes || decide (f site = .clause)) ∧
      (afterAttributes? behind).getD behind =
        woven (weave f ((afterAttributes? site.specifier.rest).getD site.specifier.rest) sites) := by
  have hBehind := afterAttributes?_weave hFits hRest
  dsimp only
  cases hMark : f site with
  | kept =>
    rw [hAttributes]
    exact ⟨hBehind.1.trans (Bool.or_false _).symm, hBehind.2⟩
  | ending e =>
    rw [hAttributes]
    exact ⟨hBehind.1.trans (Bool.or_false _).symm, hBehind.2⟩
  | clause =>
    rw [hMark] at hAllowed
    obtain ⟨hNone, -⟩ := hAllowed
    rw [hAttributes, Option.isSome_eq_false_iff, Option.isNone_iff_eq_none] at hNone
    rw [hNone, Mark.behind, afterAttributes?_jsonClause hQuote]
    exact ⟨by simp, rfl⟩

theorem quoted?_marked {site : Site} {m : Mark} (hAllowed : m.Allowed site)
    (hClosed : quoted? site.specifier.whole = some site.specifier) (xs : List Inset) :
    quoted? (site.specifier.quote :: woven (site.specifier.body.map bare ++
      m.inset site.specifier.quote :: xs)) =
      some ⟨site.specifier.quote, site.specifier.body ++ m.front,
        m.behind site.specifier.quote ++ woven xs⟩ := by
  obtain ⟨hQuote, -⟩ := quoted?_eq_some hClosed
  have hBody := (Quoted.isQuotedBody hClosed).append (hAllowed.isQuotedBody_front hQuote)
  have hRead := readQuoted_append (ne_backslash_of_isQuote hQuote) hBody
    (m.behind site.specifier.quote ++ woven xs)
  rw [woven_append, woven_map_bare, Mark.woven_inset, ← List.append_assoc, quoted?, if_pos hQuote,
    hRead]

/-- The specifier that is found is found again, with its mark. -/
theorem specifier?_marked {vs : List Inset} {w : List Char} {site : Site} (hLoose : Loose vs)
    (hVs : vs <:+ weave f (c :: cs) (site :: sites)) (hKeyword : plain vs <:+ c :: cs)
    (hSpecifier : specifier? w (plain vs) = some (site.kind, site.specifier))
    (hAllowed : (f site).Allowed site) (hRest : Within site.specifier.rest sites) :
    specifier? w (woven vs) = some (site.kind, ⟨site.specifier.quote,
      site.specifier.body ++ (f site).front, (f site).behind site.specifier.quote ++
        woven (weave f site.specifier.rest sites)⟩) := by
  have hWhole := (specifier?_suffix hSpecifier).trans hKeyword
  have hClosed := (specifier?_eq_some hSpecifier).2
  obtain ⟨kind, a, b, hAgree, hPlain, hWoven⟩ := hLoose.specifier?_agree w
  rw [hSpecifier] at hPlain
  obtain ⟨q, hA, hPair⟩ := Option.map_eq_some_iff.mp hPlain.symm
  obtain ⟨rfl, rfl⟩ := Prod.mk.inj hPair
  rw [hWoven]
  cases hAgree with
  | none => cases hA
  | mark hMark hInset hBehind =>
    have hLength := length_of_marked hWhole hRest.whole hInset (hMark.trans hVs)
    have hLe := hBehind _ hA
    omega
  | @string q ys hString hFits hQuote =>
    have hEq : q :: plain ys = site.specifier.whole := (quoted?_eq_some hA).2
    have hPlace := eq_weave_of_suffix hWhole hRest.whole (hString.trans hVs) hEq
    rw [weave_whole] at hPlace
    obtain ⟨hQ, hYs⟩ := List.cons.inj hPlace
    obtain rfl : q = site.specifier.quote := congrArg Inset.char hQ
    rw [hYs, quoted?_marked hAllowed hClosed]
    rfl

/-- A step that reads a word, and the declaration it introduces. -/
theorem wordStep_marked {last : Last} {later : List Site}
    (hSites : (wordStep last (c :: cs)).site.toList ++ later = sites)
    (hClosed : ∀ site ∈ sites, quoted? site.specifier.whole = some site.specifier)
    (hSuits : ∀ site ∈ sites, (f site).Suits site) (hWithin : Within (c :: cs) sites)
    (hRest : Within (wordStep last (c :: cs)).rest later) :
    ∃ xs, weave f (c :: cs) sites = bare c :: xs ∧
      Step.Marked f later (wordStep last (c :: cs)) (wordStep last (c :: woven xs)) := by
  have hFits := fits_weave hWithin hClosed hSuits
  have hPlain := plain_weave f hWithin
  obtain ⟨xs, hXs⟩ := weave_cons f hWithin
  rw [hXs] at hFits hPlain
  obtain rfl : plain xs = cs := (List.cons.inj hPlain).2
  refine ⟨xs, hXs, ?_⟩
  have hSame : word (c :: woven xs) = word (c :: plain xs) := hFits.word_meet.1
  have hSkip :
      (last = .punctuation '.' ∨
        specifier? (word (c :: plain xs)) (afterWord (c :: plain xs)) = none) →
      (last = .punctuation '.' ∨
        specifier? (word (c :: woven xs)) (afterWord (c :: woven xs)) = none) →
      Step.Marked f later (wordStep last (c :: plain xs)) (wordStep last (c :: woven xs)) := by
    intro hNone hNone'
    rw [wordStep_of_none hNone] at hSites hRest ⊢
    rw [wordStep_of_none hNone', hSame]
    rw [← hSites] at hXs
    exact word_marked hXs hFits hRest _
  by_cases hMember : last = .punctuation '.'
  · exact hSkip (Or.inl hMember) (Or.inl hMember)
  · by_cases hKeyword : word (c :: plain xs) = "import".toList ∨ word (c :: plain xs) = "export".toList
    · have hMeet : Meet (bare c :: xs) (afterWord (c :: plain xs)) (afterWord (c :: woven xs)) := by
        rcases hKeyword with hImport | hExport
        · exact (Loose.fits hFits).afterWord_meet hImport (by decide)
        · exact (Loose.fits hFits).afterWord_meet hExport (by decide)
      obtain ⟨vs, hVs, hLoose, hBehind, hBehind'⟩ := hMeet
      cases hSpecifier : specifier? (word (c :: plain xs)) (afterWord (c :: plain xs)) with
      | none =>
        obtain ⟨kind, a, b, hAgree, hA, hB⟩ := hLoose.specifier?_agree (word (c :: plain xs))
        rw [← hBehind, hSpecifier] at hA
        rw [← hBehind', hAgree.eq_none (Option.map_eq_none_iff.mp hA.symm), ← hSame] at hB
        exact hSkip (Or.inr hSpecifier) (Or.inr hB)
      | some found =>
        obtain ⟨kind, q⟩ := found
        have hStep := wordStep_of_some hMember hSpecifier
        rw [hStep] at hSites hRest ⊢
        subst hSites
        rw [Option.toList_some, List.singleton_append, List.forall_mem_cons] at hClosed hSuits
        have hKept := hXs ▸ hVs
        have hSuffix : plain vs <:+ c :: plain xs := hBehind ▸ afterWord_suffix _
        rw [hBehind] at hSpecifier
        have hAgain := specifier?_marked hLoose hKept hSuffix hSpecifier hSuits.1.allowed hWithin.2
        rw [← hBehind', ← hSame] at hAgain
        have hStep' := wordStep_of_some hMember hAgain
        have hLater := fits_weave hWithin.2 hClosed.2 hSuits.2
        obtain ⟨hQuote, -⟩ := quoted?_eq_some hClosed.1
        obtain ⟨hAttributes, hEnd⟩ := afterAttributes?_marked hQuote hSuits.1.allowed rfl hLater hRest
        rw [hStep']
        refine ⟨rfl, hEnd, ?_⟩
        exact congrArg (fun b => some (Content.mk _ _ _ b)) hAttributes
    · have hNone : ∀ ws, specifier? (word (c :: plain xs)) ws = none := by
        intro ws
        rw [specifier?, if_neg (not_or.mp hKeyword).1, if_neg (not_or.mp hKeyword).2]
      exact hSkip (Or.inr (hNone _)) (Or.inr (hSame ▸ hNone _))

end Marked

theorem Mark.Allowed.count_inset {m : Mark} {site : Site} (h : m.Allowed site) {q : Char}
    (hQuote : isQuote q = true) (xs : List Inset) :
    (woven (m.inset q :: xs)).count '\n' = (woven xs).count '\n' := by
  have hFront : m.front.count '\n' = 0 := by
    apply List.count_eq_zero_of_not_mem
    cases m with
    | ending e => exact fun hMem => (ending_chars h.2 _ hMem).2.1 rfl
    | _ => exact List.not_mem_nil
  have hBehind : (m.behind q).count '\n' = 0 := by
    apply List.count_eq_zero_of_not_mem
    cases m with
    | clause => exact fun hMem => (clause_chars hQuote _ hMem).2.1 rfl
    | _ => exact List.not_mem_nil
  have hLine : (q == '\n') = false := beq_false_of_ne (ne_line_of_isQuote hQuote)
  rw [Mark.woven_inset, List.count_append, List.count_cons, List.count_append, hFront, hBehind,
    hLine]
  simp

theorem count_weave {f : Site → Mark} {cs : List Char} {sites : List Site} (h : Within cs sites)
    (hClosed : ∀ site ∈ sites, quoted? site.specifier.whole = some site.specifier)
    (hAllowed : ∀ site ∈ sites, (f site).Allowed site) :
    (woven (weave f cs sites)).count '\n' = cs.count '\n' := by
  induction sites generalizing cs with
  | nil => rw [weave, woven_map_bare]
  | cons site sites ih =>
    rw [List.forall_mem_cons] at hClosed hAllowed
    obtain ⟨⟨gap, rfl⟩, hRest⟩ := h
    obtain ⟨hQuote, -⟩ := quoted?_eq_some hClosed.1
    have hLine : (site.specifier.quote == '\n') = false :=
      beq_false_of_ne (ne_line_of_isQuote hQuote)
    have hMarked := hAllowed.1.count_inset hQuote (weave f site.specifier.rest sites)
    rw [weave_append f gap hRest.whole, weave_whole, woven_append, woven_map_bare, woven_bare,
      woven_append, woven_map_bare, Quoted.whole]
    simp only [List.count_append, List.count_cons, hLine, hMarked, ih hRest hClosed.2 hAllowed.2]
    simp

/-- A site is found again with its mark and on its line. -/
structure Site.FoundAgain (f : Site → Mark) (site found : Site) : Prop where
  content : found.content = (f site).content site
  lineEnds : found.keyword.count '\n' = site.keyword.count '\n'

/-- One step over a text and over the text with its specifiers marked. -/
theorem exists_step_marked {f : Site → Mark} {last : Last} {c : Char} {cs : List Char}
    (hClosed : ∀ site ∈ sitesFrom last (c :: cs), quoted? site.specifier.whole = some site.specifier)
    (hSuits : ∀ site ∈ sitesFrom last (c :: cs), (f site).Suits site) :
    ∃ xs, weave f (c :: cs) (sitesFrom last (c :: cs)) = bare c :: xs ∧
      Step.Marked f (sitesFrom (step last c cs).last (step last c cs).rest) (step last c cs)
        (step last c (woven xs)) := by
  have hOrder := sitesFrom_inOrder last (c :: cs)
  have hLater := (sitesFrom_inOrder (step last c cs).last (step last c cs).rest).within
  rw [sitesFrom_cons] at hClosed hSuits hOrder ⊢
  cases hWord : isWordChar c with
  | true =>
    have hRead := step_word hWord last
    simp only [hRead] at *
    exact wordStep_marked rfl hClosed hSuits hOrder.within hLater
  | false =>
    rw [step_site_of_not_word hWord] at hClosed hSuits hOrder ⊢
    exact step_marked hWord (fits_weave hOrder.within hClosed hSuits) hLater

/-- The declarations of a text are found again when its specifiers have been marked. -/
theorem sitesFrom_weave {f : Site → Mark} {last : Last} {cs : List Char}
    (hClosed : ∀ site ∈ sitesFrom last cs, quoted? site.specifier.whole = some site.specifier)
    (hSuits : ∀ site ∈ sitesFrom last cs, (f site).Suits site) :
    List.Forall₂ (Site.FoundAgain f) (sitesFrom last cs)
      (sitesFrom last (woven (weave f cs (sitesFrom last cs)))) := by
  fun_induction sitesFrom last cs with
  | case1 last =>
    rw [weave, List.map_nil, woven_nil, sitesFrom]
    exact .nil
  | case2 last c cs ih =>
    rw [← sitesFrom_cons] at hClosed hSuits ⊢
    obtain ⟨xs, hXs, hLast, hRest, hSite⟩ := exists_step_marked hClosed hSuits
    -- what is put in holds no line end, so a site is found again on its line
    have hLines := count_weave (sitesFrom_inOrder last (c :: cs)).within hClosed
      fun site hMem => (hSuits site hMem).allowed
    rw [sitesFrom_cons, List.forall_mem_append] at hClosed hSuits
    have hTail := ih hClosed.2 hSuits.2
    rw [hXs, woven_bare] at hLines ⊢
    rw [sitesFrom_cons, sitesFrom_cons, hLast, hRest]
    cases hHere : (step last c cs).site with
    | none =>
      rw [hHere] at hSite
      rw [Option.map_eq_none_iff.mp hSite]
      exact hTail
    | some site =>
      rw [hHere] at hSite
      obtain ⟨found, hFound, hContent⟩ := Option.map_eq_some_iff.mp hSite
      rw [hFound]
      refine .cons ⟨hContent, ?_⟩ hTail
      rw [(step_site hFound).1, (step_site hHere).1, hLines]

theorem contents_of_foundAgain {f : Site → Mark} {sites found : List Site}
    (h : List.Forall₂ (Site.FoundAgain f) sites found) :
    found.map Site.content = sites.map fun site => (f site).content site := by
  induction h with
  | nil => rfl
  | cons hSite _ ih => rw [List.map_cons, List.map_cons, hSite.content, ih]

end ExplicitModules.Source
