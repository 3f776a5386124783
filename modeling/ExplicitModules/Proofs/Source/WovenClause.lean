import ExplicitModules.Proofs.Source.Clause
import ExplicitModules.Proofs.Source.Weaving

/-!
# Clauses in a text with insertions

A search for the specifier of a declaration goes the same way through a text and through the text
with insertions. Both find the same string or nothing, unless the search runs into an insertion: then
nothing is found in the text that has it.
-/
namespace ExplicitModules.Source
set_option autoImplicit false

theorem afterTrivia_ending {e : List Char} (h : e ∈ endings) (rest : List Char) :
    afterTrivia (e ++ rest) = e ++ rest := by
  simp only [endings, List.mem_cons, List.not_mem_nil, or_false] at h
  rcases h with rfl | rfl | rfl | rfl <;> exact afterTrivia_stop rfl rfl

theorem afterTrivia_quote {q : Char} (h : isQuote q = true) (cs : List Char) :
    afterTrivia (q :: cs) = q :: cs := by
  obtain ⟨hSpace, -, hSlash, -⟩ := isQuote_spec h
  exact afterTrivia_of_ne hSpace hSlash cs

theorem Loose.afterTrivia_meet {xs : List Inset} (h : Loose xs) :
    Meet xs (afterTrivia (plain xs)) (afterTrivia (woven xs)) := by
  induction hLength : xs.length using Nat.strongRecOn generalizing xs with
  | ind n ih =>
    subst hLength
    have hOver : ∀ c ys, xs = bare c :: ys → Fits ys → Joins c ys →
        Meet xs (afterTrivia (c :: plain ys)) (afterTrivia (c :: woven ys)) := by
      rintro c ys rfl hRest hJoins
      cases hSpace : isSpace c with
      | true =>
        rw [afterTrivia_skips.space c _ hSpace, afterTrivia_skips.space c _ hSpace]
        exact (ih ys.length (by simp) (.fits hRest) rfl).cons
      | false =>
        rcases afterComment?_over hRest hJoins with
          ⟨hNone, hNone'⟩ | ⟨cs, ds, hSome, hSome', zs, hZs, hLoose, rfl, rfl⟩
        · rw [afterTrivia_stop hSpace hNone, afterTrivia_stop hSpace hNone']
          exact .here h
        · rw [afterTrivia_skips.comment _ _ hSome, afterTrivia_skips.comment _ _ hSome']
          have hZsLength := hZs.length_le
          exact ((ih zs.length (by simp only [List.length_cons]; omega) hLoose rfl).of_suffix hZs).cons
    have hStop : afterTrivia (plain xs) = plain xs → afterTrivia (woven xs) = woven xs →
        Meet xs (afterTrivia (plain xs)) (afterTrivia (woven xs)) := by
      intro hPlain hWoven
      rw [hPlain, hWoven]
      exact .here h
    cases h with
    | escaped c hRest hJoins => exact hOver c _ rfl hRest hJoins
    | fits hFits =>
      cases hFits with
      | nil => exact hStop (by rw [plain_nil, afterTrivia]) (by rw [woven_nil, afterTrivia])
      | last => exact hStop (afterTrivia_stop rfl rfl) (afterTrivia_stop rfl rfl)
      | escape c hRest hJoins => exact hStop (afterTrivia_stop rfl rfl) (afterTrivia_stop rfl rfl)
      | char hPlain hRest hJoins => exact hOver _ _ rfl hRest hJoins
      | ending hQuote hEnding hRest =>
        apply hStop
        · exact afterTrivia_quote hQuote _
        · rw [woven_ending, afterTrivia_ending hEnding]
      | clause hQuote hRest => exact hStop (afterTrivia_stop rfl rfl) (afterTrivia_stop rfl rfl)

section Words

theorem word_cons_of_word {c : Char} (h : isWordChar c = true) (cs : List Char) :
    word (c :: cs) = c :: word cs ∧ afterWord (c :: cs) = afterWord cs := by
  simp [word, afterWord, h]

theorem word_cons_of_not {c : Char} (h : isWordChar c = false) (cs : List Char) :
    word (c :: cs) = [] ∧ afterWord (c :: cs) = c :: cs := by
  simp [word, afterWord, h]

theorem word_ending {e : List Char} (h : e ∈ endings) (rest : List Char) :
    word (e ++ rest) = [] ∧ afterWord (e ++ rest) = e ++ rest := by
  simp only [endings, List.mem_cons, List.not_mem_nil, or_false] at h
  rcases h with rfl | rfl | rfl | rfl <;> exact word_cons_of_not rfl _

/-- A word ends at the same place, or in front of a quote with a clause behind it. -/
def WordMeet (xs : List Inset) : Prop :=
  Meet xs (afterWord (plain xs)) (afterWord (woven xs)) ∨
    (word (plain xs)).getLast? = some 'n' ∧ ∃ q ys, isQuote q = true ∧
      ⟨q, [], jsonClause q⟩ :: ys <:+ xs ∧ afterWord (plain xs) = q :: plain ys ∧
      afterWord (woven xs) = q :: (jsonClause q ++ woven ys)

theorem word_over {c : Char} {xs : List Inset} (h : Loose (bare c :: xs))
    (ih : word (woven xs) = word (plain xs) ∧ WordMeet xs) :
    word (woven (bare c :: xs)) = word (plain (bare c :: xs)) ∧ WordMeet (bare c :: xs) := by
  unfold WordMeet at ih ⊢
  rw [plain_cons, woven_bare, bare_char]
  cases hWord : isWordChar c with
  | true =>
    rw [(word_cons_of_word hWord _).1, (word_cons_of_word hWord _).1,
      (word_cons_of_word hWord _).2, (word_cons_of_word hWord _).2, ih.1]
    refine ⟨rfl, ?_⟩
    rcases ih.2 with hMeet | ⟨hLast, q, ys, hQuote, hYs, hRest⟩
    · exact Or.inl hMeet.cons
    · refine Or.inr ⟨?_, q, ys, hQuote, hYs.trans (List.suffix_cons _ _), hRest⟩
      rw [List.getLast?_cons, hLast]
      rfl
  | false =>
    rw [(word_cons_of_not hWord _).1, (word_cons_of_not hWord _).1,
      (word_cons_of_not hWord _).2, (word_cons_of_not hWord _).2]
    exact ⟨rfl, Or.inl (Meet.here h)⟩

theorem Fits.word_meet {xs : List Inset} (h : Fits xs) :
    word (woven xs) = word (plain xs) ∧ WordMeet xs := by
  induction h with
  | nil => exact ⟨rfl, Or.inl (Meet.here (.fits .nil))⟩
  | last => exact ⟨rfl, Or.inl (Meet.here (.fits .last))⟩
  | escape c hRest hJoins =>
    exact ⟨rfl, Or.inl (Meet.here (.fits (.escape c hRest hJoins)))⟩
  | char hPlain hRest hJoins ih => exact word_over (.fits (.char hPlain hRest hJoins)) ih
  | @ending q e xs hQuote hEnding hRest =>
    have hPlain := word_cons_of_not (isQuote_spec hQuote).2.1 (plain xs)
    have hWoven := word_ending hEnding (q :: woven xs)
    unfold WordMeet
    rw [plain_inset, woven_ending, hPlain.1, hPlain.2, hWoven.1, hWoven.2]
    refine ⟨rfl, Or.inl ?_⟩
    have hHere := Meet.here (.fits (.ending hQuote hEnding hRest))
    rwa [plain_inset, woven_ending] at hHere
  | @clause q xs hQuote hRest =>
    have hN : isWordChar 'n' = true := rfl
    have hStop := fun cs => word_cons_of_not (isQuote_spec hQuote).2.1 cs
    unfold WordMeet
    rw [plain_cons, plain_inset, woven_bare, woven_clause, bare_char]
    rw [(word_cons_of_word hN _).1, (word_cons_of_word hN _).1, (word_cons_of_word hN _).2,
      (word_cons_of_word hN _).2, (hStop _).1, (hStop _).1, (hStop _).2, (hStop _).2]
    exact ⟨rfl, Or.inr ⟨rfl, q, xs, hQuote, List.suffix_cons _ _, rfl, rfl⟩⟩

theorem Loose.word_meet {xs : List Inset} (h : Loose xs) :
    word (woven xs) = word (plain xs) ∧ WordMeet xs := by
  cases h with
  | fits hFits => exact hFits.word_meet
  | escaped c hRest hJoins => exact word_over (.escaped c hRest hJoins) hRest.word_meet

theorem Loose.afterWord_meet {xs : List Inset} (h : Loose xs) {k : String}
    (hWord : word (plain xs) = k.toList) (hLast : k.toList.getLast? ≠ some 'n') :
    Meet xs (afterWord (plain xs)) (afterWord (woven xs)) := by
  rcases h.word_meet.2 with hMeet | ⟨hN, -⟩
  · exact hMeet
  · rw [hWord] at hN
    exact absurd hN hLast

end Words

/-- How two searches for a specifier, in the plain and in the woven text, go together. -/
inductive Agree (xs : List Inset) : Option Quoted → Option Quoted → Prop
  | none : Agree xs none none
  /-- Only the plain text has a string behind an insertion. -/
  | mark {x : Inset} {ys : List Inset} {a : Option Quoted} (hMark : x :: ys <:+ xs)
      (hInset : x ≠ bare x.char) (hBehind : ∀ r, a = some r → r.whole.length ≤ ys.length + 1) :
      Agree xs a .none
  | string {q : Char} {ys : List Inset} (hString : bare q :: ys <:+ xs) (hRest : Fits ys)
      (hQuote : isQuote q = true) : Agree xs (quoted? (q :: plain ys)) (quoted? (q :: woven ys))

theorem Agree.of_suffix {xs ys : List Inset} {a b : Option Quoted} (h : Agree ys a b)
    (hSuffix : ys <:+ xs) : Agree xs a b := by
  cases h with
  | none => exact .none
  | mark hMark hInset hBehind => exact .mark (hMark.trans hSuffix) hInset hBehind
  | string hString hRest hQuote => exact .string (hString.trans hSuffix) hRest hQuote

theorem length_plain (xs : List Inset) : (plain xs).length = xs.length :=
  List.length_map _

theorem ending_is_marked {q : Char} {e : List Char} (h : e ∈ endings) :
    (⟨q, e, []⟩ : Inset) ≠ bare q := by
  intro hBare
  injection hBare with _ hFront
  subst hFront
  exact absurd h (by decide)

theorem clause_is_marked (q : Char) : (⟨q, [], jsonClause q⟩ : Inset) ≠ bare q := by
  intro hBare
  injection hBare with _ _ hClause
  unfold jsonClause at hClause
  exact List.append_ne_nil_of_right_ne_nil _ (List.cons_ne_nil _ _) hClause

/-- A search behind a marked quote, of which the woven text has nothing. -/
theorem Agree.of_ending {xs ys : List Inset} {q : Char} {e : List Char} {a : Option Quoted}
    (hMark : ⟨q, e, []⟩ :: ys <:+ xs) (hEnding : e ∈ endings)
    (hBehind : ∀ r, a = some r → r.whole <:+ q :: plain ys) : Agree xs a .none := by
  apply Agree.mark hMark (ending_is_marked hEnding)
  intro r hR
  have hLength := (hBehind r hR).length_le
  rwa [List.length_cons, length_plain] at hLength

theorem Agree.of_clause {xs ys : List Inset} {q : Char} {a : Option Quoted}
    (hMark : ⟨q, [], jsonClause q⟩ :: ys <:+ xs)
    (hBehind : ∀ r, a = some r → r.whole <:+ plain ys) : Agree xs a .none := by
  apply Agree.mark hMark (clause_is_marked q)
  intro r hR
  have hLength := (hBehind r hR).length_le
  rw [length_plain] at hLength
  omega

theorem quoted?_quote {q : Char} (h : isQuote q = true) (cs : List Char) :
    quoted? (q :: cs) = (readQuoted q cs).1.map fun body => ⟨q, body, (readQuoted q cs).2⟩ := by
  rw [quoted?, if_pos h]
  split
  · rename_i hRead
    rw [hRead]
    rfl
  · rename_i hRead
    rw [hRead]
    rfl

theorem quoted?_ending {e : List Char} (h : e ∈ endings) (rest : List Char) :
    quoted? (e ++ rest) = none := by
  simp only [endings, List.mem_cons, List.not_mem_nil, or_false] at h
  rcases h with rfl | rfl | rfl | rfl <;> exact quoted?_eq_none rfl _

theorem Loose.quoted?_agree {xs : List Inset} (h : Loose xs) :
    Agree xs (quoted? (plain xs)) (quoted? (woven xs)) := by
  have hBare : ∀ c ys, xs = bare c :: ys → (isQuote c = true → Fits ys) →
      Agree xs (quoted? (c :: plain ys)) (quoted? (c :: woven ys)) := by
    rintro c ys rfl hRest
    cases hQuote : isQuote c with
    | true => exact .string (List.suffix_refl _) (hRest hQuote) hQuote
    | false =>
      rw [quoted?_eq_none hQuote, quoted?_eq_none hQuote]
      exact .none
  cases h with
  | escaped c hRest hJoins => exact hBare c _ rfl fun _ => hRest
  | fits hFits =>
    cases hFits with
    | nil => exact .none
    | last => exact hBare '\\' _ rfl fun _ => .nil
    | escape c hRest hJoins => exact hBare '\\' _ rfl nofun
    | char hPlain hRest hJoins => exact hBare _ _ rfl fun _ => hRest
    | clause hQuote hRest => exact hBare 'n' _ rfl nofun
    | @ending q e ys hQuote hEnding hRest =>
      rw [woven_ending, quoted?_ending hEnding]
      apply Agree.of_ending (List.suffix_refl _) hEnding
      intro r hR
      rw [← (quoted?_eq_some hR).2]
      exact List.suffix_refl _

/-- Behind a character of the text itself. -/
structure Tail (c : Char) (xs : List Inset) : Prop where
  loose : c ≠ 'n' → Loose xs
  fits : c ≠ '\\' → c ≠ 'n' → Fits xs ∧ Joins c xs

theorem Tail.of_fits {c : Char} {xs : List Inset} (hRest : Fits xs) (hJoins : Joins c xs) :
    Tail c xs :=
  ⟨fun _ => .fits hRest, fun _ _ => ⟨hRest, hJoins⟩⟩

theorem Tail.fits_of_isQuote {q : Char} {xs : List Inset} (h : Tail q xs) (hQuote : isQuote q = true) :
    Fits xs := by
  have hN : q ≠ 'n' := by
    rintro rfl
    cases hQuote
  exact (h.fits (ne_backslash_of_isQuote hQuote) hN).1

/-- Where the plain text has no string, the woven text has none. -/
theorem Agree.eq_none {xs : List Inset} {a b : Option Quoted} (h : Agree xs a b)
    (hNone : a = .none) : b = .none := by
  cases h with
  | none => rfl
  | mark hMark hInset hBehind => rfl
  | string hString hRest hQuote =>
    obtain ⟨hClosed, -⟩ := hRest.string_meet hQuote
    rw [quoted?_quote hQuote, Option.map_eq_none_iff] at hNone ⊢
    rw [hNone, Option.isSome_none, Option.isSome_eq_false_iff, Option.isNone_iff_eq_none] at hClosed
    exact hClosed

/-- How a text begins: with a character of its own or with an ending. -/
theorem Loose.shape {xs : List Inset} (h : Loose xs) :
    xs = [] ∨ (∃ c ys, xs = bare c :: ys ∧ Tail c ys) ∨
      ∃ q e ys, xs = ⟨q, e, []⟩ :: ys ∧ isQuote q = true ∧ e ∈ endings := by
  cases h with
  | escaped c hRest hJoins => exact Or.inr (Or.inl ⟨c, _, rfl, .of_fits hRest hJoins⟩)
  | fits hFits =>
    cases hFits with
    | nil => exact Or.inl rfl
    | last => exact Or.inr (Or.inl ⟨'\\', [], rfl, .of_fits .nil nofun⟩)
    | escape c hRest hJoins =>
      exact Or.inr (Or.inl ⟨'\\', _, rfl, fun _ => .escaped c hRest hJoins,
        fun hEscape => absurd rfl hEscape⟩)
    | char hPlain hRest hJoins => exact Or.inr (Or.inl ⟨_, _, rfl, .of_fits hRest hJoins⟩)
    | clause hQuote hRest =>
      exact Or.inr (Or.inl ⟨'n', _, rfl, fun hN => absurd rfl hN, fun _ hN => absurd rfl hN⟩)
    | ending hQuote hEnding hRest => exact Or.inr (Or.inr ⟨_, _, _, rfl, hQuote, hEnding⟩)

theorem Loose.tail {c : Char} {xs : List Inset} (h : Loose (bare c :: xs)) : Tail c xs := by
  obtain hNil | ⟨d, ys, hXs, hTail⟩ | ⟨q, e, ys, hXs, -, hEnding⟩ := h.shape
  · cases hNil
  · cases hXs
    exact hTail
  · cases hXs
    exact absurd hEnding (by decide)

section Import

theorem importSource?_of_stop {c : Char} (hSpace : isSpace c = false) (hBrace : c ≠ '{')
    (hMark : ¬(c = '*' ∨ c = ',')) (hWord : isWordChar c = false) {cs : List Char}
    (hNone : afterComment? (c :: cs) = none) : importSource? (c :: cs) = none := by
  rw [importSource?_eq, afterTrivia_stop hSpace hNone]
  dsimp only
  rw [if_neg hBrace, if_neg hMark, hWord, if_neg Bool.false_ne_true]

theorem importSource?_quote {q : Char} (h : isQuote q = true) (cs : List Char) :
    importSource? (q :: cs) = none := by
  obtain ⟨hSpace, hWord, hSlash, -⟩ := isQuote_spec h
  apply importSource?_of_stop hSpace _ _ hWord (afterComment?_of_ne hSlash cs)
  · rintro rfl
    cases h
  · rintro (rfl | rfl) <;> cases h

theorem importSource?_ending {e : List Char} (h : e ∈ endings) (rest : List Char) :
    importSource? (e ++ rest) = none := by
  simp only [endings, List.mem_cons, List.not_mem_nil, or_false] at h
  rcases h with rfl | rfl | rfl | rfl <;>
    exact importSource?_of_stop rfl (by decide) (by decide) rfl rfl

theorem ending_not_quoted {e : List Char} (h : e ∈ endings) (rest : List Char) :
    (e ++ rest).head?.any isQuote = false := by
  simp only [endings, List.mem_cons, List.not_mem_nil, or_false] at h
  rcases h with rfl | rfl | rfl | rfl <;> rfl

theorem importSource?_behind_agree {vs : List Inset} (h : Loose vs)
    (ih : Agree vs (importSource? (plain vs)) (importSource? (woven vs))) (w : List Char) :
    Agree vs
      (if w = "from".toList ∧ (afterTrivia (plain vs)).head?.any isQuote then
        quoted? (afterTrivia (plain vs))
      else importSource? (plain vs))
      (if w = "from".toList ∧ (afterTrivia (woven vs)).head?.any isQuote then
        quoted? (afterTrivia (woven vs))
      else importSource? (woven vs)) := by
  obtain ⟨ts, hTs, hLoose, hPlain, hWoven⟩ := h.afterTrivia_meet
  by_cases hFrom : w = "from".toList
  · rw [hPlain, hWoven]
    have hString := hLoose.quoted?_agree.of_suffix hTs
    obtain rfl | ⟨c, zs, rfl, -⟩ | ⟨q, e, zs, rfl, hQuote, hEnding⟩ := hLoose.shape
    · rw [if_neg (by simp), if_neg (by simp)]
      exact ih
    · rw [plain_cons, woven_bare, bare_char, List.head?_cons, List.head?_cons] at *
      split
      · exact hString
      · exact ih
    · -- the name of the module is edited, and only the plain text has a string here
      have hNone : importSource? (woven vs) = none := by
        rw [← importSource?_afterTrivia, hWoven, woven_ending, importSource?_ending hEnding]
      have hQuoted : (plain (⟨q, e, []⟩ :: zs)).head?.any isQuote = true := hQuote
      rw [woven_ending, ending_not_quoted hEnding, hQuoted, if_pos ⟨hFrom, rfl⟩,
        if_neg fun hBoth => Bool.false_ne_true hBoth.2, hNone]
      apply Agree.of_ending hTs hEnding
      intro r hR
      rw [← (quoted?_eq_some hR).2]
      exact List.suffix_refl _
  · rw [if_neg fun hBoth => hFrom hBoth.1, if_neg fun hBoth => hFrom hBoth.1]
    exact ih

theorem importSource?_word_agree {c : Char} {zs : List Inset} (h : Loose (bare c :: zs))
    (hWord : isWordChar c = true) (ih : ∀ vs, vs.length ≤ zs.length → Loose vs →
      Agree vs (importSource? (plain vs)) (importSource? (woven vs))) :
    Agree (bare c :: zs) (importSource? (c :: plain zs)) (importSource? (c :: woven zs)) := by
  have hTrivia := fun cs => afterTrivia_of_ne (isWordChar_spec hWord).1 (isWordChar_spec hWord).2.2.1 cs
  have hSame : word (c :: woven zs) = word (c :: plain zs) := h.word_meet.1
  rw [importSource?_of_word (hTrivia _) hWord, importSource?_of_word (hTrivia _) hWord, hSame]
  rcases h.word_meet.2 with ⟨vs, hVs, hLoose, hPlain, hWoven⟩ |
    ⟨hLast, q, vs, hQuote, -, hPlain, hWoven⟩
  · rw [plain_cons, bare_char] at hPlain
    rw [woven_bare] at hWoven
    have hLength := (afterWord_cons_suffix hWord (plain zs)).length_le
    rw [hPlain, length_plain, length_plain] at hLength
    rw [hPlain, hWoven]
    exact (importSource?_behind_agree hLoose (ih vs hLength hLoose) _).of_suffix hVs
  · rw [plain_cons, bare_char] at hLast hPlain
    rw [woven_bare] at hWoven
    have hFrom : word (c :: plain zs) ≠ "from".toList := by
      intro hFrom
      rw [hFrom] at hLast
      revert hLast
      decide
    rw [if_neg fun hBoth => hFrom hBoth.1, if_neg fun hBoth => hFrom hBoth.1, hPlain, hWoven,
      importSource?_quote hQuote, importSource?_quote hQuote]
    exact .none

theorem Loose.importSource?_agree {xs : List Inset} (h : Loose xs) :
    Agree xs (importSource? (plain xs)) (importSource? (woven xs)) := by
  induction hLength : xs.length using Nat.strongRecOn generalizing xs with
  | ind n ih =>
    subst hLength
    obtain ⟨ys, hYs, hLoose, hPlain, hWoven⟩ := h.afterTrivia_meet
    have hLength := hYs.length_le
    have hStop : afterTrivia (plain ys) = plain ys := by rw [← hPlain, afterTrivia_afterTrivia]
    have hStop' : afterTrivia (woven ys) = woven ys := by rw [← hWoven, afterTrivia_afterTrivia]
    rw [← importSource?_afterTrivia, ← importSource?_afterTrivia (woven xs), hPlain, hWoven]
    refine Agree.of_suffix ?_ hYs
    obtain rfl | ⟨c, zs, rfl, hZs⟩ | ⟨q, e, zs, rfl, hQuote, hEnding⟩ := hLoose.shape
    · rw [plain_nil, woven_nil, importSource?_eq, afterTrivia]
      exact .none
    · rw [List.length_cons] at hLength
      have hLater : ∀ vs, vs.length ≤ zs.length → Loose vs →
          Agree vs (importSource? (plain vs)) (importSource? (woven vs)) :=
        fun vs hVs hVsLoose => ih vs.length (by omega) hVsLoose rfl
      rw [plain_cons, woven_bare, bare_char] at *
      cases hWord : isWordChar c with
      | true => exact importSource?_word_agree hLoose hWord hLater
      | false =>
        have hRest : Loose zs := by
          apply hZs.loose
          rintro rfl
          cases hWord
        rw [importSource?_eq, importSource?_eq (c :: woven zs), hStop, hStop']
        dsimp only
        split
        · obtain ⟨vs, hVs, hVsLoose, hOpen, hOpen'⟩ := afterOpen_meet [.brace] hRest
          rw [hOpen, hOpen']
          exact (hLater vs hVs.length_le hVsLoose).of_suffix (hVs.trans (List.suffix_cons _ _))
        · split
          · exact (hLater zs (Nat.le_refl _) hRest).of_suffix (List.suffix_cons _ _)
          · rw [hWord, if_neg Bool.false_ne_true, if_neg Bool.false_ne_true]
            exact .none
    · rw [plain_inset, woven_ending, importSource?_quote hQuote, importSource?_ending hEnding]
      exact .none

theorem importSpecifier?_afterTrivia (cs : List Char) :
    importSpecifier? (afterTrivia cs) = importSpecifier? cs := by
  rw [importSpecifier?, importSpecifier?, afterTrivia_afterTrivia]

theorem importSpecifier?_ending {e : List Char} (h : e ∈ endings) (rest : List Char) :
    importSpecifier? (e ++ rest) = none := by
  have hSource := importSource?_ending h rest
  rw [importSpecifier?, afterTrivia_ending h]
  simp only [endings, List.mem_cons, List.not_mem_nil, or_false] at h
  rcases h with rfl | rfl | rfl | rfl
  · rfl
  · rfl
  · exact hSource
  · exact hSource

theorem Loose.importSpecifier?_agree {xs : List Inset} (h : Loose xs) :
    Agree xs (importSpecifier? (plain xs)) (importSpecifier? (woven xs)) := by
  obtain ⟨ys, hYs, hLoose, hPlain, hWoven⟩ := h.afterTrivia_meet
  have hStop : afterTrivia (plain ys) = plain ys := by rw [← hPlain, afterTrivia_afterTrivia]
  have hStop' : afterTrivia (woven ys) = woven ys := by rw [← hWoven, afterTrivia_afterTrivia]
  rw [← importSpecifier?_afterTrivia, ← importSpecifier?_afterTrivia (woven xs), hPlain, hWoven]
  refine Agree.of_suffix ?_ hYs
  have hString := hLoose.quoted?_agree
  have hSource := hLoose.importSource?_agree
  obtain rfl | ⟨c, zs, rfl, hZs⟩ | ⟨q, e, zs, rfl, hQuote, hEnding⟩ := hLoose.shape
  · rw [importSpecifier?, importSpecifier?, hStop, hStop']
    exact .none
  · rw [importSpecifier?, importSpecifier?, hStop, hStop']
    rw [plain_cons, woven_bare, bare_char] at *
    dsimp only
    split
    · exact .none
    · split
      · exact hString
      · exact hSource
  · rw [woven_ending, importSpecifier?_ending hEnding]
    apply Agree.of_ending (List.suffix_refl _) hEnding
    intro r hR
    exact importSpecifier?_suffix hR

end Import

section Export

theorem fromString?_of_word {cs : List Char} (h : word (afterTrivia cs) ≠ "from".toList) :
    fromString? cs = none := by
  rw [fromString?, if_neg h]

theorem Loose.fromString?_agree {xs : List Inset} (h : Loose xs) :
    Agree xs (fromString? (plain xs)) (fromString? (woven xs)) := by
  obtain ⟨ys, hYs, hLoose, hPlain, hWoven⟩ := h.afterTrivia_meet
  rw [fromString?, fromString?, hPlain, hWoven, hLoose.word_meet.1]
  refine Agree.of_suffix ?_ hYs
  split
  · rename_i hFrom
    obtain ⟨vs, hVs, hVsLoose, hBehind, hBehind'⟩ := hLoose.afterWord_meet hFrom (by decide)
    obtain ⟨ts, hTs, hTsLoose, hString, hString'⟩ := hVsLoose.afterTrivia_meet
    rw [hBehind, hBehind', hString, hString']
    exact hTsLoose.quoted?_agree.of_suffix (hTs.trans hVs)
  · exact .none

theorem fromString?_quote {q : Char} (h : isQuote q = true) (cs : List Char) :
    fromString? (q :: cs) = none := by
  apply fromString?_of_word
  rw [afterTrivia_quote h, (word_cons_of_not (isQuote_spec h).2.1 cs).1]
  decide

theorem afterTrivia_clause (q : Char) (rest : List Char) :
    afterTrivia (jsonClause q ++ rest) = "with".toList ++ ' ' :: '{' :: (" type: ".toList ++
      q :: ("json".toList ++ q :: (" ".toList ++ '}' :: rest))) := by
  rw [jsonClause_append]
  exact (afterTrivia_skips.space ' ' _ rfl).trans (afterTrivia_of_ne rfl (by decide) _)

theorem word_with (rest : List Char) :
    word ("with".toList ++ ' ' :: rest) = "with".toList ∧
      afterWord ("with".toList ++ ' ' :: rest) = ' ' :: rest := by
  constructor
  · exact word_append (by decide) (by simp [isWordChar])
  · exact afterWord_append (by decide) (by simp [isWordChar])

theorem fromString?_clause (q : Char) (rest : List Char) :
    fromString? (jsonClause q ++ rest) = none := by
  apply fromString?_of_word
  rw [afterTrivia_clause, (word_with _).1]
  decide

theorem afterExportName?_ending {e : List Char} (h : e ∈ endings) (rest : List Char) :
    afterExportName? (e ++ rest) = none := by
  simp only [endings, List.mem_cons, List.not_mem_nil, or_false] at h
  rcases h with rfl | rfl | rfl | rfl <;> rfl

/-- Behind a string that is a name. The clause that may follow it does not begin with `from`. -/
theorem Fits.afterString_agree {q : Char} (hQuote : isQuote q = true) {xs : List Inset}
    (h : Fits xs) :
    Agree xs (((quoted? (q :: plain xs)).map Quoted.rest).bind fromString?)
      (((quoted? (q :: woven xs)).map Quoted.rest).bind fromString?) := by
  obtain ⟨hClosed, ys, hYs, hLoose, hPlain, hWoven⟩ := h.string_meet hQuote
  rw [quoted?_quote hQuote, quoted?_quote hQuote, hPlain]
  cases hBody : (readQuoted q (plain xs)).1 with
  | none =>
    rw [hBody, Option.isSome_none, Option.isSome_eq_false_iff, Option.isNone_iff_eq_none] at hClosed
    rw [hClosed]
    exact .none
  | some body =>
    rw [hBody, Option.isSome_some, Option.isSome_iff_exists] at hClosed
    obtain ⟨body', hBody'⟩ := hClosed
    rw [hBody']
    simp only [Option.map_some, Option.bind_some]
    rcases hWoven with hWoven | ⟨hWoven, hMark⟩
    · rw [hWoven]
      exact hLoose.fromString?_agree.of_suffix hYs
    · rw [hWoven, fromString?_clause]
      apply Agree.of_clause hMark
      intro r hR
      exact fromString?_suffix hR

/-- Behind a name, which is a word or a string. -/
theorem Loose.afterExportName?_agree {xs : List Inset} (h : Loose xs) :
    Agree xs ((afterExportName? (plain xs)).bind fromString?)
      ((afterExportName? (woven xs)).bind fromString?) := by
  have hWords := h.word_meet.2
  obtain rfl | ⟨c, zs, rfl, hZs⟩ | ⟨q, e, zs, rfl, hQuote, hEnding⟩ := h.shape
  · exact .none
  · unfold WordMeet at hWords
    rw [plain_cons, woven_bare, bare_char] at *
    unfold afterExportName?
    dsimp only
    cases hQuote : isQuote c with
    | true => exact ((hZs.fits_of_isQuote hQuote).afterString_agree hQuote).of_suffix (List.suffix_cons _ _)
    | false =>
      rw [if_neg Bool.false_ne_true, if_neg Bool.false_ne_true]
      split
      · rw [Option.bind_some, Option.bind_some]
        rcases hWords with ⟨ys, hYs, hLoose, hPlain, hWoven⟩ | ⟨-, q, ys, hQ, -, hPlain, hWoven⟩
        · rw [hPlain, hWoven]
          exact hLoose.fromString?_agree.of_suffix hYs
        · rw [hPlain, hWoven, fromString?_quote hQ, fromString?_quote hQ]
          exact .none
      · exact .none
  · rw [woven_ending, afterExportName?_ending hEnding]
    apply Agree.of_ending (List.suffix_refl _) hEnding
    intro r hR
    obtain ⟨cs, hName, hFrom⟩ := Option.bind_eq_some_iff.mp hR
    exact (fromString?_suffix hFrom).trans (afterExportName?_suffix hName)

theorem reexportSource?_of_ne {c : Char} (hStar : c ≠ '*') (hBrace : c ≠ '{') (cs : List Char) :
    reexportSource? (c :: cs) = none := by
  unfold reexportSource?
  split <;> simp_all

theorem reexportSource?_ending {e : List Char} (h : e ∈ endings) (rest : List Char) :
    reexportSource? (e ++ rest) = none := by
  simp only [endings, List.mem_cons, List.not_mem_nil, or_false] at h
  rcases h with rfl | rfl | rfl | rfl <;> exact reexportSource?_of_ne (by decide) (by decide) _

theorem Loose.reexportSource?_star_agree {xs : List Inset} (h : Loose xs) :
    Agree xs (reexportSource? ('*' :: plain xs)) (reexportSource? ('*' :: woven xs)) := by
  obtain ⟨ys, hYs, hLoose, hPlain, hWoven⟩ := h.afterTrivia_meet
  simp only [reexportSource?, hPlain, hWoven, hLoose.word_meet.1]
  refine Agree.of_suffix ?_ hYs
  split
  · rename_i hAs
    obtain ⟨vs, hVs, hVsLoose, hBehind, hBehind'⟩ := hLoose.afterWord_meet hAs (by decide)
    obtain ⟨ts, hTs, hTsLoose, hName, hName'⟩ := hVsLoose.afterTrivia_meet
    rw [hBehind, hBehind', hName, hName']
    exact hTsLoose.afterExportName?_agree.of_suffix (hTs.trans hVs)
  · exact hLoose.fromString?_agree

theorem Loose.reexportSource?_agree {xs : List Inset} (h : Loose xs) :
    Agree xs (reexportSource? (plain xs)) (reexportSource? (woven xs)) := by
  obtain rfl | ⟨c, zs, rfl, hZs⟩ | ⟨q, e, zs, rfl, hQuote, hEnding⟩ := h.shape
  · exact .none
  · rw [plain_cons, woven_bare, bare_char]
    by_cases hStar : c = '*'
    · subst hStar
      exact (hZs.loose (by decide)).reexportSource?_star_agree.of_suffix (List.suffix_cons _ _)
    · by_cases hBrace : c = '{'
      · subst hBrace
        obtain ⟨ys, hYs, hLoose, hPlain, hWoven⟩ := afterOpen_meet [.brace] (hZs.loose (by decide))
        rw [reexportSource?, reexportSource?, hPlain, hWoven]
        exact hLoose.fromString?_agree.of_suffix (hYs.trans (List.suffix_cons _ _))
      · rw [reexportSource?_of_ne hStar hBrace, reexportSource?_of_ne hStar hBrace]
        exact .none
  · rw [woven_ending, reexportSource?_ending hEnding]
    apply Agree.of_ending (List.suffix_refl _) hEnding
    intro r hR
    exact reexportSource?_suffix hR

theorem Loose.exportSpecifier?_agree {xs : List Inset} (h : Loose xs) :
    Agree xs (exportSpecifier? (plain xs)) (exportSpecifier? (woven xs)) := by
  obtain ⟨ys, hYs, hLoose, hPlain, hWoven⟩ := h.afterTrivia_meet
  simp only [exportSpecifier?, hPlain, hWoven, hLoose.word_meet.1]
  refine Agree.of_suffix ?_ hYs
  split
  · exact hLoose.reexportSource?_agree
  · split
    · rename_i hType
      obtain ⟨vs, hVs, hVsLoose, hBehind, hBehind'⟩ := hLoose.afterWord_meet hType (by decide)
      obtain ⟨ts, hTs, hTsLoose, hClause, hClause'⟩ := hVsLoose.afterTrivia_meet
      rw [hBehind, hBehind', hClause, hClause']
      exact hTsLoose.reexportSource?_agree.of_suffix (hTs.trans hVs)
    · exact .none

end Export

section Attributes

theorem noAttributes_of_head? {cs : List Char} (h : cs.head? ≠ some '{') :
    (match cs with
      | '{' :: rest => some (afterOpen [.brace] rest)
      | _ => none) = none := by
  split
  · exact absurd rfl h
  · rfl

theorem Loose.afterAttributes?_meet {xs : List Inset} (h : Loose xs) :
    afterAttributes? (plain xs) = none ∧ afterAttributes? (woven xs) = none ∨
      ∃ cs ds, afterAttributes? (plain xs) = some cs ∧ afterAttributes? (woven xs) = some ds ∧
        Meet xs cs ds := by
  obtain ⟨ys, hYs, hLoose, hPlain, hWoven⟩ := h.afterTrivia_meet
  simp only [afterAttributes?, hPlain, hWoven, hLoose.word_meet.1]
  by_cases hWord : word (plain ys) = "with".toList ∨ word (plain ys) = "assert".toList
  · rw [if_pos hWord, if_pos hWord]
    have hMeet : Meet ys (afterWord (plain ys)) (afterWord (woven ys)) := by
      rcases hWord with hWith | hAssert
      · exact hLoose.afterWord_meet hWith (by decide)
      · exact hLoose.afterWord_meet hAssert (by decide)
    obtain ⟨vs, hVs, hVsLoose, hBehind, hBehind'⟩ := hMeet
    obtain ⟨ts, hTs, hTsLoose, hBlock, hBlock'⟩ := hVsLoose.afterTrivia_meet
    rw [hBehind, hBehind', hBlock, hBlock']
    obtain rfl | ⟨c, zs, rfl, hZs⟩ | ⟨q, e, zs, rfl, hQuote, hEnding⟩ := hTsLoose.shape
    · exact Or.inl ⟨rfl, rfl⟩
    · rw [plain_cons, woven_bare, bare_char]
      by_cases hBrace : c = '{'
      · subst hBrace
        have hOpen := afterOpen_meet [.brace] (hZs.loose (by decide))
        exact Or.inr ⟨_, _, rfl, rfl, hOpen.of_suffix
          ((List.suffix_cons _ _).trans (hTs.trans (hVs.trans hYs)))⟩
      · have hHead : ∀ cs, (c :: cs).head? ≠ some '{' := fun cs hHead => hBrace (Option.some.inj hHead)
        exact Or.inl ⟨noAttributes_of_head? (hHead _), noAttributes_of_head? (hHead _)⟩
    · left
      constructor
      · apply noAttributes_of_head?
        rintro hHead
        obtain rfl := Option.some.inj hHead
        cases hQuote
      · rw [woven_ending]
        apply noAttributes_of_head?
        rcases ending_head hEnding with hHead | hHead
        · rw [List.head?_append, hHead, Option.some_or]
          decide
        · rw [List.head?_append, hHead, Option.some_or]
          decide
  · rw [if_neg hWord, if_neg hWord]
    exact Or.inl ⟨rfl, rfl⟩

theorem afterAttributes?_jsonClause {q : Char} (hQuote : isQuote q = true) (rest : List Char) :
    afterAttributes? (jsonClause q ++ rest) = some rest := by
  have hBrace : ∀ cs, afterTrivia (' ' :: '{' :: cs) = '{' :: cs :=
    fun cs => (afterTrivia_skips.space ' ' _ rfl).trans (afterTrivia_of_ne rfl (by decide) cs)
  simp only [afterAttributes?]
  rw [afterTrivia_clause, (word_with _).1, (word_with _).2, if_pos (Or.inl rfl), hBrace]
  simp only [afterOpen_json [] hQuote, afterOpen]

end Attributes

/-- The specifier of a declaration with the keyword `w` in front. -/
theorem Loose.specifier?_agree {xs : List Inset} (h : Loose xs) (w : List Char) :
    ∃ kind a b, Agree xs a b ∧ specifier? w (plain xs) = a.map (Prod.mk kind) ∧
      specifier? w (woven xs) = b.map (Prod.mk kind) := by
  unfold specifier?
  split
  · exact ⟨.import, _, _, h.importSpecifier?_agree, rfl, rfl⟩
  · split
    · exact ⟨.export, _, _, h.exportSpecifier?_agree, rfl, rfl⟩
    · exact ⟨.import, none, none, .none, rfl, rfl⟩

end ExplicitModules.Source
