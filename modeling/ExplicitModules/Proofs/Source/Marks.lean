import ExplicitModules.Proofs.Source.Boundary
import ExplicitModules.Proofs.Source.WovenClause

/-!
# Marked sites

The closing quotes of the specifiers of a text are marked with what is put in there. All that stands
in front of the first marked site, and in a specifier up to its closing quote, is unmarked.
-/
namespace ExplicitModules.Source
set_option autoImplicit false
open Text

/-- What is put in at a closing quote. -/
inductive Mark
  | kept
  | ending (e : List Char)
  | clause
deriving DecidableEq

namespace Mark

def front : Mark → List Char
  | .ending e => e
  | _ => []

def inset (m : Mark) (q : Char) : Inset :=
  match m with
  | .kept => bare q
  | .ending e => ⟨q, e, []⟩
  | .clause => ⟨q, [], jsonClause q⟩

def behind : Mark → Char → List Char
  | .clause, q => jsonClause q
  | _, _ => []

theorem woven_inset (m : Mark) (q : Char) (xs : List Inset) :
    woven (m.inset q :: xs) = m.front ++ q :: (m.behind q ++ woven xs) := by
  cases m with
  | kept => rfl
  | ending e => exact woven_ending q e xs
  | clause => exact woven_clause q (jsonClause q) xs

@[simp] theorem inset_char (m : Mark) (q : Char) : (m.inset q).char = q := by
  cases m <;> rfl

/-- Nothing is put in but endings and clauses, and no clause where there is one already. -/
def Allowed : Mark → Site → Prop
  | .kept, _ => True
  | .ending e, site => site.hasAttributes = false ∧ e ∈ endings
  | .clause, site => site.hasAttributes = false ∧ ∃ stem, site.specifier.body = stem ++ ['o', 'n']

/-- Besides, a slash is put behind no slash or star. -/
structure Suits (m : Mark) (site : Site) : Prop where
  allowed : m.Allowed site
  seam : m.front.head? = some '/' →
    ∀ c ∈ site.specifier.body.getLast?, c ≠ '/' ∧ c ≠ '*'

theorem Allowed.isQuotedBody_front {m : Mark} {site : Site} (h : m.Allowed site) {q : Char}
    (hQuote : isQuote q = true) : IsQuotedBody q m.front := by
  cases m with
  | kept => exact nofun
  | clause => exact nofun
  | ending e =>
    have hChars := ending_chars h.2
    intro d hD
    rw [front, unescaped_of_forall fun c hC => (hChars c hC).1] at hD
    obtain ⟨hEscape, hLine, -, -, -, hNot⟩ := hChars d hD
    refine ⟨hEscape, hLine, ?_⟩
    rintro rfl
    rw [hQuote] at hNot
    cases hNot

theorem Allowed.of_clause {m : Mark} {site : Site} (h : m.Allowed site) (hMark : m = .clause) :
    site.hasAttributes = false := by
  subst hMark
  exact h.1

end Mark

/-- The text `cs` with the closing quotes of its sites marked by `f`. -/
def weave (f : Site → Mark) : List Char → List Site → List Inset
  | cs, [] => cs.map bare
  | cs, site :: sites =>
    let closing := site.specifier.quote :: site.specifier.rest
    (before cs closing).map bare ++
      (f site).inset site.specifier.quote :: weave f site.specifier.rest sites

/-- Every specifier lies in `cs` behind the one before. -/
def Within (cs : List Char) : List Site → Prop
  | [] => True
  | site :: sites => site.specifier.whole <:+ cs ∧ Within site.specifier.rest sites

theorem InOrder.within {cs : List Char} {sites : List Site} (h : InOrder cs sites) :
    Within cs sites := by
  induction sites generalizing cs with
  | nil => trivial
  | cons site sites ih =>
    obtain ⟨hKeyword, hWhole, hRest⟩ := h
    exact ⟨hWhole.trans hKeyword, ih hRest⟩

theorem Within.whole {site : Site} {sites : List Site} (h : Within site.specifier.rest sites) :
    Within site.specifier.whole (site :: sites) :=
  ⟨List.suffix_refl _, h⟩

section Weave

variable (f : Site → Mark) {cs : List Char} {sites : List Site}

theorem weave_append (front : List Char) (h : Within cs sites) :
    weave f (front ++ cs) sites = front.map bare ++ weave f cs sites := by
  cases sites with
  | nil => exact List.map_append
  | cons site sites =>
    obtain ⟨gap, rfl⟩ := h.1
    have hClosing : ∀ as : List Char, as ++ site.specifier.whole =
        (as ++ site.specifier.quote :: site.specifier.body) ++
          site.specifier.quote :: site.specifier.rest := by
      intro as
      simp [Quoted.whole]
    simp only [weave]
    rw [← List.append_assoc, hClosing, hClosing, before_append, before_append]
    simp only [List.map_append, List.append_assoc]

theorem weave_whole (site : Site) (sites : List Site) :
    weave f site.specifier.whole (site :: sites) =
      bare site.specifier.quote :: (site.specifier.body.map bare ++
        (f site).inset site.specifier.quote :: weave f site.specifier.rest sites) := by
  have hClosing : site.specifier.whole = (site.specifier.quote :: site.specifier.body) ++
      site.specifier.quote :: site.specifier.rest := rfl
  simp only [weave]
  rw [hClosing, before_append]
  rfl

theorem plain_weave (h : Within cs sites) : plain (weave f cs sites) = cs := by
  induction sites generalizing cs with
  | nil => exact plain_map_bare cs
  | cons site sites ih =>
    obtain ⟨⟨gap, rfl⟩, hRest⟩ := h
    rw [weave_append f gap hRest.whole, weave_whole, plain_append,
      plain_map_bare, plain_cons, plain_append, plain_map_bare, plain_cons, Mark.inset_char, ih hRest]
    rfl

theorem weave_cons {c : Char} (h : Within (c :: cs) sites) :
    ∃ xs, weave f (c :: cs) sites = bare c :: xs := by
  cases sites with
  | nil => exact ⟨_, rfl⟩
  | cons site sites =>
    obtain ⟨⟨gap, hGap⟩, hRest⟩ := h
    rw [← hGap, weave_append f gap hRest.whole, weave_whole]
    cases gap with
    | nil =>
      obtain ⟨rfl, -⟩ := List.cons.inj hGap
      exact ⟨_, rfl⟩
    | cons d gap =>
      obtain ⟨rfl, -⟩ := List.cons.inj hGap
      exact ⟨_, rfl⟩

theorem head?_weave (h : Within cs sites) : (woven (weave f cs sites)).head? = cs.head? := by
  cases cs with
  | nil =>
    cases sites with
    | nil => rfl
    | cons site sites =>
      have hLength := h.1.length_le
      simp [Quoted.whole] at hLength
  | cons c cs =>
    obtain ⟨xs, hXs⟩ := weave_cons f h
    rw [hXs]
    rfl

variable {f}

/-- A place that is known by the plain text behind it. -/
theorem eq_weave_of_suffix {rest : List Char} {ys : List Inset} (hRest : rest <:+ cs)
    (h : Within rest sites) (hYs : ys <:+ weave f cs sites) (hPlain : plain ys = rest) :
    ys = weave f rest sites := by
  obtain ⟨front, rfl⟩ := hRest
  have hLength : ys.length = (weave f rest sites).length := by
    rw [← length_plain ys, ← length_plain (weave f rest sites), plain_weave f h, hPlain]
  rw [weave_append f front h] at hYs
  have hSuffix := List.suffix_of_suffix_length_le hYs (List.suffix_append _ _) (Nat.le_of_eq hLength)
  exact hSuffix.eq_of_length hLength

theorem suffix_of_marked (front : List Char) {x : Inset} {xs ys : List Inset}
    (hMarked : x ≠ bare x.char) (h : x :: xs <:+ front.map bare ++ ys) : x :: xs <:+ ys := by
  induction front with
  | nil => exact h
  | cons c front ih =>
    rcases List.suffix_cons_iff.mp h with hEq | hSuffix
    · obtain ⟨rfl, -⟩ := List.cons.inj hEq
      exact absurd rfl hMarked
    · exact ih hSuffix

/-- A mark stands behind the opening quote of the first specifier that is left. -/
theorem length_of_marked {rest : List Char} {x : Inset} {xs : List Inset} (hRest : rest <:+ cs)
    (h : Within rest sites) (hMarked : x ≠ bare x.char) (hSuffix : x :: xs <:+ weave f cs sites) :
    xs.length + 1 < rest.length := by
  obtain ⟨front, rfl⟩ := hRest
  rw [weave_append f front h] at hSuffix
  have hHere := suffix_of_marked front hMarked hSuffix
  have hLength := hHere.length_le
  rw [← length_plain (weave f rest sites), plain_weave f h, List.length_cons] at hLength
  cases rest with
  | nil => simp at hLength
  | cons c rest =>
    obtain ⟨ys, hYs⟩ := weave_cons f h
    rw [hYs] at hHere
    have hTail := suffix_of_marked [c] hMarked hHere
    have hPlain := plain_weave f h
    rw [hYs, plain_cons] at hPlain
    have hLengthTail := hTail.length_le
    rw [← length_plain ys, (List.cons.inj hPlain).2, List.length_cons] at hLengthTail
    exact Nat.succ_lt_succ_iff.mpr hLengthTail

end Weave

theorem joins_front {c : Char} {cs : List Char} {xs : List Inset}
    (h : ∀ d ∈ (c :: cs).getLast?, Joins d xs) :
    Joins c (cs.map bare ++ xs) ∧ ∀ d ∈ cs.getLast?, Joins d xs := by
  cases cs with
  | nil => exact ⟨h c rfl, nofun⟩
  | cons d cs => exact ⟨joins_bare c d _, h⟩

/-- Unmarked characters in front, with no backslash at the end that escapes nothing. -/
theorem Fits.front {cs : List Char} {xs : List Inset} (h : Fits xs) (hCloses : '\\' ∉ unescaped cs)
    (hJoins : ∀ c ∈ cs.getLast?, Joins c xs) : Fits (cs.map bare ++ xs) := by
  fun_induction unescaped cs with
  | case1 => exact h
  | case2 => exact absurd List.mem_cons_self hCloses
  | case3 c cs ih =>
    obtain ⟨-, hBehind⟩ := joins_front hJoins
    obtain ⟨hHere, hLater⟩ := joins_front hBehind
    exact .escape c (ih hCloses hLater) hHere
  | case4 c cs hEnd hEscape ih =>
    obtain ⟨hHere, hLater⟩ := joins_front hJoins
    exact .char (ne_backslash hEnd hEscape)
      (ih (fun hMem => hCloses (List.mem_cons_of_mem c hMem)) hLater) hHere

theorem fits_map_bare (cs : List Char) : Fits (cs.map bare) := by
  have hJoins : ∀ (c : Char) (cs : List Char), Joins c (cs.map bare) := by
    intro c cs
    cases cs with
    | nil => exact nofun
    | cons d cs => exact joins_bare c d _
  fun_induction unescaped cs with
  | case1 => exact .nil
  | case2 => exact .last
  | case3 c cs ih => exact .escape c ih (hJoins c cs)
  | case4 c cs hEnd hEscape ih => exact .char (ne_backslash hEnd hEscape) ih (hJoins c cs)

/-- Nothing in front of an unescaped quote escapes what is behind it. -/
theorem closes_behind {q : Char} (hQuote : q ≠ '\\') (front : List Char) {cs : List Char}
    (h : '\\' ∉ unescaped cs) : '\\' ∉ unescaped (front ++ q :: cs) := by
  have hFront : '\\' ∉ unescaped (front ++ [q]) := by
    intro hMem
    have hLast := getLast?_of_mem_unescaped hMem
    rw [List.getLast?_concat] at hLast
    exact hQuote (Option.some.inj hLast)
  rw [List.append_cons, unescaped_append hFront]
  intro hMem
  rcases List.mem_append.mp hMem with hMem | hMem
  · exact hFront hMem
  · exact h hMem

theorem getLast?_behind {q c : Char} {front cs : List Char}
    (h : c ∈ (front ++ q :: cs).getLast?) : c = q ∨ c ∈ cs.getLast? := by
  rw [List.getLast?_append, List.getLast?_cons, Option.some_or] at h
  cases hLast : cs.getLast? with
  | none =>
    rw [hLast] at h
    exact Or.inl (Option.some.inj h).symm
  | some d =>
    rw [hLast] at h
    exact Or.inr h

theorem Fits.marked {site : Site} {m : Mark} {xs : List Inset} (h : Fits xs)
    (hClosed : quoted? site.specifier.whole = some site.specifier) (hSuits : m.Suits site)
    (front : List Char) :
    Fits (front.map bare ++ bare site.specifier.quote :: (site.specifier.body.map bare ++
      m.inset site.specifier.quote :: xs)) := by
  obtain ⟨hQuote, -⟩ := quoted?_eq_some hClosed
  have hPlain := ne_backslash_of_isQuote hQuote
  have hCloses := closes_behind hPlain front (Quoted.isQuotedBody hClosed).closes
  have hShape : ∀ ys : List Inset, front.map bare ++ bare site.specifier.quote ::
      (site.specifier.body.map bare ++ ys) =
        (front ++ site.specifier.quote :: site.specifier.body).map bare ++ ys := by
    intro ys
    simp
  have hNoSlash := (isQuote_spec hQuote).2.2.1
  have hNoStar := ne_star_of_isQuote hQuote
  cases m with
  | kept =>
    rw [hShape]
    exact Fits.front (.char hPlain h (joins_of_ne hNoSlash hNoStar xs)) hCloses
      fun c _ => joins_bare c _ xs
  | ending e =>
    rw [hShape]
    apply Fits.front (.ending hQuote hSuits.allowed.2 h) hCloses
    rintro c hC x hX hHead
    obtain rfl := Option.some.inj hX
    rcases getLast?_behind hC with rfl | hLast
    · exact ⟨hNoSlash, hNoStar⟩
    · exact hSuits.seam hHead c hLast
  | clause =>
    obtain ⟨-, stem, hBody⟩ := hSuits.allowed
    have hWhole : front ++ site.specifier.quote :: site.specifier.body =
        (front ++ site.specifier.quote :: (stem ++ ['o'])) ++ ['n'] := by
      rw [hBody]
      simp
    rw [hShape, hWhole, List.map_append, List.append_assoc]
    apply Fits.front (.clause hQuote h)
    · intro hMem
      have hLast := getLast?_of_mem_unescaped hMem
      rw [← List.cons_append, ← List.append_assoc, List.getLast?_concat] at hLast
      revert hLast
      decide
    · exact fun c _ => joins_bare c 'n' _

theorem fits_weave {f : Site → Mark} {cs : List Char} {sites : List Site} (h : Within cs sites)
    (hClosed : ∀ site ∈ sites, quoted? site.specifier.whole = some site.specifier)
    (hSuits : ∀ site ∈ sites, (f site).Suits site) : Fits (weave f cs sites) := by
  induction sites generalizing cs with
  | nil => exact fits_map_bare cs
  | cons site sites ih =>
    rw [List.forall_mem_cons] at hClosed hSuits
    obtain ⟨⟨gap, rfl⟩, hRest⟩ := h
    rw [weave_append f gap hRest.whole, weave_whole]
    exact (ih hRest hClosed.2 hSuits.2).marked hClosed.1 hSuits.1 gap

end ExplicitModules.Source
