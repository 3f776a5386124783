import ExplicitModules.Source.Scan

/-!
# Where the literals of a text stand

The declarations of a text give their literals one behind the other: between two literals, in front
of the first and behind the last lies text that belongs to none. Offsets count the bytes of exactly
that text.
-/
namespace ExplicitModules.Source
set_option autoImplicit false
open Text

def Literal.chars (l : Literal) : List Char :=
  l.quote :: (l.value.toList ++ [l.quote])

@[simp] theorem Quoted.chars_toLiteral (text : List Char) (q : Quoted) :
    (q.toLiteral text).chars = q.quote :: (q.body ++ [q.quote]) := by
  simp [Literal.chars, Quoted.toLiteral]

theorem Quoted.whole_eq_append (q : Quoted) :
    q.whole = (q.quote :: (q.body ++ [q.quote])) ++ q.rest := by
  simp [Quoted.whole]

theorem before_of_append_suffix {text front rest : List Char} (h : front ++ rest <:+ text) :
    before text rest = before text (front ++ rest) ++ front := by
  obtain ⟨start, rfl⟩ := h
  rw [before_append, ← List.append_assoc, before_append]

/-- The literals of `ds` stand in `cs`, a text that begins at byte `offset`, in this order. -/
def LiteralsIn : Nat → List Char → List Declaration → Prop
  | _, _, [] => True
  | offset, cs, d :: ds =>
    ∃ gap rest, cs = gap ++ (d.specifier.chars ++ rest) ∧
      d.specifier.start = offset + utf8Length gap ∧
      d.specifier.stop = d.specifier.start + utf8Length d.specifier.chars ∧
      LiteralsIn d.specifier.stop rest ds

theorem literalsIn_sites {text cs : List Char} {sites : List Site} (hText : cs <:+ text)
    (hOrder : InOrder cs sites) :
    LiteralsIn (utf8Length (before text cs)) cs
      (sites.map fun site => site.toDeclaration text) := by
  induction sites generalizing cs with
  | nil => trivial
  | cons site sites ih =>
    obtain ⟨hKeyword, hWhole, hSites⟩ := hOrder
    obtain ⟨gap, rfl⟩ := hWhole.trans hKeyword
    have hLiteral := site.specifier.whole_eq_append
    have hStart := before_of_append_suffix hText
    have hStop := before_of_append_suffix
      (hLiteral ▸ (List.suffix_append gap site.specifier.whole).trans hText)
    have hBehind : site.specifier.rest <:+ text :=
      site.specifier.rest_suffix_whole.trans ((List.suffix_append gap _).trans hText)
    rw [← hLiteral] at hStop
    have hOpening : (site.specifier.toLiteral text).start =
        utf8Length (before text site.specifier.whole) := rfl
    have hClosing : (site.specifier.toLiteral text).stop =
        utf8Length (before text site.specifier.rest) := rfl
    rw [List.map_cons]
    refine ⟨gap, site.specifier.rest, ?_, ?_, ?_, ?_⟩
    · dsimp only [Site.toDeclaration]
      rw [Quoted.chars_toLiteral, ← hLiteral]
    · dsimp only [Site.toDeclaration]
      rw [hOpening, hStart, utf8Length_append]
    · dsimp only [Site.toDeclaration]
      rw [hOpening, hClosing, hStop, utf8Length_append, Quoted.chars_toLiteral]
    · dsimp only [Site.toDeclaration]
      rw [hClosing]
      exact ih hBehind hSites

theorem literalsIn_declarations (text : String) :
    LiteralsIn 0 text.toList (declarations text) := by
  have hSites := literalsIn_sites (List.suffix_refl text.toList) (sites_inOrder text.toList)
  rw [before_self, utf8Length_nil] at hSites
  rw [declarations_eq_map]
  exact hSites

theorem LiteralsIn.start_ge {offset : Nat} {cs : List Char} {ds : List Declaration}
    (h : LiteralsIn offset cs ds) : ∀ d ∈ ds, offset ≤ d.specifier.start := by
  induction ds generalizing offset cs with
  | nil =>
    intro d hd
    cases hd
  | cons first ds ih =>
    obtain ⟨gap, rest, -, hStart, hStop, hRest⟩ := h
    intro d hd
    rcases List.mem_cons.mp hd with rfl | hTail
    · omega
    · have hLater := ih hRest d hTail
      omega

theorem LiteralsIn.pairwise {offset : Nat} {cs : List Char} {ds : List Declaration}
    (h : LiteralsIn offset cs ds) :
    ds.Pairwise fun a b => a.specifier.stop ≤ b.specifier.start := by
  induction ds generalizing offset cs with
  | nil => exact List.Pairwise.nil
  | cons first ds ih =>
    obtain ⟨gap, rest, -, -, -, hRest⟩ := h
    exact List.Pairwise.cons hRest.start_ge (ih hRest)

theorem LiteralsIn.stop_eq {offset : Nat} {cs : List Char} {ds : List Declaration}
    (h : LiteralsIn offset cs ds) :
    ∀ d ∈ ds, d.specifier.stop = d.specifier.start + utf8Length d.specifier.chars := by
  induction ds generalizing offset cs with
  | nil =>
    intro d hd
    cases hd
  | cons first ds ih =>
    obtain ⟨gap, rest, -, -, hStop, hRest⟩ := h
    intro d hd
    rcases List.mem_cons.mp hd with rfl | hTail
    · exact hStop
    · exact ih hRest d hTail

theorem LiteralsIn.span {offset : Nat} {cs : List Char} {ds : List Declaration}
    (h : LiteralsIn offset cs ds) : ∀ d ∈ ds,
      d.specifier.start + 2 ≤ d.specifier.stop ∧ d.specifier.stop ≤ offset + utf8Length cs := by
  induction ds generalizing offset cs with
  | nil =>
    intro d hd
    cases hd
  | cons first ds ih =>
    obtain ⟨gap, rest, rfl, hStart, hStop, hRest⟩ := h
    have hQuotes : 2 ≤ utf8Length first.specifier.chars := by
      have hLength := length_le_utf8Length first.specifier.chars
      simp only [Literal.chars, List.length_cons, List.length_append, List.length_nil] at hLength ⊢
      omega
    simp only [utf8Length_append]
    intro d hd
    rcases List.mem_cons.mp hd with rfl | hTail
    · omega
    · have hLater := ih hRest d hTail
      omega

end ExplicitModules.Source
