import ExplicitModules.Source.Declaration

/-!
# Points of a text

A point keeps the text behind it together with what has been counted in front of it. Sites that stand
in order are turned into declarations in one pass, each count going on from the site before; the result
is what each site gives by itself.
-/
namespace ExplicitModules.Source
set_option autoImplicit false
open Text

structure Point where
  rest : List Char
  /-- How many characters `rest` has. -/
  length : Nat
  /-- Bytes in front. -/
  offset : Nat
  /-- Line ends in front. -/
  lineEnds : Nat

namespace Point

def start (text : List Char) : Point :=
  ⟨text, text.length, 0, 0⟩

def advance (p : Point) (rest : List Char) (length : Nat) : Point :=
  let gap := p.rest.take (p.length - length)
  ⟨rest, length, p.offset + utf8Length gap, p.lineEnds + gap.count '\n'⟩

structure IsIn (p : Point) (text : List Char) : Prop where
  rest_suffix : p.rest <:+ text
  length_eq : p.length = p.rest.length
  offset_eq : p.offset = utf8Length (before text p.rest)
  lineEnds_eq : p.lineEnds = (before text p.rest).count '\n'

theorem start_isIn (text : List Char) : (start text).IsIn text where
  rest_suffix := List.suffix_refl text
  length_eq := rfl
  offset_eq := by simp [start, before]
  lineEnds_eq := by simp [start, before]

theorem advance_isIn {p : Point} {text rest : List Char} {length : Nat} (hPoint : p.IsIn text)
    (hRest : rest <:+ p.rest) (hLength : length = rest.length) :
    (p.advance rest length).IsIn text := by
  obtain ⟨front, hFront⟩ := hPoint.rest_suffix
  obtain ⟨gap, hGap⟩ := hRest
  have hTake : p.rest.take (p.length - length) = gap := by
    rw [hPoint.length_eq, hLength, ← hGap]
    simp
  have hBefore : before text p.rest = front := by
    rw [← hFront, before_append]
  have hWhole : before text rest = front ++ gap := by
    rw [← hFront, ← hGap, ← List.append_assoc, before_append]
  refine ⟨⟨front ++ gap, ?_⟩, hLength, ?_, ?_⟩
  · rw [← hFront, ← hGap]
    exact List.append_assoc front gap rest
  · simp only [advance, hTake, hPoint.offset_eq, hBefore, hWhole, utf8Length_append]
  · simp only [advance, hTake, hPoint.lineEnds_eq, hBefore, hWhole, List.count_append]

end Point

def declarationsFrom (p : Point) : List Site → List Declaration
  | [] => []
  | site :: sites =>
    let literal := site.specifier
    let restLength := literal.rest.length
    let keyword := p.advance site.keyword site.keyword.length
    let opening := keyword.advance literal.whole (literal.body.length + 2 + restLength)
    let behind := opening.advance literal.rest restLength
    { kind := site.kind
      specifier := ⟨opening.offset, behind.offset, literal.quote, String.ofList literal.body⟩
      hasAttributes := site.hasAttributes
      line := lineNumber keyword.lineEnds } :: declarationsFrom behind sites

/-- Every site lies in `text`, behind the specifier of the one before. -/
def InOrder (text : List Char) : List Site → Prop
  | [] => True
  | site :: sites =>
    site.keyword <:+ text ∧ site.specifier.whole <:+ site.keyword ∧
      InOrder site.specifier.rest sites

theorem InOrder.of_suffix {text rest : List Char} {sites : List Site} (hRest : rest <:+ text)
    (h : InOrder rest sites) : InOrder text sites := by
  cases sites with
  | nil => trivial
  | cons site sites => exact ⟨h.1.trans hRest, h.2⟩

theorem Quoted.rest_suffix_whole (q : Quoted) : q.rest <:+ q.whole :=
  ⟨q.quote :: (q.body ++ [q.quote]), by simp [Quoted.whole]⟩

theorem Quoted.length_whole (q : Quoted) :
    q.body.length + 2 + q.rest.length = q.whole.length := by
  simp only [Quoted.whole, List.length_cons, List.length_append]
  omega

theorem declarationsFrom_eq {p : Point} {text : List Char} {sites : List Site}
    (hPoint : p.IsIn text) (hOrder : InOrder p.rest sites) :
    declarationsFrom p sites = sites.map fun site => site.toDeclaration text := by
  induction sites generalizing p with
  | nil => rfl
  | cons site sites ih =>
    obtain ⟨hKeyword, hWhole, hSites⟩ := hOrder
    have hAt := Point.advance_isIn hPoint hKeyword rfl
    have hOpening := Point.advance_isIn hAt hWhole site.specifier.length_whole
    have hBehind := Point.advance_isIn hOpening site.specifier.rest_suffix_whole rfl
    rw [declarationsFrom, List.map_cons, ih hBehind hSites, List.cons.injEq]
    refine ⟨?_, rfl⟩
    rw [Site.toDeclaration, Quoted.toLiteral, hOpening.offset_eq, hBehind.offset_eq,
      hAt.lineEnds_eq]
    rfl

end ExplicitModules.Source
