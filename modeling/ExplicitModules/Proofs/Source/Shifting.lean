import ExplicitModules.Proofs.Source.Recognition

/-!
# Texts with something in front

What is found in a text is found again when another text is put in front, further down by the bytes
and line ends of that text. In front of everything there may be a well-formed source: its own
declarations come first.
-/
namespace ExplicitModules.Source
set_option autoImplicit false
open Text

/-- The declaration with so many more bytes and line ends in front of it. -/
def Declaration.shifted (bytes lineEnds : Nat) (d : Declaration) : Declaration :=
  { d with
    specifier.start := d.specifier.start + bytes
    specifier.stop := d.specifier.stop + bytes
    line := .ofNatClamp (d.line.toNat + lineEnds) }

/-- Counting on from a clamped number is counting on from the number itself. -/
theorem ofNatClamp_toNat_add (m n : Nat) :
    UInt32.ofNatClamp ((UInt32.ofNatClamp m).toNat + n) = .ofNatClamp (m + n) := by
  apply UInt32.toNat_inj.mp
  rw [toNat_ofNatClamp, toNat_ofNatClamp, toNat_ofNatClamp]
  omega

theorem Declaration.shifted_shifted (a b m n : Nat) (d : Declaration) :
    (d.shifted a m).shifted b n = d.shifted (a + b) (m + n) := by
  simp only [shifted, Nat.add_assoc, ofNatClamp_toNat_add]

theorem before_append_left {text rest : List Char} (front : List Char) (h : rest <:+ text) :
    before (front ++ text) rest = front ++ before text rest := by
  obtain ⟨gap, rfl⟩ := h
  rw [before_append, ← List.append_assoc, before_append]

theorem InOrder.forall_mem {text : List Char} {sites : List Site} (h : InOrder text sites) :
    ∀ site ∈ sites, site.keyword <:+ text ∧ site.specifier.whole <:+ text := by
  induction sites generalizing text with
  | nil => simp
  | cons site sites ih =>
    obtain ⟨hKeyword, hWhole, hSites⟩ := h
    rw [List.forall_mem_cons]
    refine ⟨⟨hKeyword, hWhole.trans hKeyword⟩, ?_⟩
    apply ih
    exact hSites.of_suffix (site.specifier.rest_suffix_whole.trans (hWhole.trans hKeyword))

theorem Site.toDeclaration_append {text : List Char} {site : Site} (front : List Char)
    (hKeyword : site.keyword <:+ text) (hWhole : site.specifier.whole <:+ text) :
    site.toDeclaration (front ++ text) =
      (site.toDeclaration text).shifted (utf8Length front) (front.count '\n') := by
  have hRest := site.specifier.rest_suffix_whole.trans hWhole
  have hLine (m n : Nat) : lineNumber (m + n) = .ofNatClamp ((lineNumber n).toNat + m) := by
    rw [lineNumber, lineNumber, ofNatClamp_toNat_add]
    congr 1
    omega
  simp only [toDeclaration, Quoted.toLiteral, Declaration.shifted,
    before_append_left front hKeyword, before_append_left front hWhole,
    before_append_left front hRest, utf8Length_append, List.count_append, hLine,
    Declaration.mk.injEq, Literal.mk.injEq, true_and, and_true]
  omega

def declarationsBehind (last : Last) (text : List Char) : List Declaration :=
  (sitesFrom last text).map fun site => site.toDeclaration text

theorem map_toDeclaration_append (last : Last) (front text : List Char) :
    (sitesFrom last text).map (fun site => site.toDeclaration (front ++ text)) =
      (declarationsBehind last text).map (.shifted (utf8Length front) (front.count '\n')) := by
  rw [declarationsBehind, List.map_map]
  apply List.map_congr_left
  intro site hSite
  obtain ⟨hKeyword, hWhole⟩ := (sitesFrom_inOrder last text).forall_mem site hSite
  exact Site.toDeclaration_append front hKeyword hWhole

/-- The declarations of a text that begins with a well-formed source. -/
theorem SourceText.declarations_append (s : SourceText) {rest : List Char}
    (hMark : rest.head? ≠ some '\uFEFF') :
    ∃ last, (last = .start ∨ last = .punctuation ';') ∧
      Source.declarations (String.ofList (s.chars ++ rest)) =
        s.declarations ++ (sitesFrom last rest).map
          (fun site => site.toDeclaration (s.chars ++ rest)) := by
  obtain ⟨last, hLast, hSites⟩ := sitesFrom_items_append (Or.inl rfl) s.items s.front rest
  refine ⟨last, hLast, ?_⟩
  rw [declarations_eq_map, String.toList_ofList, s.sites_append hMark]
  simpa [chars, declarations, List.append_assoc] using hSites

end ExplicitModules.Source
