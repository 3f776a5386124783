import ExplicitModules.Proofs.Conversion.Marking
import ExplicitModules.Proofs.Source.MarkedText
import ExplicitModules.Proofs.Source.Requests
import ExplicitModules.Proofs.Source.Spans

/-!
# Declarations of an edited document

Edits of a document are kept in the order of their spans, so the order in which they are requested
does not show. If they put endings or clauses in at the specifiers of a text, whatever the text, the
edited text holds the same declarations on the same lines, each with its new specifier.
-/
namespace ExplicitModules
set_option autoImplicit false
open Source Text

namespace Source
namespace Document

/-- Requests, for each of `ds` in turn, that its literal become the text that `f` chooses for it, if
any. There is no result if a request is refused. -/
def replaceEach? (f : Declaration → Option String) (d : Document) (ds : List Declaration) :
    Option Document :=
  ds.foldlM (fun d declaration => match f declaration with
    | none => some d
    | some text => d.replace? declaration.specifier text) d

/-- Requests for spans that share no byte are all granted. -/
theorem Carries.replaceEach? {path : Path} {text : String} {edits : List Edit} {d : Document}
    (h : Carries path text edits d) (f : Declaration → Option String) {ds : List Declaration}
    (hSpans : ∀ e ∈ editsBy f ds, e.start < e.stop ∧ e.stop ≤ utf8Length text.toList)
    (hApart : (edits ++ editsBy f ds).Pairwise fun a b => ¬a.Meets b) :
    ∃ edited, d.replaceEach? f ds = some edited ∧ Carries path text (edits ++ editsBy f ds) edited := by
  induction ds generalizing d edits with
  | nil => exact ⟨d, rfl, by rwa [editsBy, List.filterMap_nil, List.append_nil]⟩
  | cons x ds ih =>
    unfold Document.replaceEach? at ih ⊢
    rw [editsBy_cons] at hSpans hApart ⊢
    rw [List.foldlM_cons]
    cases hWritten : f x with
    | none =>
      rw [hWritten] at hSpans hApart
      exact ih h hSpans hApart
    | some written =>
      rw [hWritten] at hSpans hApart
      have hFree := (List.pairwise_append.mp hApart).2.2
      obtain ⟨hSome, hText⟩ := hSpans (asked (x.specifier, written)) List.mem_cons_self
      have hNew : Grants (utf8Length text.toList) edits (asked (x.specifier, written)) :=
        ⟨hSome, hText, fun a hA => hFree a hA _ List.mem_cons_self⟩
      have hReplace := replace?_eq d (x.specifier, written)
      rw [if_pos ((h.accepts_iff _).mpr hNew)] at hReplace
      have hNext := h.request (x.specifier, written)
      rw [Document.request, hReplace, Option.getD_some, grant, if_pos hNew] at hNext
      dsimp only at hReplace ⊢
      rw [hReplace]
      rw [Option.map_some, Option.toList_some, ← List.append_assoc] at hApart ⊢
      exact ih hNext (fun e hE => hSpans e (List.mem_cons_of_mem _ hE)) hApart

theorem tidy_editsBy (f : Declaration → Option String) (text : String) :
    Tidy (utf8Length text.toList) (editsBy f (Source.declarations text)).reverse := by
  have hIn := literalsIn_declarations text
  have hSpan : ∀ e ∈ editsBy f (Source.declarations text),
      e.start < e.stop ∧ e.stop ≤ utf8Length text.toList := by
    intro e hE
    obtain ⟨d, hD, hEdit⟩ := List.mem_filterMap.mp hE
    obtain ⟨written, -, rfl⟩ := Option.map_eq_some_iff.mp hEdit
    obtain ⟨hLength, hStop⟩ := hIn.span d hD
    exact ⟨by dsimp only; omega, by dsimp only; omega⟩
  have hOrder : (editsBy f (Source.declarations text)).Pairwise fun a b => a.stop ≤ b.start := by
    refine List.pairwise_filterMap.mpr (hIn.pairwise.imp fun hBehind a hA b hB => ?_)
    obtain ⟨_, -, rfl⟩ := Option.map_eq_some_iff.mp hA
    obtain ⟨_, -, rfl⟩ := Option.map_eq_some_iff.mp hB
    exact hBehind
  refine ⟨fun e hE => hSpan e (List.mem_reverse.mp hE), ?_, ?_⟩
  · refine List.pairwise_reverse.mpr (hOrder.imp fun {a b} hBehind => ?_)
    rw [Edit.meets_iff]
    omega
  · refine List.pairwise_reverse.mpr (hOrder.imp_of_mem fun {a b} hA _ hBehind => ?_)
    have hLength := (hSpan a hA).1
    omega

/-- All literals of a text are replaced in any order with the same result. -/
theorem replaceEach?_declarations (path : Path) (text : String) (f : Declaration → Option String)
    {order : List Declaration} (hOrder : order.Perm (Source.declarations text)) :
    (ofText path text).replaceEach? f order = some { ofText path text with
      edits := (editsBy f (Source.declarations text)).reverse } := by
  have hTidy := tidy_editsBy f text
  have hPerm : (editsBy f order).Perm (editsBy f (Source.declarations text)).reverse :=
    (hOrder.filterMap _).trans (List.reverse_perm _).symm
  have hSymm : ∀ {a b : Edit}, ¬a.Meets b → ¬b.Meets a := fun hApart hMeets => hApart hMeets.symm
  obtain ⟨edited, hEach, hPath, hText, hPending, hEdited⟩ := (carries_ofText path text).replaceEach? f
    (fun e hE => hTidy.inText e (hPerm.mem_iff.mp hE)) (hPerm.symm.pairwise hTidy.apart hSymm)
  have hEdits := hEdited.eq_of_perm hTidy (hPending.trans hPerm)
  rw [hEach, ← hEdits, ofText, ← hPath, ← hText]

end Document

theorem Site.IsSound.line_eq {text : List Char} {site : Site} (h : site.IsSound text) :
    (site.toDeclaration text).line = lineNumber (text.count '\n' - site.keyword.count '\n') := by
  obtain ⟨front, hText, -⟩ := h.exists_front
  have hCount := congrArg (List.count '\n') hText
  rw [List.count_append] at hCount
  have hFront : before text site.keyword = front := by rw [hText, before_append]
  have hEnds : text.count '\n' - site.keyword.count '\n' = front.count '\n' := by omega
  rw [hEnds]
  dsimp only [Site.toDeclaration]
  rw [hFront]

end Source

namespace Replacement

/-- The replacement that leaves `value` and puts in what belongs to `form`. -/
def behind (value : String) (form : Form) : Replacement :=
  ⟨form, if form = .json then value else value ++ form.suffix⟩

/-- The shape `form` may be chosen for `d`: there are no attributes, data is named as such and a
slash is put behind no slash or star. -/
structure Permits (d : Declaration) (form : Form) : Prop where
  plain : d.hasAttributes = false
  data : form = .json → ".json".toList <:+ d.specifier.value.toList
  seam : form = .index ∨ form = .indexComponent →
    ∀ c ∈ d.specifier.value.toList.getLast?, c ≠ '/' ∧ c ≠ '*'

instance (d : Declaration) (form : Form) : Decidable (Permits d form) :=
  decidable_of_iff (d.hasAttributes = false ∧
      (form = .json → ".json".toList <:+ d.specifier.value.toList) ∧
      (form = .index ∨ form = .indexComponent →
        ∀ c ∈ d.specifier.value.toList.getLast?, c ≠ '/' ∧ c ≠ '*'))
    ⟨fun ⟨hPlain, hData, hSeam⟩ => ⟨hPlain, hData, hSeam⟩, fun h => ⟨h.plain, h.data, h.seam⟩⟩

/-- `found` is `d` with the specifier of the form that has been chosen for it, if any. -/
structure Becomes (choice : Declaration → Option Form) (d found : Declaration) : Prop where
  kind : found.kind = d.kind
  line : found.line = d.line
  quote : found.specifier.quote = d.specifier.quote
  value : found.specifier.value =
    (choice d).elim d.specifier.value fun form => (behind d.specifier.value form).specifier
  hasAttributes : found.hasAttributes = (d.hasAttributes || decide (choice d = some .json))

section Behind

variable {value : String} {form : Form}

theorem toList_specifier_behind :
    (behind value form).specifier.toList = value.toList ++ (behind value form).mark.front := by
  cases form with
  | json => exact (List.append_nil _).symm
  | _ => exact String.toList_append

theorem toList_render_behind (value : String) (form : Form) (quote : Char) :
    ((behind value form).render quote).toList = quote ::
      ((value.toList ++ (behind value form).mark.front) ++
        quote :: (behind value form).mark.behind quote) := by
  rw [toList_render, toList_specifier_behind, mark_behind]

theorem mark_behind_value (hForm : form ≠ .json) :
    (behind value form).mark = .ending form.suffix.toList := by
  cases form with
  | json => exact absurd rfl hForm
  | _ => rfl

theorem suffix_mem_endings (hForm : form ≠ .json) : form.suffix.toList ∈ endings := by
  cases form with
  | json => exact absurd rfl hForm
  | _ => decide

theorem Permits.suits {text : List Char} {site : Site} (h : Permits (site.toDeclaration text) form) :
    (behind (site.toDeclaration text).specifier.value form).mark.Suits site := by
  refine ⟨?_, ?_⟩
  · by_cases hForm : form = .json
    · obtain ⟨stem, hStem⟩ := h.data hForm
      have hChars : ".json".toList = ".js".toList ++ ['o', 'n'] := by decide
      rw [Site.toList_value, hChars, ← List.append_assoc] at hStem
      subst hForm
      exact ⟨h.plain, _, hStem.symm⟩
    · rw [mark_behind_value hForm]
      exact ⟨h.plain, suffix_mem_endings hForm⟩
  · intro hHead
    have hSeam := h.seam (form_of_mark_front hHead)
    rwa [Site.toList_value] at hSeam

end Behind

section Choice

variable {choice : Declaration → Option Form} {text : String}

def chosenMark (choice : Declaration → Option Form) (text : List Char) (site : Site) : Mark :=
  (choice (site.toDeclaration text)).elim .kept fun form =>
    (behind (site.toDeclaration text).specifier.value form).mark

def chosenText (choice : Declaration → Option Form) (d : Declaration) : Option String :=
  (choice d).map fun form => (behind d.specifier.value form).render d.specifier.quote

/-- The edited text is the old one with the chosen marks at its sites. -/
theorem splice_chosenText (choice : Declaration → Option Form) (text : String) :
    splice 0 text.toList (editsBy (chosenText choice) (declarations text)) =
      some (woven (weave (chosenMark choice text.toList) text.toList (sites text.toList))) := by
  have hMarks : ∀ site ∈ sites text.toList, (chosenMark choice text.toList site).Writes
      site.specifier (chosenText choice (site.toDeclaration text.toList)) := by
    intro site _
    unfold chosenMark chosenText
    cases choice (site.toDeclaration text.toList) with
    | none => rfl
    | some form =>
      have hRender := toList_render_behind (site.toDeclaration text.toList).specifier.value form
        site.specifier.quote
      rw [Site.toList_value] at hRender
      exact hRender
  exact splice_declarations hMarks

theorem becomes_of_foundAgain {out : List Char} {site found : Site}
    (h : site.FoundAgain (chosenMark choice text.toList) found)
    (hSite : site.IsSound text.toList) (hFound : found.IsSound out)
    (hLines : out.count '\n' = text.toList.count '\n') :
    Becomes choice (site.toDeclaration text.toList) (found.toDeclaration out) := by
  obtain ⟨hKind, hQuote, hBody, hAttributes⟩ := Content.mk.inj h.content
  refine ⟨hKind, ?_, hQuote, ?_, ?_⟩
  · rw [hSite.line_eq, hFound.line_eq, hLines, h.lineEnds]
  · rw [← String.toList_inj, Site.toList_value, hBody]
    unfold chosenMark
    cases choice (site.toDeclaration text.toList) with
    | none =>
      rw [Option.elim_none, Option.elim_none, Site.toList_value]
      exact List.append_nil _
    | some form => rw [Option.elim_some, Option.elim_some, toList_specifier_behind, Site.toList_value]
  · refine hAttributes.trans (congrArg (site.hasAttributes || ·) (decide_eq_decide.mpr ?_))
    unfold chosenMark
    cases choice (site.toDeclaration text.toList) with
    | none => exact iff_of_false nofun nofun
    | some form =>
      rw [Option.elim_some, mark_eq_clause_iff, Option.some.injEq]
      rfl

end Choice

/-- Whatever the text, its declarations are found again after some of their specifiers have been made
explicit, in any order: as many, each of the same kind, on the same line and in the same quotes, with
the specifier that was written, and with attributes if it had or got them. -/
theorem declarations_edited (path : Path) {text : String} {choice : Declaration → Option Form}
    (hChoice : ∀ d ∈ declarations text, ∀ form ∈ choice d, Permits d form)
    {order : List Declaration} (hOrder : order.Perm (declarations text)) :
    ∃ edited out, (Document.ofText path text).replaceEach? (chosenText choice) order = some edited ∧
      edited.render? = some out ∧
      List.Forall₂ (Becomes choice) (declarations text) (declarations out) := by
  have hSplice := splice_chosenText choice text
  have hSound := sites_sound text.toList
  have hSuits : ∀ site ∈ sites text.toList, (chosenMark choice text.toList site).Suits site := by
    intro site hSite
    unfold chosenMark
    cases hCase : choice (site.toDeclaration text.toList) with
    | none => exact ⟨trivial, nofun⟩
    | some form => exact (hChoice _ (mem_declarations hSite) form hCase).suits
  have hAgain := sites_weave hSuits
  have hLines := count_weave (sites_inOrder text.toList).within
    (fun site hSite => (hSound site hSite).specifier_closed)
    fun site hSite => (hSuits site hSite).allowed
  refine ⟨_, _, Document.replaceEach?_declarations path text _ hOrder,
    Document.render?_eq rfl hSplice, ?_⟩
  rw [declarations_eq_map, declarations_eq_map, String.toList_ofList, List.forall₂_map_left_iff,
    List.forall₂_map_right_iff]
  obtain ⟨hLength, hPairs⟩ := List.forall₂_iff_zip.mp hAgain
  refine List.forall₂_iff_zip.mpr ⟨hLength, ?_⟩
  intro site found hPair
  obtain ⟨hSite, hFound⟩ := List.of_mem_zip hPair
  exact becomes_of_foundAgain (hPairs hPair) (hSound site hSite) (sites_sound _ found hFound) hLines

/-- Two declarations that the look-ahead behind the first `import` passes over, and one on the next
line. -/
def passedText : String :=
  "import \x7b /'/; import y from './b'; export * from \"./c.json\"; '\x7d ;\nimport './d'"

def passedChoice (d : Declaration) : Option Form :=
  if d.specifier.value = "./b" then some .index
  else if d.specifier.value = "./c.json" then some .json
  else none

theorem passedText_edited :
    (declarations passedText).map passedChoice = [some .index, some .json, none] ∧
      (∀ d ∈ declarations passedText, ∀ form ∈ passedChoice d, Permits d form) ∧
      ∃ edited out, (Document.ofText ⟨"/w/a.ts"⟩ passedText).replaceEach? (chosenText passedChoice)
          (declarations passedText).reverse = some edited ∧
        edited.render? = some out ∧
        List.Forall₂ (Becomes passedChoice) (declarations passedText) (declarations out) := by
  have hChoice : ∀ d ∈ declarations passedText, ∀ form ∈ passedChoice d, Permits d form := by
    decide +kernel
  have hOrder := List.reverse_perm (declarations passedText)
  exact ⟨by decide +kernel, hChoice, declarations_edited ⟨"/w/a.ts"⟩ hChoice hOrder⟩

end Replacement
end ExplicitModules
