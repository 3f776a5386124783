import ExplicitModules.Proofs.Source.Layout
import ExplicitModules.Source.Document

/-!
# Edits as one substitution

Edits are applied to a document from the last to the first. For edits that stand in order this is
the same as replacing all spans at once: what lies between the spans stays, and each span gives way
to its text.
-/
namespace ExplicitModules.Source
set_option autoImplicit false
open Text

/-- The text `cs`, which begins at byte `offset`, with the spans of all `edits` replaced at once.
There is no result if the edits are not in order or one of them cuts through a character. -/
def splice : Nat → List Char → List Edit → Option (List Char)
  | _, cs, [] => some cs
  | offset, cs, e :: edits =>
    if offset ≤ e.start ∧ e.start ≤ e.stop then do
      let (gap, behind) ← splitAtByte cs (e.start - offset)
      let (_, back) ← splitAtByte behind (e.stop - e.start)
      let spliced ← splice e.stop back edits
      return gap ++ (e.text.toList ++ spliced)
    else none

theorem splice_cons_eq_some_iff {offset : Nat} {cs out : List Char} {e : Edit} {edits : List Edit} :
    splice offset cs (e :: edits) = some out ↔ ∃ gap span back spliced,
      cs = gap ++ (span ++ back) ∧ e.start = offset + utf8Length gap ∧
      e.stop = e.start + utf8Length span ∧ splice e.stop back edits = some spliced ∧
      out = gap ++ (e.text.toList ++ spliced) := by
  rw [splice]
  constructor
  · intro h
    split at h
    · rename_i hOrder
      obtain ⟨⟨gap, behind⟩, hGap, hBehind⟩ := Option.bind_eq_some_iff.mp h
      obtain ⟨⟨span, back⟩, hSpan, hBack⟩ := Option.bind_eq_some_iff.mp hBehind
      obtain ⟨spliced, hSpliced, hOut⟩ := Option.bind_eq_some_iff.mp hBack
      obtain ⟨rfl, hStart⟩ := (splitAtByte_eq_some_iff _ _ _ _).mp hGap
      obtain ⟨rfl, hStop⟩ := (splitAtByte_eq_some_iff _ _ _ _).mp hSpan
      exact ⟨gap, span, back, spliced, rfl, by omega, by omega, hSpliced,
        (Option.some.inj hOut).symm⟩
    · cases h
  · rintro ⟨gap, span, back, spliced, rfl, hStart, hStop, hSpliced, rfl⟩
    have hGap : splitAtByte (gap ++ (span ++ back)) (e.start - offset) =
        some (gap, span ++ back) :=
      (splitAtByte_eq_some_iff _ _ _ _).mpr ⟨rfl, by omega⟩
    have hSpan : splitAtByte (span ++ back) (e.stop - e.start) = some (span, back) :=
      (splitAtByte_eq_some_iff _ _ _ _).mpr ⟨rfl, by omega⟩
    rw [if_pos ⟨by omega, by omega⟩, hGap]
    simp only [bind, Option.bind, pure, hSpan, hSpliced]

theorem splice_append {offset : Nat} {cs out : List Char} {edits : List Edit} (front : List Char)
    (h : splice (offset + utf8Length front) cs edits = some out) :
    splice offset (front ++ cs) edits = some (front ++ out) := by
  cases edits with
  | nil =>
    rw [splice] at h ⊢
    rw [Option.some.inj h]
  | cons e edits =>
    obtain ⟨gap, span, back, spliced, rfl, hStart, hStop, hSpliced, rfl⟩ :=
      splice_cons_eq_some_iff.mp h
    apply splice_cons_eq_some_iff.mpr
    refine ⟨front ++ gap, span, back, spliced, ?_, ?_, hStop, hSpliced, ?_⟩
    · rw [List.append_assoc]
    · rw [utf8Length_append]
      omega
    · rw [List.append_assoc]

theorem splice_length {offset : Nat} {cs out : List Char} {edits : List Edit}
    (hLonger : ∀ e ∈ edits, e.stop - e.start < utf8Length e.text.toList)
    (h : splice offset cs edits = some out) :
    utf8Length cs + edits.length ≤ utf8Length out := by
  induction edits generalizing offset cs out with
  | nil =>
    rw [splice] at h
    rw [Option.some.inj h]
    exact Nat.le_refl _
  | cons e edits ih =>
    obtain ⟨gap, span, back, spliced, rfl, hStart, hStop, hSpliced, rfl⟩ :=
      splice_cons_eq_some_iff.mp h
    have hRest := ih (fun later hLater => hLonger later (List.mem_cons_of_mem e hLater)) hSpliced
    have hFirst := hLonger e List.mem_cons_self
    simp only [utf8Length_append, List.length_cons]
    omega

theorem applyEdit_append (front span back : List Char) {e : Edit}
    (hStart : e.start = utf8Length front) (hStop : e.stop = e.start + utf8Length span) :
    Document.applyEdit (front ++ (span ++ back)) e =
      some (front ++ (e.text.toList ++ back)) := by
  have hFront : splitAtByte (front ++ (span ++ back)) e.start = some (front, span ++ back) :=
    (splitAtByte_eq_some_iff _ _ _ _).mpr ⟨rfl, hStart.symm⟩
  have hSpan : splitAtByte (span ++ back) (e.stop - e.start) = some (span, back) :=
    (splitAtByte_eq_some_iff _ _ _ _).mpr ⟨rfl, by omega⟩
  simp only [Document.applyEdit, bind, Option.bind, pure, hFront, hSpan, List.append_assoc]

/-- Applying the edits one by one, the last one first, replaces all spans at once. -/
theorem foldlM_applyEdit (front : List Char) {cs out : List Char} {edits : List Edit}
    (h : splice (utf8Length front) cs edits = some out) :
    edits.reverse.foldlM Document.applyEdit (front ++ cs) = some (front ++ out) := by
  induction edits generalizing front cs out with
  | nil =>
    rw [splice] at h
    rw [Option.some.inj h]
    rfl
  | cons e edits ih =>
    obtain ⟨gap, span, back, spliced, rfl, hStart, hStop, hSpliced, rfl⟩ :=
      splice_cons_eq_some_iff.mp h
    have hOffset : e.stop = utf8Length (front ++ (gap ++ span)) := by
      simp only [utf8Length_append]
      omega
    rw [hOffset] at hSpliced
    -- the later edits have been applied by then, which leaves the span of `e` as it is
    have hLater := ih _ hSpliced
    have hFirst := applyEdit_append (front ++ gap) span spliced (e := e)
      (by rw [utf8Length_append, hStart]) hStop
    simp only [List.append_assoc] at hLater hFirst
    rw [List.reverse_cons, List.foldlM_append, hLater]
    exact congrArg (fun result => result >>= fun cs => [].foldlM Document.applyEdit cs) hFirst

theorem Document.render?_eq {d : Document} {edits : List Edit} {out : List Char}
    (hEdits : d.edits = edits.reverse) (h : splice 0 d.text.toList edits = some out) :
    d.render? = some (String.ofList out) := by
  have hFold := foldlM_applyEdit [] h
  rw [List.nil_append, List.nil_append] at hFold
  rw [Document.render?, hEdits, hFold]
  rfl

/-- The edits that give the literals of `ds` the texts that `f` chooses for them. -/
def editsBy (f : Declaration → Option String) (ds : List Declaration) : List Edit :=
  ds.filterMap fun d => (f d).map (Edit.mk d.specifier.start d.specifier.stop)

theorem editsBy_cons (f : Declaration → Option String) (d : Declaration) (ds : List Declaration) :
    editsBy f (d :: ds) =
      ((f d).map (Edit.mk d.specifier.start d.specifier.stop)).toList ++ editsBy f ds := by
  unfold editsBy
  rw [List.filterMap_cons]
  cases f d <;> rfl

theorem editsBy_singleton (f : Declaration → Option String) (d : Declaration) :
    editsBy f [d] = ((f d).map (Edit.mk d.specifier.start d.specifier.stop)).toList := by
  rw [editsBy_cons]
  exact List.append_nil _

theorem LiteralsIn.exists_splice {offset : Nat} {cs : List Char} {ds : List Declaration}
    (h : LiteralsIn offset cs ds) (f : Declaration → Option String) :
    ∃ out, splice offset cs (editsBy f ds) = some out := by
  induction ds generalizing offset cs with
  | nil => exact ⟨cs, rfl⟩
  | cons d ds ih =>
    obtain ⟨gap, rest, rfl, hStart, hStop, hRest⟩ := h
    obtain ⟨out, hOut⟩ := ih hRest
    rw [editsBy_cons]
    cases f d with
    | none =>
      refine ⟨(gap ++ d.specifier.chars) ++ out, ?_⟩
      rw [← List.append_assoc]
      apply splice_append
      rw [utf8Length_append, ← Nat.add_assoc, ← hStart, ← hStop]
      exact hOut
    | some text =>
      exact ⟨_, splice_cons_eq_some_iff.mpr
        ⟨gap, d.specifier.chars, rest, out, rfl, hStart, hStop, hOut, rfl⟩⟩

/-- The spans have no byte in common. -/
def Edit.Apart (a b : Edit) : Prop :=
  a.stop ≤ b.start ∨ b.stop ≤ a.start

def Descending (edits : List Edit) : Prop :=
  edits.Pairwise fun a b => b.start < a.start

namespace Document

theorem insertEdit_perm (e : Edit) (edits : List Edit) : (insertEdit e edits).Perm (e :: edits) := by
  induction edits with
  | nil => exact .refl _
  | cons pending rest ih =>
    rw [insertEdit]
    split
    · exact .refl _
    · exact (ih.cons pending).trans (.swap e pending rest)

theorem insertEdit_descending {e : Edit} {edits : List Edit} (h : Descending edits)
    (hNew : ∀ pending ∈ edits, pending.start ≠ e.start) : Descending (insertEdit e edits) := by
  induction edits with
  | nil => exact List.pairwise_singleton _ _
  | cons pending rest ih =>
    obtain ⟨hFirst, hRest⟩ := List.pairwise_cons.mp h
    rw [List.forall_mem_cons] at hNew
    rw [insertEdit]
    split
    · rename_i hLess
      refine List.pairwise_cons.mpr ⟨?_, h⟩
      intro later hLater
      rcases List.mem_cons.mp hLater with rfl | hMem
      · exact hLess
      · exact Nat.lt_trans (hFirst later hMem) hLess
    · rename_i hLess
      refine List.pairwise_cons.mpr ⟨?_, ih hRest hNew.2⟩
      intro later hLater
      rcases List.mem_cons.mp ((insertEdit_perm e rest).mem_iff.mp hLater) with rfl | hMem
      · have hNe := hNew.1
        omega
      · exact hFirst later hMem

theorem insertEdit_of_forall_lt {e : Edit} {edits : List Edit}
    (h : ∀ pending ∈ edits, pending.start < e.start) : insertEdit e edits = e :: edits := by
  cases edits with
  | nil => rfl
  | cons pending rest => rw [insertEdit, if_pos (h pending List.mem_cons_self)]

/-- A span of the text behind all pending edits is accepted. -/
theorem replace?_behind {d : Document} {literal : Literal} (text : String)
    (hSpan : literal.start < literal.stop) (hText : literal.stop ≤ utf8Length d.text.toList)
    (hBehind : ∀ pending ∈ d.edits, pending.start < literal.start ∧ pending.stop ≤ literal.start) :
    d.replace? literal text =
      some { d with edits := ⟨literal.start, literal.stop, text⟩ :: d.edits } := by
  have hAccepts : d.accepts ⟨literal.start, literal.stop, text⟩ = true := by
    simp only [accepts, Edit.overlaps, Bool.and_eq_true, decide_eq_true_eq, List.all_eq_true,
      Bool.not_eq_true', Bool.and_eq_false_iff, decide_eq_false_iff_not]
    refine ⟨⟨hSpan, hText⟩, ?_⟩
    intro pending hPending
    have hLe := (hBehind pending hPending).2
    exact Or.inr (by omega)
  dsimp only [replace?]
  rw [if_pos hAccepts, insertEdit_of_forall_lt fun pending hPending => (hBehind pending hPending).1]

end Document
end ExplicitModules.Source
