import ExplicitModules.Proofs.Source.Splicing
import Mathlib.Data.List.Pairwise

/-!
# Requested edits

A document is asked for edits one after the other. Those are granted whose span holds a byte, lies in the
text and shares no byte with a span granted before. Rendering replaces all granted spans at once, in
whatever order they were asked for, and fails exactly if one of them cuts through a character of the text.
-/
namespace ExplicitModules.Source
set_option autoImplicit false
open Text

namespace Edit

variable {a b : Edit}

def Meets (a b : Edit) : Prop :=
  ∃ byte, (a.start ≤ byte ∧ byte < a.stop) ∧ b.start ≤ byte ∧ byte < b.stop

theorem meets_iff : a.Meets b ↔ max a.start b.start < min a.stop b.stop := by
  constructor
  · rintro ⟨byte, hA, hB⟩
    omega
  · intro h
    exact ⟨max a.start b.start, by omega, by omega⟩

instance (a b : Edit) : Decidable (a.Meets b) :=
  decidable_of_iff _ meets_iff.symm

theorem Meets.symm (h : a.Meets b) : b.Meets a := by
  obtain ⟨byte, hA, hB⟩ := h
  exact ⟨byte, hB, hA⟩

theorem apart_iff (hA : a.start < a.stop) (hB : b.start < b.stop) : a.Apart b ↔ ¬a.Meets b := by
  rw [meets_iff, Apart]
  omega

end Edit

section Boundaries

variable {offset n : Nat} {cs out : List Char} {e : Edit} {edits : List Edit}

/-- In `cs`, a text that begins at byte `offset`, a character ends or begins at byte `n`. -/
def IsBoundary (offset : Nat) (cs : List Char) (n : Nat) : Prop :=
  ∃ front, front <+: cs ∧ offset + utf8Length front = n

theorem isBoundary_append {front : List Char} (h : offset + utf8Length front ≤ n) :
    IsBoundary offset (front ++ cs) n ↔ IsBoundary (offset + utf8Length front) cs n := by
  constructor
  · rintro ⟨whole, hWhole, hLength⟩
    obtain ⟨more, rfl⟩ := prefix_of_utf8Length_le (List.prefix_append front cs) hWhole (by omega)
    rw [utf8Length_append, ← Nat.add_assoc] at hLength
    exact ⟨more, (List.prefix_append_right_inj front).mp hWhole, hLength⟩
  · rintro ⟨more, hMore, hLength⟩
    refine ⟨front ++ more, (List.prefix_append_right_inj front).mpr hMore, ?_⟩
    rw [utf8Length_append, ← Nat.add_assoc, hLength]

theorem isBoundary_of_splitAtByte {front back : List Char} (h : splitAtByte cs n = some (front, back)) :
    IsBoundary 0 cs n := by
  obtain ⟨rfl, hLength⟩ := (splitAtByte_eq_some_iff _ _ _ _).mp h
  exact ⟨front, List.prefix_append front back, by omega⟩

instance (cs : List Char) (n : Nat) : Decidable (IsBoundary 0 cs n) :=
  decidable_of_iff ((splitAtByte cs n).isSome = true) <| by
    rw [Option.isSome_iff_exists]
    constructor
    · rintro ⟨⟨front, back⟩, h⟩
      exact isBoundary_of_splitAtByte h
    · rintro ⟨front, ⟨back, rfl⟩, hLength⟩
      exact ⟨(front, back), (splitAtByte_eq_some_iff _ _ _ _).mpr ⟨rfl, by omega⟩⟩

/-- Spans from the left to the right, none of which begins in front of byte `offset`. -/
def FromLeft : Nat → List Edit → Prop
  | _, [] => True
  | offset, e :: edits => offset ≤ e.start ∧ e.start ≤ e.stop ∧ FromLeft e.stop edits

theorem FromLeft.start_ge (h : FromLeft offset edits) : ∀ e ∈ edits, offset ≤ e.start ∧ e.start ≤ e.stop := by
  induction edits generalizing offset with
  | nil => exact nofun
  | cons first edits ih =>
    obtain ⟨hStart, hSpan, hRest⟩ := h
    refine List.forall_mem_cons.mpr ⟨⟨hStart, hSpan⟩, fun e hE => ?_⟩
    obtain ⟨hLater, hLaterSpan⟩ := ih hRest e hE
    omega

theorem FromLeft.mono {offset' : Nat} (h : FromLeft offset' edits) (hLe : offset ≤ offset') :
    FromLeft offset edits := by
  cases edits with
  | nil => trivial
  | cons first edits => exact ⟨Nat.le_trans hLe h.1, h.2⟩

/-- All spans are replaced if none cuts through a character. -/
theorem exists_splice_iff (h : FromLeft offset edits) :
    (∃ out, splice offset cs edits = some out) ↔
      ∀ e ∈ edits, IsBoundary offset cs e.start ∧ IsBoundary offset cs e.stop := by
  induction edits generalizing offset cs with
  | nil => exact ⟨fun _ => nofun, fun _ => ⟨cs, rfl⟩⟩
  | cons e edits ih =>
    obtain ⟨hStart, hSpan, hRest⟩ := h
    have hLater := hRest.start_ge
    rw [List.forall_mem_cons]
    constructor
    · rintro ⟨out, hOut⟩
      obtain ⟨gap, span, back, spliced, rfl, hGap, hStop, hSpliced, -⟩ := splice_cons_eq_some_iff.mp hOut
      have hLength : e.stop = offset + utf8Length (gap ++ span) := by
        rw [utf8Length_append]
        omega
      rw [← List.append_assoc]
      refine ⟨⟨⟨gap, ⟨span ++ back, (List.append_assoc _ _ _).symm⟩, hGap.symm⟩,
        ⟨gap ++ span, List.prefix_append _ _, hLength.symm⟩⟩, fun later hMem => ?_⟩
      obtain ⟨hBegin, hEnd⟩ := hLater later hMem
      rw [isBoundary_append (by omega), isBoundary_append (by omega), ← hLength]
      exact (ih hRest).mp ⟨spliced, hSpliced⟩ later hMem
    · rintro ⟨⟨⟨gap, ⟨behind, rfl⟩, hGap⟩, hEnd⟩, hMore⟩
      rw [isBoundary_append (by omega), hGap] at hEnd
      obtain ⟨span, ⟨back, rfl⟩, hStop⟩ := hEnd
      have hLength : offset + utf8Length (gap ++ span) = e.stop := by
        rw [utf8Length_append]
        omega
      have hBack : ∀ later ∈ edits,
          IsBoundary e.stop back later.start ∧ IsBoundary e.stop back later.stop := by
        intro later hMem
        obtain ⟨hBegin, hEnd⟩ := hLater later hMem
        have hHere := hMore later hMem
        rwa [← List.append_assoc, isBoundary_append (by omega), isBoundary_append (by omega),
          hLength] at hHere
      obtain ⟨spliced, hSpliced⟩ := (ih hRest).mpr hBack
      exact ⟨_, splice_cons_eq_some_iff.mpr
        ⟨gap, span, back, spliced, rfl, hGap.symm, hStop.symm, hSpliced, rfl⟩⟩

/-- In front of all spans the text stays, with its characters. -/
theorem isBoundary_of_splice (h : splice offset cs edits = some out) (hFront : ∀ e ∈ edits, n ≤ e.start)
    (hOut : IsBoundary offset out n) : IsBoundary offset cs n := by
  cases edits with
  | nil =>
    rw [splice] at h
    rwa [Option.some.inj h]
  | cons e edits =>
    obtain ⟨gap, span, back, spliced, rfl, hGap, -, -, rfl⟩ := splice_cons_eq_some_iff.mp h
    obtain ⟨front, hPrefix, hLength⟩ := hOut
    have hStart := hFront e List.mem_cons_self
    have hShort := prefix_of_utf8Length_le hPrefix (List.prefix_append gap _) (by omega)
    exact ⟨front, hShort.trans (List.prefix_append gap _), hLength⟩

theorem isBoundary_of_applyEdit {cs' : List Char} (hSpan : e.start ≤ e.stop)
    (h : Document.applyEdit cs e = some cs') : IsBoundary 0 cs e.start ∧ IsBoundary 0 cs e.stop := by
  obtain ⟨⟨front, rest⟩, hFront, hRest⟩ := Option.bind_eq_some_iff.mp h
  obtain ⟨⟨span, back⟩, hBack, -⟩ := Option.bind_eq_some_iff.mp hRest
  refine ⟨isBoundary_of_splitAtByte hFront, ?_⟩
  obtain ⟨rfl, hStart⟩ := (splitAtByte_eq_some_iff _ _ _ _).mp hFront
  obtain ⟨rfl, hLength⟩ := (splitAtByte_eq_some_iff _ _ _ _).mp hBack
  refine ⟨front ++ span, ⟨back, List.append_assoc _ _ _⟩, ?_⟩
  rw [utf8Length_append]
  omega

/-- Applying edits one by one, the last one first, meets the characters of the text: what is behind an
edit has been replaced by then, but its end is still there. -/
theorem exists_splice_of_foldlM {cs' : List Char} (h : FromLeft 0 edits)
    (hFold : edits.reverse.foldlM Document.applyEdit cs = some cs') :
    ∃ out, splice 0 cs edits = some out := by
  induction edits generalizing cs' with
  | nil => exact ⟨cs, rfl⟩
  | cons e edits ih =>
    obtain ⟨-, hSpan, hRest⟩ := h
    rw [List.reverse_cons, List.foldlM_append] at hFold
    obtain ⟨half, hHalf, hLast⟩ := Option.bind_eq_some_iff.mp hFold
    rw [List.foldlM_cons] at hLast
    obtain ⟨whole, hApply, -⟩ := Option.bind_eq_some_iff.mp hLast
    have hBehind := hRest.mono (Nat.zero_le e.stop)
    obtain ⟨out, hOut⟩ := ih hBehind hHalf
    have hLater := foldlM_applyEdit [] hOut
    rw [List.nil_append, List.nil_append, hHalf] at hLater
    obtain rfl := Option.some.inj hLater
    obtain ⟨hBegin, hEnd⟩ := isBoundary_of_applyEdit hSpan hApply
    have hFront := fun later hMem => (hRest.start_ge later hMem).1
    have hAll : FromLeft 0 (e :: edits) := ⟨Nat.zero_le _, hSpan, hRest⟩
    refine (exists_splice_iff hAll).mpr
      (List.forall_mem_cons.mpr ⟨⟨?_, ?_⟩, (exists_splice_iff hBehind).mp ⟨half, hOut⟩⟩)
    · exact isBoundary_of_splice hOut (fun later hMem => Nat.le_trans hSpan (hFront later hMem)) hBegin
    · exact isBoundary_of_splice hOut hFront hEnd

end Boundaries

section Pending

variable {length : Nat} {e : Edit} {edits pending : List Edit}

/-- The edits pending for a text of `length` bytes: the last first, each on bytes of its own. -/
structure Tidy (length : Nat) (edits : List Edit) : Prop where
  inText : ∀ e ∈ edits, e.start < e.stop ∧ e.stop ≤ length
  apart : edits.Pairwise fun a b => ¬a.Meets b
  descending : Descending edits

structure Grants (length : Nat) (pending : List Edit) (e : Edit) : Prop where
  nonempty : e.start < e.stop
  inText : e.stop ≤ length
  free : ∀ a ∈ pending, ¬a.Meets e

instance (length : Nat) (pending : List Edit) (e : Edit) : Decidable (Grants length pending e) :=
  decidable_of_iff (e.start < e.stop ∧ e.stop ≤ length ∧ ∀ a ∈ pending, ¬a.Meets e)
    ⟨fun ⟨hSome, hText, hFree⟩ => ⟨hSome, hText, hFree⟩, fun h => ⟨h.nonempty, h.inText, h.free⟩⟩

theorem Grants.perm {pending' : List Edit} (h : Grants length pending e) (hPerm : pending.Perm pending') :
    Grants length pending' e :=
  { h with free := fun a hA => h.free a (hPerm.mem_iff.mpr hA) }

theorem Tidy.insertEdit (h : Tidy length edits) (hNew : Grants length edits e) :
    Tidy length (Document.insertEdit e edits) := by
  have hPerm := Document.insertEdit_perm e edits
  have hSymm : ∀ {a b : Edit}, ¬a.Meets b → ¬b.Meets a := fun hApart hMeets => hApart hMeets.symm
  refine ⟨?_, ?_, ?_⟩
  · intro a hA
    rcases List.mem_cons.mp (hPerm.mem_iff.mp hA) with rfl | hOld
    · exact ⟨hNew.nonempty, hNew.inText⟩
    · exact h.inText a hOld
  · exact hPerm.symm.pairwise (List.pairwise_cons.mpr ⟨fun a hA => hSymm (hNew.free a hA), h.apart⟩) hSymm
  · refine Document.insertEdit_descending h.descending fun a hA hStart => hNew.free a hA ?_
    have hSpan := (h.inText a hA).1
    have hNonempty := hNew.nonempty
    rw [Edit.meets_iff]
    omega

theorem Tidy.fromLeft (h : Tidy length edits) : FromLeft 0 edits.reverse := by
  have hOrder : edits.reverse.Pairwise fun a b => a.start ≤ b.start ∧ a.stop ≤ b.start := by
    refine List.pairwise_reverse.mpr ((h.apart.and h.descending).imp_of_mem ?_)
    intro a b hA hB ⟨hApart, hBefore⟩
    rw [← Edit.apart_iff (h.inText a hA).1 (h.inText b hB).1, Edit.Apart] at hApart
    have hSpan := (h.inText a hA).1
    omega
  have hSpans : ∀ e ∈ edits.reverse, e.start ≤ e.stop := fun e hE =>
    Nat.le_of_lt (h.inText e (List.mem_reverse.mp hE)).1
  generalize edits.reverse = spans at hOrder hSpans
  clear h
  suffices ∀ offset, (∀ e ∈ spans, offset ≤ e.start) → FromLeft offset spans from
    this 0 fun e _ => Nat.zero_le _
  induction spans with
  | nil => exact fun _ _ => trivial
  | cons first rest ih =>
    intro offset hStart
    rw [List.forall_mem_cons] at hStart hSpans
    obtain ⟨hFirst, hRest⟩ := List.pairwise_cons.mp hOrder
    exact ⟨hStart.1, hSpans.1, ih hRest hSpans.2 _ fun e hE => (hFirst e hE).2⟩

/-- A document whose edits are tidy is rendered by replacing all spans at once. -/
theorem Tidy.render?_eq {d : Document} (h : Tidy length d.edits) :
    d.render?.map String.toList = splice 0 d.text.toList d.edits.reverse := by
  cases hSplice : splice 0 d.text.toList d.edits.reverse with
  | some out =>
    rw [Document.render?_eq (List.reverse_reverse d.edits).symm hSplice, Option.map_some,
      String.toList_ofList]
  | none =>
    rw [Option.map_eq_none_iff, Document.render?, Option.map_eq_none_iff, Option.eq_none_iff_forall_ne_some]
    intro cs hFold
    rw [← List.reverse_reverse d.edits] at hFold
    obtain ⟨out, hOut⟩ := exists_splice_of_foldlM h.fromLeft hFold
    rw [hSplice] at hOut
    cases hOut

theorem Tidy.render?_eq_none_iff {d : Document} (h : Tidy length d.edits) :
    d.render? = none ↔
      ∃ e ∈ d.edits, ¬IsBoundary 0 d.text.toList e.start ∨ ¬IsBoundary 0 d.text.toList e.stop := by
  have hSome : (∃ out, splice 0 d.text.toList d.edits.reverse = some out) ↔ _ :=
    exists_splice_iff h.fromLeft
  rw [← h.render?_eq] at hSome
  simp only [List.mem_reverse] at hSome
  rw [← Option.map_eq_none_iff (f := String.toList), Option.eq_none_iff_forall_ne_some, ← not_exists, hSome]
  simp only [not_forall, exists_prop, not_and_or]

end Pending

def leftToRight (edits : List Edit) : List Edit :=
  edits.mergeSort fun a b => decide (a.start ≤ b.start)

theorem Tidy.eq_of_perm {length : Nat} {edits edits' : List Edit} (h : Tidy length edits)
    (h' : Tidy length edits') (hPerm : edits.Perm edits') : edits = edits' :=
  hPerm.eq_of_pairwise (fun _ _ _ _ hAB hBA => absurd hAB (Nat.lt_asymm hBA)) h.descending h'.descending

theorem Tidy.reverse_eq {length : Nat} {edits granted : List Edit} (h : Tidy length edits)
    (hPerm : edits.Perm granted) : edits.reverse = leftToRight granted := by
  have hSame : edits.reverse.Perm (leftToRight granted) :=
    (List.reverse_perm edits).trans (hPerm.trans (List.mergeSort_perm granted _).symm)
  have hMerged : (leftToRight granted).Pairwise fun a b => decide (a.start ≤ b.start) = true :=
    List.pairwise_mergeSort
      (fun a b c hAB hBC => by simp only [decide_eq_true_eq] at hAB hBC ⊢; omega)
      (fun a b => by simp only [Bool.or_eq_true, decide_eq_true_eq]; omega) granted
  have hSorted : (leftToRight granted).Pairwise fun a b => a.start ≤ b.start :=
    hMerged.imp of_decide_eq_true
  have hAscending : edits.reverse.Pairwise fun a b => a.start ≤ b.start :=
    List.pairwise_reverse.mpr (h.descending.imp Nat.le_of_lt)
  refine hSame.eq_of_pairwise (fun a b hA hB hAB hBA => ?_) hAscending hSorted
  -- two edits that begin at one byte would meet there
  by_contra hOther
  have hMemA := List.mem_reverse.mp hA
  have hMemB := List.mem_reverse.mp (hSame.mem_iff.mpr hB)
  have hSymm : Std.Symm fun a b : Edit => ¬a.Meets b := ⟨fun a b hApart hMeets => hApart hMeets.symm⟩
  have hApart := h.apart.forall hMemA hMemB hOther
  have hSpanA := (h.inText a hMemA).1
  have hSpanB := (h.inText b hMemB).1
  rw [Edit.meets_iff] at hApart
  omega

namespace Document

variable {length : Nat} {d : Document} {e : Edit} {path : Path} {text : String}
  {edits : List Edit} {requests : List (Literal × String)}

/-- Asks for the span of a literal to become a text; a request that is refused changes nothing. -/
def request (d : Document) (r : Literal × String) : Document :=
  (d.replace? r.1 r.2).getD d

def asked (r : Literal × String) : Edit :=
  ⟨r.1.start, r.1.stop, r.2⟩

theorem replace?_eq (d : Document) (r : Literal × String) :
    d.replace? r.1 r.2 =
      if d.accepts (asked r) then some { d with edits := insertEdit (asked r) d.edits } else none :=
  rfl

theorem accepts_eq_true_iff (h : Tidy length d.edits) :
    d.accepts e = true ↔ Grants (utf8Length d.text.toList) d.edits e := by
  simp only [accepts, Bool.and_eq_true, decide_eq_true_eq, List.all_eq_true, Bool.not_eq_true']
  constructor
  · rintro ⟨⟨hSome, hText⟩, hFree⟩
    refine ⟨hSome, hText, fun a hA => (Edit.apart_iff (h.inText a hA).1 hSome).mp ?_⟩
    have hNone := hFree a hA
    simp only [Edit.overlaps, Bool.and_eq_false_iff, decide_eq_false_iff_not] at hNone
    rw [Edit.Apart]
    omega
  · rintro ⟨hSome, hText, hFree⟩
    refine ⟨⟨hSome, hText⟩, fun a hA => ?_⟩
    have hApart := (Edit.apart_iff (h.inText a hA).1 hSome).mpr (hFree a hA)
    rw [Edit.Apart] at hApart
    simp only [Edit.overlaps, Bool.and_eq_false_iff, decide_eq_false_iff_not]
    omega

def grant (length : Nat) (pending : List Edit) (r : Literal × String) : List Edit :=
  if Grants length pending (asked r) then pending ++ [asked r] else pending

def granted (length : Nat) (requests : List (Literal × String)) : List Edit :=
  requests.foldl (grant length) []

/-- `d` is the file `path` with the text `text`, of which just `edits` are pending. -/
structure Carries (path : Path) (text : String) (edits : List Edit) (d : Document) : Prop where
  path_eq : d.path = path
  text_eq : d.text = text
  pending : d.edits.Perm edits
  tidy : Tidy (utf8Length text.toList) d.edits

theorem carries_ofText (path : Path) (text : String) : Carries path text [] (ofText path text) where
  path_eq := rfl
  text_eq := rfl
  pending := .refl _
  tidy := ⟨nofun, .nil, .nil⟩

theorem Carries.accepts_iff (h : Carries path text edits d) (e : Edit) :
    d.accepts e = true ↔ Grants (utf8Length text.toList) edits e := by
  rw [accepts_eq_true_iff h.tidy, h.text_eq]
  exact ⟨fun hNew => hNew.perm h.pending, fun hNew => hNew.perm h.pending.symm⟩

/-- What a request does is decided by the edits granted so far. -/
theorem Carries.request (h : Carries path text edits d) (r : Literal × String) :
    Carries path text (grant (utf8Length text.toList) edits r) (d.request r) := by
  have hAccepts := h.accepts_iff (asked r)
  rw [Document.request, replace?_eq, grant]
  by_cases hNew : Grants (utf8Length text.toList) edits (asked r)
  · rw [if_pos hNew, if_pos (hAccepts.mpr hNew), Option.getD_some]
    refine ⟨h.path_eq, h.text_eq, ?_, h.tidy.insertEdit (hNew.perm h.pending.symm)⟩
    refine (insertEdit_perm _ _).trans ((h.pending.cons _).trans ?_)
    exact (List.perm_append_singleton _ _).symm
  · rw [if_neg hNew, if_neg fun hAccepted => hNew (hAccepts.mp hAccepted), Option.getD_none]
    exact h

theorem Carries.foldl_request (h : Carries path text edits d) (requests : List (Literal × String)) :
    Carries path text (requests.foldl (grant (utf8Length text.toList)) edits)
      (requests.foldl Document.request d) := by
  induction requests generalizing d edits with
  | nil => exact h
  | cons r requests ih => exact ih (h.request r)

/-- Spans without a common byte are granted whenever they hold a byte of the text. -/
theorem foldl_grant_of_apart (length : Nat) (edits : List Edit) {requests : List (Literal × String)}
    (hApart : (requests.map asked).Pairwise fun a b => ¬a.Meets b)
    (hFree : ∀ a ∈ edits, ∀ r ∈ requests, ¬a.Meets (asked r)) :
    requests.foldl (grant length) edits =
      edits ++ (requests.map asked).filter fun e => decide (e.start < e.stop ∧ e.stop ≤ length) := by
  induction requests generalizing edits with
  | nil => exact (List.append_nil edits).symm
  | cons r requests ih =>
    rw [List.map_cons, List.pairwise_cons, List.forall_mem_map] at hApart
    have hHere := fun a hA => hFree a hA r List.mem_cons_self
    have hLater := fun a hA later hMem => hFree a hA later (List.mem_cons_of_mem r hMem)
    rw [List.foldl_cons, List.map_cons, List.filter_cons, grant]
    by_cases hText : (asked r).start < (asked r).stop ∧ (asked r).stop ≤ length
    · rw [if_pos ⟨hText.1, hText.2, hHere⟩, if_pos (decide_eq_true hText), ih _ hApart.2, List.append_assoc]
      · rfl
      · refine List.forall_mem_append.mpr ⟨hLater, ?_⟩
        rw [List.forall_mem_singleton]
        exact hApart.1
    · rw [if_neg fun hNew => hText ⟨hNew.nonempty, hNew.inText⟩, if_neg (by simpa using hText),
        ih _ hApart.2 hLater]

/-- After any requests the text is still the one that was read, the granted spans share no byte, and a
further request is granted if its span does not meet them. Rendering replaces the granted spans at once,
unless one of them cuts through a character; spans that share no byte may be asked for in any order. -/
theorem requests_at_once (path : Path) (text : String) (requests : List (Literal × String)) :
    let d := requests.foldl request (ofText path text)
    let edits := granted (utf8Length text.toList) requests
    (d.path = path ∧ d.text = text ∧ d.declarations = Source.declarations text) ∧
    (d.edits.Perm edits ∧ edits.Pairwise fun a b => ¬a.Meets b) ∧
    (∀ r, ((d.replace? r.1 r.2).isSome = true ↔ Grants (utf8Length text.toList) edits (asked r)) ∧
      (¬Grants (utf8Length text.toList) edits (asked r) → d.request r = d)) ∧
    (d.render? = none ↔
      ∃ e ∈ edits, ¬IsBoundary 0 text.toList e.start ∨ ¬IsBoundary 0 text.toList e.stop) ∧
    d.render?.map String.toList = splice 0 text.toList (leftToRight edits) ∧
    ((requests.map asked).Pairwise (fun a b => ¬a.Meets b) →
      ∀ order : List (Literal × String), order.Perm requests →
      (order.foldl request (ofText path text)).render? = d.render?) := by
  intro d edits
  have hCarries : Carries path text edits d := (carries_ofText path text).foldl_request requests
  have hSymm : ∀ {a b : Edit}, ¬a.Meets b → ¬b.Meets a := fun hApart hMeets => hApart hMeets.symm
  refine ⟨⟨hCarries.path_eq, hCarries.text_eq, ?_⟩, ⟨hCarries.pending, ?_⟩, fun r => ⟨?_, fun hRefused => ?_⟩,
    ?_, ?_, fun hApart order hOrder => ?_⟩
  · rw [declarations, hCarries.text_eq]
  · exact hCarries.pending.pairwise hCarries.tidy.apart hSymm
  · rw [← hCarries.accepts_iff, replace?_eq, Option.isSome_ite]
  · rw [request, replace?_eq, if_neg fun hAccepted => hRefused ((hCarries.accepts_iff _).mp hAccepted),
      Option.getD_none]
  · rw [hCarries.tidy.render?_eq_none_iff, hCarries.text_eq]
    simp only [hCarries.pending.mem_iff]
  · rw [hCarries.tidy.render?_eq, hCarries.text_eq, hCarries.tidy.reverse_eq hCarries.pending]
  -- in either order the same edits are granted, and tidy edits come in one order only
  · have hOther := (carries_ofText path text).foldl_request order
    have hApart' := (hOrder.map asked).symm.pairwise hApart hSymm
    have hGranted := foldl_grant_of_apart (utf8Length text.toList) [] hApart nofun
    have hGranted' := foldl_grant_of_apart (utf8Length text.toList) [] hApart' nofun
    have hPerm := ((hOrder.map asked).filter fun e =>
      decide (e.start < e.stop ∧ e.stop ≤ utf8Length text.toList)).append_left []
    rw [← hGranted, ← hGranted'] at hPerm
    have hEdits := hOther.tidy.eq_of_perm hCarries.tidy
      (hOther.pending.trans (hPerm.trans hCarries.pending.symm))
    rw [render?, render?, hEdits, hOther.text_eq, hCarries.text_eq]

def spanRequest (start stop : Nat) (new : String) : Literal × String :=
  (⟨start, stop, '"', ""⟩, new)

def touchingRequests : List (Literal × String) :=
  [spanRequest 5 9 "!", spanRequest 3 5 "", spanRequest 9 12 "?", spanRequest 1 3 "e"]

theorem touchingRequests_render :
    ((touchingRequests.map asked).Pairwise fun a b => ¬a.Meets b) ∧
      (touchingRequests.reverse.foldl request (ofText ⟨"a.ts"⟩ "cé'./b';")).render? = some "ce!" := by
  have hApart : (touchingRequests.map asked).Pairwise fun a b => ¬a.Meets b := by decide
  have hRender : (touchingRequests.foldl request (ofText ⟨"a.ts"⟩ "cé'./b';")).render? = some "ce!" := by
    decide +kernel
  obtain ⟨-, -, -, -, -, hOrder⟩ := requests_at_once ⟨"a.ts"⟩ "cé'./b';" touchingRequests
  exact ⟨hApart, (hOrder hApart _ (List.reverse_perm _)).trans hRender⟩

end Document
end ExplicitModules.Source
