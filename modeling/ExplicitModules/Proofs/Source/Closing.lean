import ExplicitModules.Proofs.Source.Rescan

/-!
# Where a template ends

A reader that has stopped has looked at one character behind that place at most, and a template or a
block in braces ends with the character that closes it. So whether a text is a whole template to the
reader is decided without anything that follows.
-/
namespace ExplicitModules.Source
set_option autoImplicit false

section Local

variable {front rest rest' : List Char}

section Next

variable (hHead : rest'.head? = rest.head?)
include hHead

theorem head?_append_congr (front : List Char) :
    (front ++ rest').head? = (front ++ rest).head? := by
  rw [List.head?_append, List.head?_append, hHead]

theorem afterBlock_local (h : afterBlock (front ++ rest) = rest) :
    afterBlock (front ++ rest') = rest' := by
  generalize hCs : front ++ rest = cs at h
  fun_induction afterBlock cs generalizing front with
  | case1 =>
    obtain ⟨rfl, hNil⟩ := List.append_eq_nil_iff.mp hCs
    rw [eq_nil_of_head? hHead hNil]
    rfl
  | case2 cs =>
    subst h
    obtain rfl : front = ['*', '/'] := List.append_cancel_right hCs
    rfl
  | case3 c cs hOpen ih =>
    have hShort : rest.length ≤ cs.length := by
      rw [← h]
      exact (afterBlock_suffix cs).length_le
    obtain ⟨behind, rfl, rfl⟩ := exists_front [c] hShort hCs
    rw [List.cons_append, List.nil_append, List.cons_append]
    by_cases hStar : c = '*'
    · have hSlash : (behind ++ rest).head? ≠ some '/' := by
        intro hSlash
        obtain ⟨ds, hDs⟩ := List.head?_eq_some_iff.mp hSlash
        exact hOpen ds hStar hDs
      rw [afterBlock_cons_of_next (head?_append_congr hHead behind ▸ hSlash)]
      exact ih rfl h
    · rw [afterBlock_cons_of_ne hStar]
      exact ih rfl h

theorem afterComment?_local (h : afterComment? (front ++ rest) = some rest) :
    afterComment? (front ++ rest') = some rest' := by
  generalize hCs : front ++ rest = cs at h
  unfold afterComment? at h
  split at h
  · rename_i ds
    have hLine := Option.some.inj h
    have hShort : rest.length ≤ ds.length := by
      rw [← hLine]
      exact (afterLine_suffix ds).length_le
    obtain ⟨behind, rfl, rfl⟩ := exists_front ['/', '/'] hShort hCs
    exact congrArg some (dropWhile_local hHead hLine)
  · rename_i ds
    have hBlock := Option.some.inj h
    have hShort : rest.length ≤ ds.length := by
      rw [← hBlock]
      exact (afterBlock_suffix ds).length_le
    obtain ⟨behind, rfl, rfl⟩ := exists_front ['/', '*'] hShort hCs
    exact congrArg some (afterBlock_local hHead hBlock)
  · cases h

theorem readQuoted_local {q : Char} (h : (readQuoted q (front ++ rest)).2 = rest) :
    (readQuoted q (front ++ rest')).2 = rest' := by
  have hShort : ∀ cs, (readQuoted q cs).2 = rest → rest.length ≤ cs.length :=
    fun cs hCs => hCs ▸ (readQuoted_suffix q cs).length_le
  generalize hCs : front ++ rest = cs at h
  fun_induction readQuoted q cs generalizing front with
  | case1 =>
    obtain ⟨rfl, hNil⟩ := List.append_eq_nil_iff.mp hCs
    rw [eq_nil_of_head? hHead hNil]
    rfl
  | case2 =>
    rw [← h, List.append_nil] at hCs
    rw [eq_nil_of_head? hHead h.symm, List.append_nil, hCs]
    rfl
  | case3 c cs body behind hRead ih =>
    have hInner : (readQuoted q cs).2 = rest := by rw [hRead]; exact h
    obtain ⟨between, rfl, rfl⟩ := exists_front ['\\', c] (hShort cs hInner) hCs
    have hBetween := ih rfl hInner
    exact hBetween
  | case4 cs hLast hEscape =>
    subst h
    obtain rfl : front = [q] := List.append_cancel_right hCs
    change (readQuoted q (q :: rest')).2 = rest'
    rw [readQuoted_cons_quote (ne_backslash hLast hEscape)]
  | case5 cs _ _ hQuote =>
    subst h
    obtain rfl := List.append_left_eq_self.mp hCs
    obtain ⟨ds, rfl⟩ := List.head?_eq_some_iff.mp hHead
    rw [List.nil_append, readQuoted_cons_line (Ne.symm hQuote)]
  | case6 c cs hLast hEscape hQuote hLine body behind hRead ih =>
    have hInner : (readQuoted q cs).2 = rest := by rw [hRead]; exact h
    obtain ⟨between, rfl, rfl⟩ := exists_front [c] (hShort cs hInner) hCs
    simp only [List.cons_append, List.nil_append]
    rw [readQuoted_cons_of_ne (ne_backslash hLast hEscape) hQuote hLine]
    exact ih rfl hInner

end Next

/-- A reader that has something to close reads on. -/
theorem afterOpen_length_le (o : Opener) (outer : List Opener) (c : Char) (cs : List Char) :
    (afterOpen (o :: outer) (c :: cs)).length ≤ cs.length := by
  have hBehind : ∀ opened ds, ds.length ≤ cs.length → (afterOpen opened ds).length ≤ cs.length :=
    fun opened ds hDs => Nat.le_trans (afterOpen_suffix opened ds).length_le hDs
  have hDrop : (cs.drop 1).length ≤ cs.length := by simp
  cases o with
  | template =>
    rw [afterOpen]
    split_ifs
    · exact hBehind _ _ hDrop
    · exact hBehind _ _ (Nat.le_refl _)
    · exact hBehind _ _ hDrop
    · exact hBehind _ _ (Nat.le_refl _)
  | brace =>
    cases hComment : afterComment? (c :: cs) with
    | some rest =>
      rw [afterOpen_of_comment hComment]
      exact hBehind _ _ (Nat.lt_succ_iff.mp (afterComment?_suffix hComment).2)
    | none =>
      rw [afterOpen_of_no_comment hComment]
      split_ifs
      · exact hBehind _ _ (readQuoted_suffix c cs).length_le
      · exact hBehind _ _ (Nat.le_refl _)
      · exact hBehind _ _ (Nat.le_refl _)
      · exact hBehind _ _ (Nat.le_refl _)
      · exact hBehind _ _ (Nat.le_refl _)

theorem ne_nil_of_afterOpen {o : Opener} {outer : List Opener} (hRest : rest ≠ [])
    (h : afterOpen (o :: outer) (front ++ rest) = rest) : front ≠ [] := by
  rintro rfl
  obtain ⟨c, cs, rfl⟩ := List.exists_cons_of_ne_nil hRest
  have hLength := afterOpen_length_le o outer c cs
  rw [← List.nil_append (c :: cs), h, List.length_cons] at hLength
  omega

theorem head?_append_eq (hFront : front ≠ []) (rest rest' : List Char) :
    (front ++ rest').head? = (front ++ rest).head? := by
  rw [List.head?_append_of_ne_nil _ hFront, List.head?_append_of_ne_nil _ hFront]

/-- What has been closed in front of `rest` is closed there whatever follows. -/
theorem afterOpen_local {opened : List Opener} (hRest : rest ≠ [])
    (h : afterOpen opened (front ++ rest) = rest) (rest' : List Char) :
    afterOpen opened (front ++ rest') = rest' := by
  have hShort : ∀ opened cs, afterOpen opened cs = rest → rest.length ≤ cs.length :=
    fun opened cs hCs => hCs ▸ (afterOpen_suffix opened cs).length_le
  generalize hCs : front ++ rest = cs at h
  fun_induction afterOpen opened cs generalizing front with
  | case1 cs =>
    subst h
    obtain rfl := List.append_left_eq_self.mp hCs
    rw [afterOpen, List.nil_append]
  | case2 => exact absurd (List.append_eq_nil_iff.mp hCs).2 hRest
  | case3 outer cs ih =>
    cases cs with
    | nil =>
      rw [List.drop_nil, afterOpen] at h
      exact absurd h.symm hRest
    | cons d ds =>
      obtain ⟨behind, rfl, rfl⟩ := exists_front ['\\', d] (hShort _ ds h) hCs
      rw [List.append_assoc, List.cons_append, List.cons_append, afterOpen, if_pos rfl]
      exact ih rfl h
  | case4 outer cs hEscape ih =>
    obtain ⟨behind, rfl, rfl⟩ := exists_front ['`'] (hShort _ cs h) hCs
    rw [List.append_assoc, List.cons_append, afterOpen, if_neg hEscape, if_pos rfl]
    exact ih rfl h
  | case5 outer c cs hEscape hTick hOpen ih =>
    obtain ⟨rfl, hHead⟩ := hOpen
    obtain ⟨ds, rfl⟩ := List.head?_eq_some_iff.mp hHead
    obtain ⟨behind, rfl, rfl⟩ := exists_front ['$', '{'] (hShort _ ds h) hCs
    rw [List.append_assoc, List.cons_append, List.cons_append, afterOpen, if_neg hEscape,
      if_neg hTick, if_pos ⟨rfl, rfl⟩]
    exact ih rfl h
  | case6 outer c cs hEscape hTick hOpen ih =>
    obtain ⟨behind, rfl, rfl⟩ := exists_front [c] (hShort _ cs h) hCs
    have hNext := head?_append_eq (ne_nil_of_afterOpen hRest h) rest rest'
    rw [List.append_assoc, List.cons_append, List.nil_append, afterOpen, if_neg hEscape,
      if_neg hTick, if_neg (hNext ▸ hOpen)]
    exact ih rfl h
  | case7 outer c cs rest'' hComment ih =>
    obtain ⟨start, hStart⟩ := (afterComment?_suffix hComment).1
    obtain ⟨behind, rfl, rfl⟩ := exists_front start (hShort _ _ h) (hCs.trans hStart.symm)
    have hNext := head?_append_eq (ne_nil_of_afterOpen hRest h) rest rest'
    rw [← hStart] at hComment
    rw [List.append_assoc, afterOpen_of_comment (afterComment?_local hNext hComment)]
    exact ih rfl h
  | case8 outer c cs hNone hQuote ih =>
    obtain ⟨start, hStart⟩ := readQuoted_suffix c cs
    have hWhole : front ++ rest = c :: start ++ (readQuoted c cs).2 := by
      rw [hCs, List.cons_append, hStart]
    obtain ⟨behind, rfl, hBehind⟩ := exists_front (c :: start) (hShort _ _ h) hWhole
    rw [hBehind] at h hStart
    have hNext := head?_append_eq (ne_nil_of_afterOpen hRest h) rest rest'
    have hRead := readQuoted_local hNext (by rw [hStart, hBehind])
    have hSlash := (isQuote_spec hQuote).2.2.1
    rw [List.append_assoc, List.cons_append, afterOpen_of_no_comment (afterComment?_of_ne hSlash _),
      if_pos hQuote, hRead]
    exact ih hBehind.symm (hBehind ▸ h)
  | case9 outer cs hNone hQuote ih =>
    obtain ⟨behind, rfl, rfl⟩ := exists_front ['`'] (hShort _ cs h) hCs
    rw [List.append_assoc, List.cons_append, List.nil_append,
      afterOpen_of_no_comment (afterComment?_of_ne (by decide) _)]
    exact ih rfl h
  | case10 outer cs hNone hQuote hTick ih =>
    obtain ⟨behind, rfl, rfl⟩ := exists_front ['{'] (hShort _ cs h) hCs
    rw [List.append_assoc, List.cons_append, List.nil_append,
      afterOpen_of_no_comment (afterComment?_of_ne (by decide) _)]
    exact ih rfl h
  | case11 outer cs hNone hQuote hTick hOpen ih =>
    obtain ⟨behind, rfl, rfl⟩ := exists_front ['}'] (hShort _ cs h) hCs
    rw [List.append_assoc, List.cons_append, List.nil_append, afterOpen_close]
    exact ih rfl h
  | case12 outer c cs hNone hQuote hTick hOpen hClose ih =>
    obtain ⟨behind, rfl, rfl⟩ := exists_front [c] (hShort _ cs h) hCs
    have hNext := head?_append_eq (ne_nil_of_afterOpen hRest h) rest rest'
    rw [afterComment?_eq_none_iff, ← hNext, ← afterComment?_eq_none_iff] at hNone
    rw [List.append_assoc, List.cons_append, List.nil_append, afterOpen_of_no_comment hNone,
      if_neg hQuote, if_neg hTick, if_neg hOpen, if_neg hClose]
    exact ih rfl h

end Local

end ExplicitModules.Source
