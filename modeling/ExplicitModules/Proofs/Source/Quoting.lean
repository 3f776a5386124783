import ExplicitModules.Source.Lexeme

/-!
# Bodies of quoted strings

A backslash takes the character behind it out of consideration. What is left of the body of a closed
string has neither its quote nor a line end in it, nor a backslash with nothing behind it, and every
such body is read as a whole.
-/
namespace ExplicitModules.Source
set_option autoImplicit false

/-- A property of the characters of a text is decided by looking at these only. -/
instance (priority := high) decidableForallMem (cs : List Char) (p : Char → Prop)
    [DecidablePred p] : Decidable (∀ c ∈ cs, p c) :=
  List.decidableBAll p cs

instance (priority := high) decidableForallMemOption (c? : Option Char) (p : Char → Prop)
    [DecidablePred p] : Decidable (∀ c ∈ c?, p c) :=
  Option.decidableForallMem c?

/-- The characters that no backslash escapes. A backslash at the very end stays. -/
def unescaped : List Char → List Char
  | [] => []
  | ['\\'] => ['\\']
  | '\\' :: _ :: cs => unescaped cs
  | c :: cs => c :: unescaped cs

/-- `body` can stand between two quotes `quote`. -/
def IsQuotedBody (quote : Char) (body : List Char) : Prop :=
  ∀ c ∈ unescaped body, c ≠ '\\' ∧ c ≠ '\n' ∧ c ≠ quote

theorem unescaped_cons_of_ne {c : Char} (h : c ≠ '\\') (cs : List Char) :
    unescaped (c :: cs) = c :: unescaped cs := by
  rw [unescaped.eq_def]
  split <;> simp_all

theorem unescaped_append {as : List Char} (h : '\\' ∉ unescaped as) (bs : List Char) :
    unescaped (as ++ bs) = unescaped as ++ unescaped bs := by
  fun_induction unescaped as with
  | case1 => rfl
  | case2 => exact absurd List.mem_cons_self h
  | case3 c cs ih =>
    rw [List.cons_append, List.cons_append, unescaped, ih h]
  | case4 c cs hEnd hEscape ih =>
    have hPlain := ne_backslash hEnd hEscape
    rw [List.cons_append, unescaped_cons_of_ne hPlain, ih fun hMem => h (List.mem_cons_of_mem c hMem),
      List.cons_append]

/-- A backslash at the end is the only one that escapes nothing. -/
theorem getLast?_of_mem_unescaped {cs : List Char} (h : '\\' ∈ unescaped cs) :
    cs.getLast? = some '\\' := by
  fun_induction unescaped cs with
  | case1 => cases h
  | case2 => rfl
  | case3 c cs ih => rw [List.getLast?_cons, List.getLast?_cons, ih h]; rfl
  | case4 c cs hEnd hEscape ih =>
    rcases List.mem_cons.mp h with rfl | hMem
    · exact absurd rfl (ne_backslash hEnd hEscape)
    · rw [List.getLast?_cons, ih hMem]; rfl

theorem unescaped_of_forall {cs : List Char} (h : ∀ c ∈ cs, c ≠ '\\') : unescaped cs = cs := by
  induction cs with
  | nil => rfl
  | cons c cs ih =>
    rw [List.forall_mem_cons] at h
    rw [unescaped_cons_of_ne h.1, ih h.2]

theorem IsQuotedBody.closes {q : Char} {body : List Char} (h : IsQuotedBody q body) :
    '\\' ∉ unescaped body :=
  fun hMem => (h _ hMem).1 rfl

theorem IsQuotedBody.append {q : Char} {as bs : List Char} (hAs : IsQuotedBody q as)
    (hBs : IsQuotedBody q bs) : IsQuotedBody q (as ++ bs) := by
  unfold IsQuotedBody
  rw [unescaped_append hAs.closes]
  exact List.forall_mem_append.mpr ⟨hAs, hBs⟩

theorem isQuotedBody_of_readQuoted {q : Char} {cs body rest : List Char}
    (h : readQuoted q cs = (some body, rest)) : IsQuotedBody q body := by
  fun_induction readQuoted q cs generalizing body with
  | case1 => cases h
  | case2 => cases h
  | case3 c cs inner rest' hRead ih =>
    obtain ⟨hBody, rfl⟩ := Prod.mk.inj h
    obtain ⟨inner', rfl, rfl⟩ := Option.map_eq_some_iff.mp hBody
    have hInner := ih hRead
    unfold IsQuotedBody at hInner ⊢
    rw [unescaped]
    exact hInner
  | case4 cs =>
    obtain ⟨hBody, rfl⟩ := Prod.mk.inj h
    cases hBody
    exact fun _ hC => absurd hC List.not_mem_nil
  | case5 => cases h
  | case6 c cs hEnd hEscape hQuote hLine inner rest' hRead ih =>
    obtain ⟨hBody, rfl⟩ := Prod.mk.inj h
    obtain ⟨inner', rfl, rfl⟩ := Option.map_eq_some_iff.mp hBody
    have hPlain := ne_backslash hEnd hEscape
    intro d hD
    rw [unescaped_cons_of_ne hPlain] at hD
    rcases List.mem_cons.mp hD with rfl | hInner
    · exact ⟨hPlain, hLine, hQuote⟩
    · exact ih hRead d hInner

/-- A body that can stand between quotes is read up to the closing quote. -/
theorem readQuoted_append {q : Char} {body : List Char} (hQuote : q ≠ '\\')
    (h : IsQuotedBody q body) (rest : List Char) :
    readQuoted q (body ++ q :: rest) = (some body, rest) := by
  fun_induction unescaped body with
  | case1 =>
    exact readQuoted_cons_quote hQuote rest
  | case2 => exact absurd rfl (h '\\' List.mem_cons_self).1
  | case3 c cs ih =>
    have hInner := ih h
    rw [List.cons_append, List.cons_append, readQuoted, hInner]
    rfl
  | case4 c cs hEnd hEscape ih =>
    have hPlain := ne_backslash hEnd hEscape
    unfold IsQuotedBody at h ih
    rw [unescaped_cons_of_ne hPlain, List.forall_mem_cons] at h
    obtain ⟨⟨-, hLine, hNot⟩, hRest⟩ := h
    rw [List.cons_append, readQuoted_cons_of_ne hPlain hNot hLine, ih hRest]
    rfl

theorem ne_backslash_of_isQuote {q : Char} (h : isQuote q = true) : q ≠ '\\' := by
  rintro rfl
  revert h
  decide

end ExplicitModules.Source
