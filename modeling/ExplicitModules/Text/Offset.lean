/-!
# Byte offsets in a text

A text is a list of characters and an offset counts the bytes of its UTF-8 form. Cutting at an
offset fails exactly when it lies inside a character or behind the end.
-/
namespace ExplicitModules.Text
set_option autoImplicit false

def utf8Length : List Char → Nat
  | [] => 0
  | c :: cs => c.utf8Size + utf8Length cs

@[simp] theorem utf8Length_nil : utf8Length [] = 0 := rfl

@[simp] theorem utf8Length_cons (c : Char) (cs : List Char) :
    utf8Length (c :: cs) = c.utf8Size + utf8Length cs := rfl

@[simp] theorem utf8Length_append (as bs : List Char) :
    utf8Length (as ++ bs) = utf8Length as + utf8Length bs := by
  induction as with
  | nil => simp
  | cons c cs ih => simp [ih, Nat.add_assoc]

theorem length_le_utf8Length (cs : List Char) : cs.length ≤ utf8Length cs := by
  induction cs with
  | nil => simp
  | cons c cs ih =>
    have hPos := c.utf8Size_pos
    simp only [List.length_cons, utf8Length_cons]
    omega

/-- Of two beginnings of a text the one with fewer bytes is a beginning of the other. -/
theorem prefix_of_utf8Length_le {front front' text : List Char} (h : front <+: text)
    (h' : front' <+: text) (hLe : utf8Length front ≤ utf8Length front') : front <+: front' := by
  rcases List.prefix_or_prefix_of_prefix h h' with hPrefix | ⟨more, rfl⟩
  · exact hPrefix
  · have hLength := length_le_utf8Length more
    rw [utf8Length_append] at hLe
    obtain rfl := List.length_eq_zero_iff.mp (show more.length = 0 by omega)
    simp

def splitAtByte : List Char → Nat → Option (List Char × List Char)
  | cs, 0 => some ([], cs)
  | [], _ + 1 => none
  | c :: cs, n + 1 =>
    if c.utf8Size ≤ n + 1 then
      (splitAtByte cs (n + 1 - c.utf8Size)).map fun parts => (c :: parts.1, parts.2)
    else none

theorem splitAtByte_eq_some_iff (cs as bs : List Char) (n : Nat) :
    splitAtByte cs n = some (as, bs) ↔ cs = as ++ bs ∧ utf8Length as = n := by
  induction cs generalizing n as with
  | nil =>
    cases n with
    | zero => cases as <;> cases bs <;> simp [splitAtByte]
    | succ n => cases as <;> simp [splitAtByte]
  | cons c cs ih =>
    have hPos := c.utf8Size_pos
    cases n with
    | zero =>
      cases as with
      | nil => simp [splitAtByte, eq_comm]
      | cons a as =>
        have hA := a.utf8Size_pos
        simp only [splitAtByte, Option.some.injEq, Prod.mk.injEq, utf8Length_cons]
        constructor
        · rintro ⟨h, -⟩
          cases h
        · rintro ⟨-, h⟩
          omega
    | succ n =>
      simp only [splitAtByte]
      split
      · rename_i hFits
        simp only [Option.map_eq_some_iff, Prod.exists, Prod.mk.injEq]
        constructor
        · rintro ⟨as', bs', h, rfl, rfl⟩
          obtain ⟨rfl, hLen⟩ := (ih as' _).mp h
          simp only [List.cons_append, utf8Length_cons, true_and]
          omega
        · rintro ⟨h, hLen⟩
          cases as with
          | nil => simp at hLen
          | cons a as =>
            simp only [List.cons_append, List.cons.injEq] at h
            obtain ⟨rfl, rfl⟩ := h
            simp only [utf8Length_cons] at hLen
            exact ⟨as, bs, (ih as _).mpr ⟨rfl, by omega⟩, rfl, rfl⟩
      · rename_i hFits
        constructor
        · intro h
          cases h
        · rintro ⟨h, hLen⟩
          cases as with
          | nil => simp at hLen
          | cons a as =>
            simp only [List.cons_append, List.cons.injEq] at h
            obtain ⟨rfl, rfl⟩ := h
            simp only [utf8Length_cons] at hLen
            omega

def before (text rest : List Char) : List Char :=
  text.take (text.length - rest.length)

@[simp] theorem before_append (as rest : List Char) : before (as ++ rest) rest = as := by
  simp [before]

@[simp] theorem before_self (text : List Char) : before text text = [] :=
  before_append [] text

end ExplicitModules.Text
