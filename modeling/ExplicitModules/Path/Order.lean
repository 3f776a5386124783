import ExplicitModules.Path.Basic

/-!
# The order of paths

Paths are compared component by component: a root comes before a dot, a dot before two dots and
two dots before a name, and names compare by their characters. Paths with equal components are one
path in two spellings, of which an ordered list keeps the one it got first.
-/
namespace ExplicitModules.Path
set_option autoImplicit false

def Component.rank : Component → Nat
  | .root => 0
  | .current => 1
  | .parent => 2
  | .name _ => 3

def lexBefore {α : Type} [DecidableEq α] (before : α → α → Bool) : List α → List α → Bool
  | _, [] => false
  | [], _ :: _ => true
  | a :: as, b :: bs => if a = b then lexBefore before as bs else before a b

def charBefore (a b : Char) : Bool :=
  decide (a.toNat < b.toNat)

def Component.before : Component → Component → Bool
  | .name a, .name b => lexBefore charBefore a.toList b.toList
  | a, b => decide (a.rank < b.rank)

def before (p q : Path) : Bool :=
  lexBefore Component.before p.components q.components

def sameAs (p q : Path) : Bool :=
  p.components == q.components

@[simp] theorem sameAs_eq_true_iff (p q : Path) :
    p.sameAs q = true ↔ p.components = q.components := by
  simp [sameAs]

section Lex

variable {α : Type} [DecidableEq α] {before : α → α → Bool}

theorem lexBefore_irrefl (as : List α) : lexBefore before as as = false := by
  induction as with
  | nil => rfl
  | cons a as ih => simp [lexBefore, ih]

theorem lexBefore_trans (hIrrefl : ∀ a, before a a = false)
    (hTrans : ∀ a b c, before a b = true → before b c = true → before a c = true)
    {as bs cs : List α} (hAB : lexBefore before as bs = true)
    (hBC : lexBefore before bs cs = true) : lexBefore before as cs = true := by
  induction as generalizing bs cs with
  | nil =>
    cases cs with
    | nil => cases bs <;> simp [lexBefore] at hBC
    | cons c cs => rfl
  | cons a as ih =>
    cases bs with
    | nil => simp [lexBefore] at hAB
    | cons b bs =>
      cases cs with
      | nil => simp [lexBefore] at hBC
      | cons c cs =>
        simp only [lexBefore] at hAB hBC ⊢
        by_cases hab : a = b
        · subst hab
          rw [if_pos rfl] at hAB
          by_cases hac : a = c
          · subst hac
            rw [if_pos rfl] at hBC ⊢
            exact ih hAB hBC
          · rw [if_neg hac] at hBC ⊢
            exact hBC
        · rw [if_neg hab] at hAB
          by_cases hbc : b = c
          · subst hbc
            rw [if_neg hab]
            exact hAB
          · rw [if_neg hbc] at hBC
            have hac : a ≠ c := by
              rintro rfl
              have hLoop := hTrans a b a hAB hBC
              rw [hIrrefl] at hLoop
              cases hLoop
            rw [if_neg hac]
            exact hTrans a b c hAB hBC

theorem lexBefore_total (hTotal : ∀ a b, a ≠ b → before a b = true ∨ before b a = true)
    {as bs : List α} (h : as ≠ bs) :
    lexBefore before as bs = true ∨ lexBefore before bs as = true := by
  induction as generalizing bs with
  | nil =>
    cases bs with
    | nil => exact absurd rfl h
    | cons b bs => exact Or.inl rfl
  | cons a as ih =>
    cases bs with
    | nil => exact Or.inr rfl
    | cons b bs =>
      simp only [lexBefore]
      by_cases hab : a = b
      · subst hab
        rw [if_pos rfl, if_pos rfl]
        exact ih fun hTail => h (congrArg (a :: ·) hTail)
      · rw [if_neg hab, if_neg (Ne.symm hab)]
        exact hTotal a b hab

end Lex

theorem charBefore_irrefl (a : Char) : charBefore a a = false := by
  simp [charBefore]

theorem charBefore_trans (a b c : Char) (hAB : charBefore a b = true)
    (hBC : charBefore b c = true) : charBefore a c = true := by
  simp only [charBefore, decide_eq_true_eq] at hAB hBC ⊢
  omega

theorem charBefore_total (a b : Char) (h : a ≠ b) :
    charBefore a b = true ∨ charBefore b a = true := by
  simp only [charBefore, decide_eq_true_eq]
  have hNat : a.toNat ≠ b.toNat := fun hEq => h (Char.toNat_inj.mp hEq)
  omega

theorem Component.before_irrefl (a : Component) : a.before a = false := by
  cases a with
  | name n => exact lexBefore_irrefl n.toList
  | root => rfl
  | current => rfl
  | parent => rfl

theorem Component.before_trans (a b c : Component) (hAB : a.before b = true)
    (hBC : b.before c = true) : a.before c = true := by
  cases a <;> cases b <;> cases c <;> simp_all [Component.before, Component.rank]
  exact lexBefore_trans charBefore_irrefl charBefore_trans hAB hBC

theorem Component.before_total (a b : Component) (h : a ≠ b) :
    a.before b = true ∨ b.before a = true := by
  cases a with
  | name m =>
    cases b with
    | name n =>
      have hChars : m.toList ≠ n.toList := fun hEq => h (by rw [String.toList_inj.mp hEq])
      exact lexBefore_total charBefore_total hChars
    | root => exact Or.inr rfl
    | current => exact Or.inr rfl
    | parent => exact Or.inr rfl
  | root => cases b <;> simp_all [Component.before, Component.rank]
  | current => cases b <;> simp_all [Component.before, Component.rank]
  | parent => cases b <;> simp_all [Component.before, Component.rank]

theorem before_irrefl (p : Path) : p.before p = false :=
  lexBefore_irrefl p.components

theorem before_trans {p q r : Path} (hPQ : p.before q = true) (hQR : q.before r = true) :
    p.before r = true :=
  lexBefore_trans Component.before_irrefl Component.before_trans hPQ hQR

theorem before_or_before {p q : Path} (h : p.sameAs q = false) :
    p.before q = true ∨ q.before p = true := by
  have hNe : p.components ≠ q.components := by
    intro hEq
    rw [(sameAs_eq_true_iff p q).mpr hEq] at h
    cases h
  exact lexBefore_total Component.before_total hNe

/-- Puts `p`, whose components are `key`, at its place unless a spelling of it is there. -/
def insertAt (p : Path) (key : List Component) : List Path → List Path
  | [] => [p]
  | q :: rest =>
    let other := q.components
    if key == other then q :: rest
    else if lexBefore Component.before key other then p :: q :: rest
    else q :: insertAt p key rest

def insert (p : Path) (paths : List Path) : List Path :=
  insertAt p p.components paths

theorem insert_cons (p q : Path) (rest : List Path) :
    p.insert (q :: rest) =
      if p.sameAs q then q :: rest
      else if p.before q then p :: q :: rest
      else q :: p.insert rest := rfl

end ExplicitModules.Path
