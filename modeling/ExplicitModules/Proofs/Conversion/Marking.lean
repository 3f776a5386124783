import ExplicitModules.Proofs.Conversion.Decisions
import ExplicitModules.Proofs.Source.Marks

/-!
# Replacements as marks

What a replacement writes differs from the literal by what it puts in at the closing quote: an
ending in front of it or a clause behind it.
-/
namespace ExplicitModules.Replacement
set_option autoImplicit false
open Source

def mark (r : Replacement) : Mark :=
  match r.form with
  | .json => .clause
  | form => .ending form.suffix.toList

theorem mark_eq_clause_iff (r : Replacement) : r.mark = .clause ↔ r.form = .json := by
  unfold mark
  cases r.form <;> simp

/-- Only paths to index files begin with a slash. -/
theorem form_of_mark_front {r : Replacement} (h : r.mark.front.head? = some '/') :
    r.form = .index ∨ r.form = .indexComponent := by
  unfold mark at h
  cases hCase : r.form with
  | index => exact Or.inl rfl
  | indexComponent => exact Or.inr rfl
  | json =>
    rw [hCase] at h
    cases h
  | module =>
    rw [hCase] at h
    exact absurd h (by decide)
  | component =>
    rw [hCase] at h
    exact absurd h (by decide)

theorem mark_behind (r : Replacement) (quote : Char) : r.mark.behind quote = r.clause quote := by
  unfold mark clause
  cases r.form with
  | json =>
    dsimp only [Mark.behind]
    unfold jsonClause
    rfl
  | _ => rfl

end ExplicitModules.Replacement
