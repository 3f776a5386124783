import ExplicitModules.Proofs.Glob.Below
import Mathlib.Data.List.Forall2

/-!
# Literal parts of patterns

Where a text holds no wildcard, or has its wildcards escaped, reading it gives one token for each
character, and the tokens stand for just these characters. So a pattern read from such a text matches
one path, and with everything below appended it matches what is below that path.
-/
namespace ExplicitModules.Glob
set_option autoImplicit false
open Project (everythingBelow)

structure Token.Spells (token : Token) (c : Char) : Prop where
  single : token.IsSingle
  accepts_iff : ∀ d, token.accepts d = true ↔ d = c

theorem Token.Spells.char (c : Char) : (Token.char c).Spells c where
  single := ⟨nofun, nofun⟩
  accepts_iff d := by simp [Token.accepts]

theorem Token.Spells.oneOf {c : Char} (h : c ≠ '/') : (Token.oneOf [⟨c, c⟩]).Spells c where
  single := ⟨nofun, nofun⟩
  accepts_iff d := by
    simp only [Token.accepts, CharRange.contains, List.any_cons, List.any_nil, Bool.or_false,
      Bool.and_eq_true, bne_iff_ne, decide_eq_true_eq]
    constructor
    · rintro ⟨-, hLow, hHigh⟩
      exact Char.toNat_inj.mp (Nat.le_antisymm hHigh hLow)
    · rintro rfl
      exact ⟨h, Nat.le_refl _, Nat.le_refl _⟩

/-- Tokens that spell a text one by one accept it, and the rest of the pattern what is behind it. -/
theorem Pattern.accepts_spelled {tokens rest : Pattern} {cs text : List Char}
    (h : List.Forall₂ Token.Spells tokens cs) :
    Pattern.accepts (tokens ++ rest) text = true ↔
      ∃ tail, text = cs ++ tail ∧ rest.accepts tail = true := by
  induction h generalizing text with
  | nil => simp
  | cons hToken hRest ih =>
    rw [List.cons_append, Pattern.accepts_single hToken.single]
    simp only [hToken.accepts_iff, ih]
    constructor
    · rintro ⟨c, tail, rfl, rfl, behind, rfl, hAccepts⟩
      exact ⟨behind, rfl, hAccepts⟩
    · rintro ⟨tail, rfl, hAccepts⟩
      exact ⟨_, _, rfl, rfl, tail, rfl, hAccepts⟩

/-- Wherever `text` stands in a pattern, reading it gives tokens that spell `cs`. -/
def ReadsAs (text cs : List Char) : Prop :=
  ∃ tokens, List.Forall₂ Token.Spells tokens cs ∧ ∀ previous rest,
    readTokens? previous (text ++ rest) =
      (readTokens? (text.getLast?.or previous) rest).map (tokens ++ ·)

namespace ReadsAs

theorem nil : ReadsAs [] [] :=
  ⟨[], .nil, fun previous rest => by simp⟩

theorem append {text cs text' cs' : List Char} (h : ReadsAs text cs) (h' : ReadsAs text' cs') :
    ReadsAs (text ++ text') (cs ++ cs') := by
  obtain ⟨tokens, hSpells, hRead⟩ := h
  obtain ⟨tokens', hSpells', hRead'⟩ := h'
  refine ⟨tokens ++ tokens', List.rel_append hSpells hSpells', fun previous rest => ?_⟩
  rw [List.append_assoc, hRead, hRead', Option.map_map, List.getLast?_append, Option.or_assoc]
  congr 1
  funext pattern
  simp

theorem single {c : Char} (h : isWildcard c = false) : ReadsAs [c] [c] :=
  ⟨[.char c], .cons (.char c) .nil, fun previous rest => readTokens?_char previous rest h⟩

theorem bracketed {c : Char} (h : isWildcard c = true ∨ c = ']') : ReadsAs ['[', c, ']'] [c] := by
  have hMark : c ≠ '!' := by
    rintro rfl
    rcases h with hWild | hClose
    · cases hWild
    · cases hClose
  have hSlash : c ≠ '/' := by
    rintro rfl
    rcases h with hWild | hClose
    · cases hWild
    · cases hClose
  refine ⟨[.oneOf [⟨c, c⟩]], .cons (.oneOf hSlash) .nil, fun previous rest => ?_⟩
  rw [List.cons_append, List.cons_append, readTokens?_oneOf previous _ hMark]
  rfl

theorem of_plain {text : List Char} (h : ∀ c ∈ text, isWildcard c = false) : ReadsAs text text := by
  induction text with
  | nil => exact nil
  | cons c text ih =>
    rw [List.forall_mem_cons] at h
    exact (single h.1).append (ih h.2)

theorem escape (text : List Char) : ReadsAs (escape text) text := by
  induction text with
  | nil => exact nil
  | cons c text ih =>
    have hFirst : ReadsAs (if isWildcard c || c == ']' then ['[', c, ']'] else [c]) [c] := by
      split
      · rename_i hSpecial
        exact bracketed (by simpa using hSpecial)
      · rename_i hSpecial
        exact single (by simp_all)
    exact hFirst.append ih

variable {text cs : List Char}

theorem exists_pattern (h : ReadsAs text cs) : ∃ pattern, Pattern.ofText? text = some pattern ∧
    ∀ p, pattern.accepts p = true ↔ p = cs := by
  obtain ⟨tokens, hSpells, hRead⟩ := h
  have hWhole := hRead none []
  rw [List.append_nil, readTokens?, Option.map_some] at hWhole
  refine ⟨tokens ++ [], hWhole, fun p => ?_⟩
  rw [Pattern.accepts_spelled hSpells]
  simp

/-- What is read from the text with a slash and more behind it accepts only paths below. -/
theorem below_of_accepts (h : ReadsAs text cs) {more p : List Char} {pattern : Pattern}
    (hPattern : Pattern.ofText? (text ++ '/' :: more) = some pattern)
    (hAccepts : pattern.accepts p = true) : ∃ rest, p = cs ++ '/' :: rest := by
  obtain ⟨tokens, hSpells, hRead⟩ := h.append (single (c := '/') rfl)
  rw [Pattern.ofText?, ← List.singleton_append, ← List.append_assoc, hRead,
    Option.map_eq_some_iff] at hPattern
  obtain ⟨rest, -, rfl⟩ := hPattern
  obtain ⟨tail, rfl, -⟩ := (Pattern.accepts_spelled hSpells).mp hAccepts
  exact ⟨tail, by simp⟩

/-- With everything below appended the text is a pattern for all paths below. -/
theorem exists_below (h : ReadsAs text cs) :
    ∃ pattern, Pattern.ofText? (text ++ everythingBelow) = some pattern ∧
      ∀ p, pattern.accepts p = true ↔ ∃ rest, p = cs ++ '/' :: rest := by
  obtain ⟨tokens, hSpells, hRead⟩ := h.append (single (c := '/') rfl)
  have hStars : readTokens? (some '/') ['*', '*', '/', '*'] = some [.directories, .anyName] := by
    simp [readTokens?, startsSegment]
  have hWhole := hRead none ['*', '*', '/', '*']
  rw [List.getLast?_concat, Option.some_or, hStars, Option.map_some] at hWhole
  refine ⟨tokens ++ [.directories, .anyName], ?_, fun p => ?_⟩
  · rw [Pattern.ofText?, ← hWhole, everythingBelow_eq, List.append_assoc, List.singleton_append]
  · rw [Pattern.accepts_spelled hSpells]
    constructor
    · rintro ⟨tail, rfl, -⟩
      exact ⟨tail, by simp⟩
    · rintro ⟨rest, rfl⟩
      exact ⟨rest, by simp, Pattern.accepts_everything rest⟩

end ReadsAs
end ExplicitModules.Glob
