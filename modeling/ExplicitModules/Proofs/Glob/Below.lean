import ExplicitModules.Glob.Matching
import ExplicitModules.Project.Files
import Mathlib.Data.List.TakeWhile

/-!
# Patterns for everything below

A text that matches a pattern has everything below it matched: by the pattern itself, if that ends in
directories, and otherwise by the pattern with everything below appended, which is well formed if the
pattern is.
-/
namespace ExplicitModules.Glob
set_option autoImplicit false
open Project (everythingBelow)

theorem mem_nameTails_iff {tail cs : List Char} :
    tail ∈ nameTails cs ↔ ∃ front, cs = front ++ tail ∧ '/' ∉ front := by
  induction cs with
  | nil =>
    rw [nameTails, List.mem_singleton]
    constructor
    · rintro rfl
      exact ⟨[], rfl, List.not_mem_nil⟩
    · rintro ⟨front, hEmpty, -⟩
      exact (List.append_eq_nil_iff.mp hEmpty.symm).2
  | cons c cs ih =>
    rw [nameTails, List.mem_cons]
    constructor
    · rintro (rfl | hLater)
      · exact ⟨[], rfl, List.not_mem_nil⟩
      · split at hLater
        · cases hLater
        · rename_i hSlash
          obtain ⟨front, rfl, hFront⟩ := ih.mp hLater
          exact ⟨c :: front, rfl, by simp [Ne.symm hSlash, hFront]⟩
    · rintro ⟨front, hText, hFront⟩
      cases front with
      | nil => exact Or.inl hText.symm
      | cons first front =>
        obtain ⟨rfl, rfl⟩ := List.cons.inj hText
        rw [List.mem_cons, not_or] at hFront
        rw [if_neg (Ne.symm hFront.1)]
        exact Or.inr (ih.mpr ⟨front, rfl, hFront.2⟩)

theorem mem_slashTails_iff {tail cs : List Char} :
    tail ∈ slashTails cs ↔ tail = [] ∨ ∃ front, cs = front ++ '/' :: tail := by
  induction cs with
  | nil => simp [slashTails]
  | cons c cs ih =>
    have hBehind : (∃ front, c :: cs = front ++ '/' :: tail) ↔
        (c = '/' ∧ tail = cs) ∨ ∃ front, cs = front ++ '/' :: tail := by
      constructor
      · rintro ⟨front, hText⟩
        cases front with
        | nil =>
          obtain ⟨rfl, rfl⟩ := List.cons.inj hText
          exact Or.inl ⟨rfl, rfl⟩
        | cons first front => exact Or.inr ⟨front, (List.cons.inj hText).2⟩
      · rintro (⟨rfl, rfl⟩ | ⟨front, rfl⟩)
        · exact ⟨[], rfl⟩
        · exact ⟨c :: front, rfl⟩
    rw [slashTails, hBehind]
    split
    · rename_i hSlash
      rw [List.mem_cons, ih]
      simp only [hSlash, true_and]
      exact or_left_comm
    · rename_i hSlash
      rw [ih]
      simp only [hSlash, false_and, false_or]

def Token.IsSingle (token : Token) : Prop :=
  token ≠ .anyName ∧ token ≠ .directories

namespace Pattern

variable {pattern : Pattern} {token : Token} {cs : List Char}

@[simp] theorem accepts_nil : Pattern.accepts [] cs = true ↔ cs = [] := by
  simp [accepts]

theorem accepts_anyName : Pattern.accepts (.anyName :: pattern) cs = true ↔
    ∃ front tail, cs = front ++ tail ∧ '/' ∉ front ∧ pattern.accepts tail = true := by
  rw [accepts, List.any_eq_true]
  constructor
  · rintro ⟨tail, hTail, hAccepts⟩
    obtain ⟨front, hText, hFront⟩ := mem_nameTails_iff.mp hTail
    exact ⟨front, tail, hText, hFront, hAccepts⟩
  · rintro ⟨front, tail, hText, hFront, hAccepts⟩
    exact ⟨tail, mem_nameTails_iff.mpr ⟨front, hText, hFront⟩, hAccepts⟩

theorem accepts_directories : Pattern.accepts (.directories :: pattern) cs = true ↔
    pattern.accepts cs = true ∨ pattern.accepts [] = true ∨
      ∃ front tail, cs = front ++ '/' :: tail ∧ pattern.accepts tail = true := by
  rw [accepts, List.any_eq_true]
  constructor
  · rintro ⟨tail, hTail, hAccepts⟩
    rcases List.mem_cons.mp hTail with rfl | hBehind
    · exact Or.inl hAccepts
    · rcases mem_slashTails_iff.mp hBehind with rfl | ⟨front, hText⟩
      · exact Or.inr (Or.inl hAccepts)
      · exact Or.inr (Or.inr ⟨front, tail, hText, hAccepts⟩)
  · rintro (hAccepts | hAccepts | ⟨front, tail, hText, hAccepts⟩)
    · exact ⟨cs, List.mem_cons_self, hAccepts⟩
    · exact ⟨[], List.mem_cons_of_mem _ (mem_slashTails_iff.mpr (Or.inl rfl)), hAccepts⟩
    · exact ⟨tail, List.mem_cons_of_mem _ (mem_slashTails_iff.mpr (Or.inr ⟨front, hText⟩)), hAccepts⟩

theorem accepts_single (hToken : token.IsSingle) : Pattern.accepts (token :: pattern) cs = true ↔
    ∃ c tail, cs = c :: tail ∧ token.accepts c = true ∧ pattern.accepts tail = true := by
  cases cs with
  | nil =>
    refine iff_of_false ?_ nofun
    cases token with
    | anyName => exact absurd rfl hToken.1
    | directories => exact absurd rfl hToken.2
    | _ => simp [accepts]
  | cons c tail =>
    cases token with
    | anyName => exact absurd rfl hToken.1
    | directories => exact absurd rfl hToken.2
    | _ => simp [accepts, and_assoc]

theorem exists_lastName (cs : List Char) :
    '/' ∉ cs ∨ ∃ front name, cs = front ++ '/' :: name ∧ '/' ∉ name := by
  induction cs with
  | nil => exact Or.inl nofun
  | cons c cs ih =>
    rcases ih with hPlain | ⟨front, name, rfl, hName⟩
    · by_cases hSlash : c = '/'
      · subst hSlash
        exact Or.inr ⟨[], cs, rfl, hPlain⟩
      · exact Or.inl (by simp [Ne.symm hSlash, hPlain])
    · exact Or.inr ⟨c :: front, name, rfl, hName⟩

theorem accepts_everything (cs : List Char) :
    Pattern.accepts [.directories, .anyName] cs = true := by
  have hName : ∀ name : List Char, '/' ∉ name → Pattern.accepts [.anyName] name = true := by
    intro name hSlash
    exact accepts_anyName.mpr ⟨name, [], (List.append_nil name).symm, hSlash, rfl⟩
  rw [accepts_directories]
  rcases exists_lastName cs with hPlain | ⟨front, name, hText, hPlain⟩
  · exact Or.inl (hName cs hPlain)
  · exact Or.inr (Or.inr ⟨front, name, hText, hName name hPlain⟩)

/-- A pattern whose end stands for every text accepts whatever is put behind what it accepts. -/
theorem accepts_append_of_end {last : Pattern} (hLast : ∀ cs, last.accepts cs = true)
    (more : List Char) (h : (pattern ++ last).accepts cs = true) :
    (pattern ++ last).accepts (cs ++ more) = true := by
  induction pattern generalizing cs with
  | nil => exact hLast _
  | cons token pattern ih =>
    rw [List.cons_append] at h ⊢
    by_cases hName : token = .anyName
    · subst hName
      obtain ⟨front, tail, rfl, hFront, hTail⟩ := accepts_anyName.mp h
      exact accepts_anyName.mpr ⟨front, tail ++ more, List.append_assoc .., hFront, ih hTail⟩
    · by_cases hDirectories : token = .directories
      · subst hDirectories
        rw [accepts_directories] at h ⊢
        rcases h with hAll | hNone | ⟨front, tail, rfl, hTail⟩
        · exact Or.inl (ih hAll)
        · exact Or.inr (Or.inl hNone)
        · exact Or.inr (Or.inr ⟨front, tail ++ more, by simp, ih hTail⟩)
      · have hSingle : token.IsSingle := ⟨hName, hDirectories⟩
        obtain ⟨c, tail, rfl, hChar, hTail⟩ := (accepts_single hSingle).mp h
        exact (accepts_single hSingle).mpr ⟨c, tail ++ more, rfl, hChar, ih hTail⟩

/-- A pattern that does not end in directories accepts a name if it accepts nothing at all. -/
theorem accepts_name_of_accepts_nil {name : List Char} (hSome : pattern ≠ [])
    (hLast : pattern.getLast? ≠ some .directories) (hName : '/' ∉ name)
    (h : pattern.accepts [] = true) : pattern.accepts name = true := by
  induction pattern with
  | nil => exact absurd rfl hSome
  | cons token pattern ih =>
    have hRest : pattern ≠ [] → Pattern.accepts pattern [] = true →
        Pattern.accepts pattern name = true := by
      intro hNe
      refine ih hNe ?_
      rwa [List.getLast?_cons_of_ne_nil hNe] at hLast
    by_cases hAny : token = .anyName
    · subst hAny
      rw [accepts_anyName] at h ⊢
      obtain ⟨front, tail, hText, -, hTail⟩ := h
      obtain ⟨-, rfl⟩ := List.append_eq_nil_iff.mp hText.symm
      by_cases hNil : pattern = []
      · exact ⟨name, [], (List.append_nil name).symm, hName, hTail⟩
      · exact ⟨[], name, rfl, nofun, hRest hNil hTail⟩
    · by_cases hDirectories : token = .directories
      · subst hDirectories
        have hNil : pattern ≠ [] := by
          rintro rfl
          exact hLast rfl
        rw [accepts_directories] at h ⊢
        rcases h with hTail | hTail | ⟨front, tail, hText, -⟩
        · exact Or.inl (hRest hNil hTail)
        · exact Or.inl (hRest hNil hTail)
        · simp at hText
      · obtain ⟨c, tail, hText, -⟩ := (accepts_single ⟨hAny, hDirectories⟩).mp h
        cases hText

def below : Pattern := [.char '/', .directories, .anyName]

/-- What is below an accepted text is accepted by the pattern with `below` appended. -/
theorem accepts_append_below (hLast : pattern.getLast? ≠ some .directories) (rest : List Char)
    (h : pattern.accepts cs = true) : (pattern ++ below).accepts (cs ++ '/' :: rest) = true := by
  induction pattern generalizing cs with
  | nil =>
    obtain rfl := accepts_nil.mp h
    have hSlash : (Token.char '/').IsSingle := ⟨nofun, nofun⟩
    exact (accepts_single hSlash).mpr ⟨'/', rest, rfl, rfl, accepts_everything rest⟩
  | cons token pattern ih =>
    have hLater : pattern.getLast? ≠ some .directories := by
      by_cases hNil : pattern = []
      · rw [hNil]
        exact nofun
      · rwa [List.getLast?_cons_of_ne_nil hNil] at hLast
    rw [List.cons_append]
    by_cases hName : token = .anyName
    · subst hName
      obtain ⟨front, tail, rfl, hFront, hTail⟩ := accepts_anyName.mp h
      exact accepts_anyName.mpr
        ⟨front, tail ++ '/' :: rest, List.append_assoc .., hFront, ih hLater hTail⟩
    · by_cases hDirectories : token = .directories
      · subst hDirectories
        have hNil : pattern ≠ [] := by
          rintro rfl
          exact hLast rfl
        rw [accepts_directories] at h ⊢
        rcases h with hAll | hNone | ⟨front, tail, rfl, hTail⟩
        · exact Or.inl (ih hLater hAll)
        · -- what accepts nothing accepts the last name of the text
          rcases exists_lastName cs with hPlain | ⟨front, name, rfl, hPlain⟩
          · exact Or.inl (ih hLater (accepts_name_of_accepts_nil hNil hLater hPlain hNone))
          · exact Or.inr (Or.inr ⟨front, name ++ '/' :: rest, by simp,
              ih hLater (accepts_name_of_accepts_nil hNil hLater hPlain hNone)⟩)
        · exact Or.inr (Or.inr ⟨front, tail ++ '/' :: rest, by simp, ih hLater hTail⟩)
      · have hSingle : token.IsSingle := ⟨hName, hDirectories⟩
        obtain ⟨c, tail, rfl, hChar, hTail⟩ := (accepts_single hSingle).mp h
        exact (accepts_single hSingle).mpr ⟨c, tail ++ '/' :: rest, rfl, hChar, ih hLater hTail⟩

end Pattern

/-- What is read from a text, and from that text with everything below it appended. Two stars at the
end of the text take in the slash that is put behind them. -/
inductive ReadsBelow : Option Pattern → Option Pattern → Prop
  | malformed : ReadsBelow none none
  | slash (pattern : Pattern) : ReadsBelow (some pattern) (some (pattern ++ Pattern.below))
  | directories (pattern : Pattern) : ReadsBelow (some (pattern ++ [.directories]))
      (some (pattern ++ [.directories] ++ [.directories, .anyName]))

theorem ReadsBelow.map_cons {a b : Option Pattern} (h : ReadsBelow a b) (token : Token) :
    ReadsBelow (a.map (token :: ·)) (b.map (token :: ·)) := by
  cases h with
  | malformed => exact .malformed
  | slash pattern => exact .slash (token :: pattern)
  | directories pattern => exact .directories (token :: pattern)

theorem everythingBelow_eq : everythingBelow = ['/', '*', '*', '/', '*'] := by decide

theorem readTokens?_star (previous : Option Char) {cs : List Char} (h : cs.head? ≠ some '*') :
    readTokens? previous ('*' :: cs) = (readTokens? (some '*') cs).map (.anyName :: ·) := by
  cases cs with
  | nil => simp [readTokens?]
  | cons c cs =>
    have hStar : c ≠ '*' := fun hEq => h (congrArg some hEq)
    rw [readTokens?] <;> simp [hStar]

theorem readTokens?_char (previous : Option Char) {c : Char} (cs : List Char)
    (h : isWildcard c = false) :
    readTokens? previous (c :: cs) = (readTokens? (some c) cs).map (.char c :: ·) := by
  simp only [isWildcard, Bool.or_eq_false_iff, beq_eq_false_iff_ne] at h
  rw [readTokens?] <;> simp [h.1.1, h.1.2, h.2]

theorem readTokens?_stars (previous : Option Char) {c : Char} (cs : List Char) (hStar : c ≠ '*')
    (hSlash : c ≠ '/') : readTokens? previous ('*' :: '*' :: c :: cs) = none := by
  rw [readTokens?] <;> simp [hStar, hSlash]

theorem readTokens?_noneOf (previous : Option Char) (first : Char) (cs : List Char) :
    readTokens? previous ('[' :: '!' :: first :: cs) = (readClass? first cs).bind fun found =>
      (readTokens? (some ']') found.2).map (.noneOf found.1 :: ·) := by
  rw [readTokens?]
  split
  · rename_i hClass
    rw [hClass]
    rfl
  · rename_i hClass
    rw [hClass]
    rfl

theorem readTokens?_oneOf (previous : Option Char) {first : Char} (cs : List Char)
    (h : first ≠ '!') :
    readTokens? previous ('[' :: first :: cs) = (readClass? first cs).bind fun found =>
      (readTokens? (some ']') found.2).map (.oneOf found.1 :: ·) := by
  rw [readTokens?]
  · split
    · rename_i hClass
      rw [hClass]
      rfl
    · rename_i hClass
      rw [hClass]
      rfl
  · exact fun _ _ hFirst => absurd hFirst h
  · exact fun hFirst => absurd hFirst h

theorem ne_mark_of_not {first : Char} {cs : List Char}
    (hNot : ∀ next rest, first = '!' → cs = next :: rest → False)
    (hNil : first = '!' → cs = [] → False) : first ≠ '!' := by
  intro hMark
  cases cs with
  | nil => exact hNil hMark rfl
  | cons next rest => exact hNot next rest hMark rfl

theorem readClass?_append (first : Char) (cs : List Char) {more : List Char} (h : ']' ∉ more) :
    readClass? first (cs ++ more) =
      (readClass? first cs).map fun found => (found.1, found.2 ++ more) := by
  unfold readClass?
  cases hDrop : cs.dropWhile (· != ']') with
  | nil =>
    have hMore : more.dropWhile (· != ']') = [] := by
      rw [List.dropWhile_eq_nil_iff]
      intro c hC
      rw [bne_iff_ne]
      rintro rfl
      exact h hC
    rw [List.dropWhile_append, hDrop, List.isEmpty_nil, if_pos rfl, hMore]
    rfl
  | cons c rest =>
    have hTake : (cs ++ more).takeWhile (· != ']') = cs.takeWhile (· != ']') := by
      rw [List.takeWhile_append, if_neg]
      intro hLength
      have hSplit := congrArg List.length
        (List.takeWhile_append_dropWhile (p := (· != ']')) (l := cs))
      rw [hDrop, List.length_append, List.length_cons] at hSplit
      omega
    rw [List.dropWhile_append, hDrop, List.isEmpty_cons, if_neg Bool.false_ne_true, hTake]
    rfl

/-- Appending everything below a text keeps what is read from the text. -/
theorem readTokens?_append_below (previous : Option Char) (cs : List Char) :
    ReadsBelow (readTokens? previous cs) (readTokens? previous (cs ++ everythingBelow)) := by
  have hClassEnd : ']' ∉ everythingBelow := by decide
  induction previous, cs using readTokens?.induct with
  | case1 previous =>
    -- at the end a segment begins, so the stars that are put there stand for directories
    rw [readTokens?, List.nil_append, everythingBelow_eq, readTokens?_char previous _ rfl]
    have hRead : readTokens? (some '/') ['*', '*', '/', '*'] = some [.directories, .anyName] := by
      simp [readTokens?, startsSegment]
    rw [hRead]
    exact .slash []
  | case2 previous tail =>
    simp only [List.cons_append, readTokens?]
    exact .malformed
  | case3 previous cs hStart ih =>
    simp only [List.cons_append, readTokens?, if_pos hStart]
    exact ih.map_cons .directories
  | case4 previous cs hStart =>
    simp only [List.cons_append, readTokens?, if_neg hStart]
    exact .malformed
  | case5 previous hStart =>
    -- two stars at the end take in the slash that is put behind them
    have hRead : readTokens? (some '/') ['*', '*', '/', '*'] = some [.directories, .anyName] := by
      simp [readTokens?, startsSegment]
    have hStars : readTokens? previous ['*', '*'] = some [.directories] := by
      rw [readTokens?, if_pos hStart]
    have hMore : readTokens? previous ['*', '*', '/', '*', '*', '/', '*'] =
        some [.directories, .directories, .anyName] := by
      rw [readTokens?, if_pos hStart, hRead]
      rfl
    rw [hStars, everythingBelow_eq]
    exact hMore ▸ .directories []
  | case6 previous hStart =>
    have hStars : readTokens? previous ['*', '*'] = none := by rw [readTokens?, if_neg hStart]
    have hMore : readTokens? previous ['*', '*', '/', '*', '*', '/', '*'] = none := by
      rw [readTokens?, if_neg hStart]
    rw [hStars, everythingBelow_eq]
    exact hMore ▸ .malformed
  | case7 previous tail hStar hSlash hNil =>
    cases tail with
    | nil => exact (hNil rfl).elim
    | cons c tail =>
      have hC : c ≠ '*' := fun hEq => hStar tail (congrArg (· :: tail) hEq)
      have hC' : c ≠ '/' := fun hEq => hSlash tail (congrArg (· :: tail) hEq)
      rw [List.cons_append, List.cons_append, List.cons_append, readTokens?_stars previous _ hC hC',
        readTokens?_stars previous _ hC hC']
      exact .malformed
  | case8 previous first cs hClass =>
    have hMore := readClass?_append first cs hClassEnd
    rw [List.cons_append, List.cons_append, List.cons_append, readTokens?_noneOf,
      readTokens?_noneOf, hMore, hClass]
    exact .malformed
  | case9 previous first cs ranges rest hClass ih =>
    have hMore := readClass?_append first cs hClassEnd
    rw [List.cons_append, List.cons_append, List.cons_append, readTokens?_noneOf,
      readTokens?_noneOf, hMore, hClass]
    exact ih.map_cons (.noneOf ranges)
  | case10 previous =>
    have hMore : readTokens? previous ['[', '!', '/', '*', '*', '/', '*'] = none := by
      rw [readTokens?_noneOf]
      rfl
    rw [readTokens?, everythingBelow_eq]
    exact hMore ▸ .malformed
  | case11 previous first cs hNot hNil hClass =>
    have hFirst := ne_mark_of_not hNot hNil
    have hMore := readClass?_append first cs hClassEnd
    rw [List.cons_append, List.cons_append, readTokens?_oneOf previous _ hFirst,
      readTokens?_oneOf previous _ hFirst, hMore, hClass]
    exact .malformed
  | case12 previous first cs hNot hNil ranges rest hClass ih =>
    have hFirst := ne_mark_of_not hNot hNil
    have hMore := readClass?_append first cs hClassEnd
    rw [List.cons_append, List.cons_append, readTokens?_oneOf previous _ hFirst,
      readTokens?_oneOf previous _ hFirst, hMore, hClass]
    exact ih.map_cons (.oneOf ranges)
  | case13 previous =>
    have hMore : readTokens? previous ['[', '/', '*', '*', '/', '*'] = none := by
      rw [readTokens?_oneOf previous _ (by decide)]
      rfl
    rw [readTokens?, everythingBelow_eq]
    exact hMore ▸ .malformed
  | case14 previous cs ih =>
    simp only [List.cons_append, readTokens?]
    exact ih.map_cons .anyChar
  | case15 previous cs _ _ _ hStar ih =>
    have hHead : cs.head? ≠ some '*' ∧ (cs ++ everythingBelow).head? ≠ some '*' := by
      cases cs with
      | nil => decide
      | cons c cs =>
        have hC : some c ≠ some '*' := fun hEq =>
          hStar cs (congrArg (· :: cs) (Option.some.inj hEq))
        exact ⟨hC, hC⟩
    rw [List.cons_append, readTokens?_star previous hHead.1, readTokens?_star previous hHead.2]
    exact ih.map_cons .anyName
  | case16 previous c cs _ _ _ _ _ _ hClass hBracket hMark hStar ih =>
    have hPlain : isWildcard c = false := by
      have hOpen : c ≠ '[' := by
        intro hEq
        cases cs with
        | nil => exact hBracket hEq rfl
        | cons first cs => exact hClass first cs hEq rfl
      simp [isWildcard, hOpen, show c ≠ '?' from hMark, show c ≠ '*' from hStar]
    rw [List.cons_append, readTokens?_char previous _ hPlain, readTokens?_char previous _ hPlain]
    exact ih.map_cons (.char c)

namespace Pattern

variable {text cs : List Char} {pattern : Pattern}

/-- What is below an accepted text is accepted, if not by the pattern itself then by the one for
everything below it. -/
theorem accepts_below (hRead : ofText? text = some pattern) (h : pattern.accepts cs = true)
    (rest : List Char) : pattern.accepts (cs ++ '/' :: rest) = true ∨
      ∃ wider, ofText? (text ++ everythingBelow) = some wider ∧
        wider.accepts (cs ++ '/' :: rest) = true := by
  have hBelow := readTokens?_append_below none text
  unfold ofText? at hRead ⊢
  rw [hRead] at hBelow
  have hAll : ∀ cs, Pattern.accepts [.directories] cs = true :=
    fun cs => accepts_directories.mpr (Or.inr (Or.inl rfl))
  generalize hMore : readTokens? none (text ++ everythingBelow) = more at hBelow
  cases hBelow with
  | slash =>
    by_cases hLast : pattern.getLast? = some .directories
    · obtain ⟨front, rfl⟩ := List.getLast?_eq_some_iff.mp hLast
      exact Or.inl (accepts_append_of_end hAll _ h)
    · exact Or.inr ⟨_, rfl, accepts_append_below hLast rest h⟩
  | directories front => exact Or.inl (accepts_append_of_end hAll _ h)

/-- A pattern for everything below accepts whatever is put behind what it accepts. -/
theorem accepts_append_of_everythingBelow (hRead : ofText? (text ++ everythingBelow) = some pattern)
    (h : pattern.accepts cs = true) (more : List Char) : pattern.accepts (cs ++ more) = true := by
  have hBelow := readTokens?_append_below none text
  unfold ofText? at hRead
  rw [hRead] at hBelow
  generalize readTokens? none text = found at hBelow
  cases hBelow with
  | slash front =>
    have hSplit : front ++ below = front ++ [.char '/'] ++ [.directories, .anyName] := by
      simp [below]
    rw [hSplit] at h ⊢
    exact accepts_append_of_end accepts_everything more h
  | directories front => exact accepts_append_of_end accepts_everything more h

end Pattern
end ExplicitModules.Glob
