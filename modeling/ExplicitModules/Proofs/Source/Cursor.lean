import ExplicitModules.Proofs.Source.Bytes
import ExplicitModules.Proofs.Source.Spans

/-!
# Reading with a cursor

The readers as a cursor follows them, which stands at the number of a byte and can be moved anywhere.
An index behind the last byte is a failure here, and so is a loop that goes on for more rounds than
there are bytes. A template calls the reader of blocks and a block the reader of templates, where the
readers of endings keep a list of what is open.

No failure occurs, and the cursor comes to where the ending begins that the reader of endings gives.
-/
namespace ExplicitModules.Source
set_option autoImplicit false
open Text

namespace Cursor

/-- The rounds that a loop over all bytes may take, the last of them at the end. -/
def rounds (src : List Char) : Nat :=
  src.length + 1

section Readers

variable (src : List Char)

def skipWhile (p : Char → Bool) : (rounds pos : Nat) → Option Nat
  | 0, _ => none
  | rounds + 1, pos => if src[pos]?.any p then skipWhile p rounds (pos + 1) else some pos

def skipBlockFrom : (rounds pos : Nat) → Option Nat
  | 0, _ => none
  | rounds + 1, pos =>
    if pos < src.length then do
      -- an index, not a look
      let c ← src[pos]?
      if c = '*' ∧ src[pos + 1]? = some '/' then some (min (pos + 2) src.length)
      else skipBlockFrom rounds (pos + 1)
    else some (min (pos + 2) src.length)

def isComment (pos : Nat) : Bool :=
  src[pos]? == some '/' && (src[pos + 1]? == some '/' || src[pos + 1]? == some '*')

def skipComment (pos : Nat) : Option Nat :=
  if src[pos + 1]? = some '/' then skipWhile src (· != '\n') (rounds src) pos
  else skipBlockFrom src (rounds src) (pos + 2)

def skipTriviaFrom : (rounds pos : Nat) → Option Nat
  | 0, _ => none
  | rounds + 1, pos =>
    if src[pos]?.any isSpace then skipTriviaFrom rounds (pos + 1)
    else if isComment src pos then (skipComment src pos).bind (skipTriviaFrom rounds)
    else some pos

def skipTrivia (pos : Nat) : Option Nat :=
  skipTriviaFrom src (rounds src) pos

/-- Reads on in a string; the answer says whether it is closed. -/
def skipStringFrom (quote : Char) : (rounds pos : Nat) → Option (Bool × Nat)
  | 0, _ => none
  | rounds + 1, pos =>
    match src[pos]? with
    | none => some (false, min pos src.length)
    | some c =>
      if c = '\\' then skipStringFrom quote rounds (pos + 2)
      else if c = '\n' then some (false, pos)
      else if c = quote then some (true, pos + 1)
      else skipStringFrom quote rounds (pos + 1)

def skipString (pos : Nat) : Option (Bool × Nat) := do
  let quote ← src[pos]?
  skipStringFrom src quote (rounds src) (pos + 1)

def skipRegexFrom : (rounds : Nat) → (inClass : Bool) → (pos : Nat) → Option Nat
  | 0, _, _ => none
  | rounds + 1, inClass, pos =>
    match src[pos]? with
    | none => some (min pos src.length)
    | some c =>
      if c = '\\' then skipRegexFrom rounds inClass (pos + 2)
      else if c = '\n' then some pos
      else if c = '[' then skipRegexFrom rounds true (pos + 1)
      else if c = ']' then skipRegexFrom rounds false (pos + 1)
      else if c = '/' ∧ inClass = false then
        skipWhile src Char.isAlpha (Cursor.rounds src) (pos + 1)
      else skipRegexFrom rounds inClass (pos + 1)

def skipRegex (pos : Nat) : Option Nat :=
  skipRegexFrom src (rounds src) false (pos + 1)

mutual

def skipTemplateFrom : (rounds pos : Nat) → Option Nat
  | 0, _ => none
  | rounds + 1, pos =>
    match src[pos]? with
    | none => some (min pos src.length)
    | some c =>
      if c = '\\' then skipTemplateFrom rounds (pos + 2)
      else if c = '`' then some (pos + 1)
      else if c = '$' ∧ src[pos + 1]? = some '{' then
        (skipBracesFrom rounds 0 (pos + 1)).bind (skipTemplateFrom rounds)
      else skipTemplateFrom rounds (pos + 1)

def skipBracesFrom : (rounds depth pos : Nat) → Option Nat
  | 0, _, _ => none
  | rounds + 1, depth, pos =>
    match src[pos]? with
    | none => some pos
    | some c =>
      if isComment src pos then (skipComment src pos).bind (skipBracesFrom rounds depth)
      else if isQuote c then (skipString src pos).bind fun s => skipBracesFrom rounds depth s.2
      else if c = '`' then (skipTemplateFrom rounds (pos + 1)).bind (skipBracesFrom rounds depth)
      else if c = '{' then skipBracesFrom rounds (depth + 1) (pos + 1)
      else if c = '}' then
        if depth - 1 = 0 then some (pos + 1) else skipBracesFrom rounds (depth - 1) (pos + 1)
      else skipBracesFrom rounds depth (pos + 1)

end

def skipTemplate (pos : Nat) : Option Nat :=
  skipTemplateFrom src (rounds src) (pos + 1)

def skipBraces (pos : Nat) : Option Nat :=
  skipBracesFrom src (rounds src) 0 pos

end Readers

def StandsAt (src : List Char) (pos : Nat) (rest : List Char) : Prop :=
  ∃ front, src = front ++ rest ∧ front.length = pos

/-- A move that does not fail, to where `rest` begins. -/
def Lands (src : List Char) (move : Option Nat) (rest : List Char) : Prop :=
  ∃ pos, move = some pos ∧ StandsAt src pos rest

section Moves

variable {src : List Char} {pos : Nat} {c : Char} {rest : List Char}

namespace StandsAt

theorem getElem? (h : StandsAt src pos rest) : src[pos]? = rest.head? := by
  obtain ⟨front, rfl, rfl⟩ := h
  rw [List.getElem?_append_right (Nat.le_refl _), Nat.sub_self, List.head?_eq_getElem?]

theorem tail (h : StandsAt src pos (c :: rest)) : StandsAt src (pos + 1) rest := by
  obtain ⟨front, rfl, rfl⟩ := h
  exact ⟨front ++ [c], by simp, by simp⟩

theorem add_length (h : StandsAt src pos rest) : pos + rest.length = src.length := by
  obtain ⟨front, rfl, rfl⟩ := h
  exact List.length_append.symm

theorem lt_rounds (h : StandsAt src pos rest) : rest.length < rounds src :=
  Nat.lt_succ_of_le (h.add_length ▸ Nat.le_add_left _ _)

theorem atEnd (src : List Char) : StandsAt src src.length [] :=
  ⟨src, (List.append_nil src).symm, rfl⟩

theorem lands (h : StandsAt src pos rest) : Lands src (some pos) rest :=
  ⟨pos, rfl, h⟩

end StandsAt

/-- Past the end the cursor is put back to it. -/
theorem lands_min (h : src.length ≤ pos) : Lands src (some (min pos src.length)) [] :=
  ⟨_, congrArg some (Nat.min_eq_right h), .atEnd src⟩

theorem Lands.bind {move : Option Nat} {next : Nat → Option Nat} {target : List Char}
    (h : Lands src move rest) (hNext : ∀ pos, StandsAt src pos rest → Lands src (next pos) target) :
    Lands src (move.bind next) target := by
  obtain ⟨pos, rfl, hPos⟩ := h
  exact hNext pos hPos

theorem lands_skipWhile (p : Char → Bool) {rounds : Nat} (h : StandsAt src pos rest)
    (hRounds : rest.length < rounds) :
    Lands src (skipWhile src p rounds pos) (rest.dropWhile p) := by
  induction rounds generalizing pos rest with
  | zero => exact absurd hRounds (Nat.not_lt_zero _)
  | succ rounds ih =>
    rw [skipWhile, h.getElem?]
    cases rest with
    | nil => exact h.lands
    | cons c rest =>
      rw [List.dropWhile_cons, List.head?_cons, Option.any_some]
      cases hC : p c with
      | true => exact ih h.tail (Nat.lt_of_succ_lt_succ hRounds)
      | false => exact h.lands

theorem lands_skipBlockFrom {rounds : Nat} (h : StandsAt src pos rest)
    (hRounds : rest.length < rounds) : Lands src (skipBlockFrom src rounds pos) (afterBlock rest) := by
  induction rounds generalizing pos rest with
  | zero => exact absurd hRounds (Nat.not_lt_zero _)
  | succ rounds ih =>
    have hLength := h.add_length
    rw [skipBlockFrom, h.getElem?]
    cases rest with
    | nil =>
      rw [List.length_nil, Nat.add_zero] at hLength
      rw [if_neg (Nat.not_lt.mpr (Nat.le_of_eq hLength.symm)), afterBlock]
      exact lands_min (by omega)
    | cons c rest =>
      rw [List.length_cons] at hLength
      rw [if_pos (by omega), h.tail.getElem?]
      simp only [List.head?_cons, Option.bind_eq_bind, Option.bind_some]
      split
      · rename_i hClose
        obtain ⟨rfl, hSlash⟩ := hClose
        obtain ⟨rest, rfl⟩ := List.head?_eq_some_iff.mp hSlash
        have hBehind := h.tail.tail
        have hFits := hBehind.add_length
        rw [Nat.min_eq_left (by omega), afterBlock]
        exact hBehind.lands
      · rename_i hOpen
        have hSkip : afterBlock (c :: rest) = afterBlock rest := by
          by_cases hStar : c = '*'
          · exact afterBlock_cons_of_next fun hSlash => hOpen ⟨hStar, hSlash⟩
          · exact afterBlock_cons_of_ne hStar rest
        rw [hSkip]
        exact ih h.tail (Nat.lt_of_succ_lt_succ hRounds)

theorem isComment_eq (h : StandsAt src pos rest) :
    isComment src pos = (afterComment? rest).isSome := by
  rw [isComment, h.getElem?]
  cases rest with
  | nil => rfl
  | cons c rest =>
    rw [h.tail.getElem?, Bool.eq_iff_iff, Option.isSome_iff_ne_none, Ne, afterComment?_eq_none_iff,
      Decidable.not_not]
    simp

theorem lands_skipComment (h : StandsAt src pos rest) {behind : List Char}
    (hComment : afterComment? rest = some behind) : Lands src (skipComment src pos) behind := by
  unfold afterComment? at hComment
  split at hComment
  · obtain rfl := Option.some.inj hComment
    rw [skipComment, h.tail.getElem?, List.head?_cons, if_pos rfl]
    have hLine := lands_skipWhile (· != '\n') h h.lt_rounds
    exact hLine
  · obtain rfl := Option.some.inj hComment
    rw [skipComment, h.tail.getElem?, List.head?_cons, if_neg (by decide)]
    exact lands_skipBlockFrom h.tail.tail h.tail.tail.lt_rounds
  · cases hComment

theorem lands_skipTriviaFrom {rounds : Nat} (h : StandsAt src pos rest)
    (hRounds : rest.length < rounds) :
    Lands src (skipTriviaFrom src rounds pos) (afterTrivia rest) := by
  induction rounds generalizing pos rest with
  | zero => exact absurd hRounds (Nat.not_lt_zero _)
  | succ rounds ih =>
    rw [skipTriviaFrom, h.getElem?, isComment_eq h]
    cases rest with
    | nil =>
      rw [afterTrivia]
      exact h.lands
    | cons c rest =>
      rw [List.head?_cons, Option.any_some]
      cases hSpace : isSpace c with
      | true =>
        rw [afterTrivia_skips.space c rest hSpace]
        exact ih h.tail (Nat.lt_of_succ_lt_succ hRounds)
      | false =>
        cases hComment : afterComment? (c :: rest) with
        | some behind =>
          have hShorter := (afterComment?_suffix hComment).2
          rw [afterTrivia_skips.comment _ _ hComment]
          exact (lands_skipComment h hComment).bind fun pos hPos => ih hPos (by omega)
        | none =>
          rw [afterTrivia_stop hSpace hComment]
          exact h.lands

theorem lands_skipTrivia (h : StandsAt src pos rest) :
    Lands src (skipTrivia src pos) (afterTrivia rest) :=
  lands_skipTriviaFrom h h.lt_rounds

end Moves

/-! A backslash moves the cursor over two bytes, of which the second may be missing. So the readers of
strings, regular expressions and templates can stand behind the end, where nothing is left. -/
section Escapes

variable {src : List Char} {pos rounds : Nat} {c : Char} {rest : List Char}

theorem StandsAt.drop_eq (h : StandsAt src pos rest) : src.drop pos = rest := by
  obtain ⟨front, rfl, rfl⟩ := h
  exact List.drop_left

theorem StandsAt.of_drop (h : src.drop pos = c :: rest) : StandsAt src pos (c :: rest) := by
  refine ⟨src.take pos, by rw [← h, List.take_append_drop], ?_⟩
  have hLength := congrArg List.length h
  rw [List.length_drop, List.length_cons] at hLength
  rw [List.length_take]
  omega

theorem drop_escaped (h : src.drop pos = c :: rest) : src.drop (pos + 2) = rest.drop 1 := by
  rw [← (StandsAt.of_drop h).tail.drop_eq, List.drop_drop]

theorem lands_of_drop (h : src.drop pos = []) : Lands src (some (min pos src.length)) [] :=
  lands_min (List.drop_eq_nil_iff.mp h)

theorem length_drop_one_lt {rounds : Nat} (h : (c :: rest).length < rounds + 1) :
    (rest.drop 1).length < rounds := by
  rw [List.length_cons] at h
  rw [List.length_drop]
  omega

theorem skipStringFrom_eq {quote : Char} (hQuote : isQuote quote = true) (h : src.drop pos = rest)
    (hRounds : rest.length < rounds) :
    ∃ stop, skipStringFrom src quote rounds pos = some ((readQuoted quote rest).1.isSome, stop) ∧
      StandsAt src stop (readQuoted quote rest).2 := by
  obtain ⟨hEscape, hLine⟩ : quote ≠ '\\' ∧ quote ≠ '\n' := by
    constructor <;> rintro rfl <;> cases hQuote
  induction rounds generalizing pos rest with
  | zero => exact absurd hRounds (Nat.not_lt_zero _)
  | succ rounds ih =>
    rw [skipStringFrom, ← List.head?_drop, h]
    cases rest with
    | nil =>
      obtain ⟨stop, hStop, hEnd⟩ := lands_of_drop h
      exact ⟨stop, by rw [← Option.some.inj hStop]; rfl, hEnd⟩
    | cons c rest =>
      have hHere := StandsAt.of_drop h
      have hNext := ih hHere.tail.drop_eq (Nat.lt_of_succ_lt_succ hRounds)
      rw [List.head?_cons]
      dsimp only
      by_cases hBackslash : c = '\\'
      · subst hBackslash
        have hRead : (readQuoted quote ('\\' :: rest)).1.isSome =
            (readQuoted quote (rest.drop 1)).1.isSome ∧
            (readQuoted quote ('\\' :: rest)).2 = (readQuoted quote (rest.drop 1)).2 := by
          cases rest <;> simp [readQuoted]
        rw [if_pos rfl, hRead.1, hRead.2]
        exact ih (drop_escaped h) (length_drop_one_lt hRounds)
      · rw [if_neg hBackslash]
        by_cases hNewline : c = '\n'
        · subst hNewline
          rw [if_pos rfl, readQuoted_cons_line hLine]
          exact ⟨pos, rfl, hHere⟩
        · rw [if_neg hNewline]
          by_cases hClose : c = quote
          · subst hClose
            rw [if_pos rfl, readQuoted_cons_quote hEscape]
            exact ⟨pos + 1, rfl, hHere.tail⟩
          · rw [if_neg hClose, readQuoted_cons_of_ne hBackslash hClose hNewline, Option.isSome_map]
            exact hNext

theorem skipString_eq (h : StandsAt src pos (c :: rest)) (hQuote : isQuote c = true) :
    ∃ stop, skipString src pos = some ((readQuoted c rest).1.isSome, stop) ∧
      StandsAt src stop (readQuoted c rest).2 := by
  rw [skipString, h.getElem?]
  exact skipStringFrom_eq hQuote h.tail.drop_eq h.tail.lt_rounds

theorem lands_skipRegexFrom {inClass : Bool} (h : src.drop pos = rest)
    (hRounds : rest.length < rounds) :
    Lands src (skipRegexFrom src rounds inClass pos) (afterRegex inClass rest) := by
  induction rounds generalizing pos rest inClass with
  | zero => exact absurd hRounds (Nat.not_lt_zero _)
  | succ rounds ih =>
    rw [skipRegexFrom, ← List.head?_drop, h]
    cases rest with
    | nil =>
      rw [afterRegex]
      exact lands_of_drop h
    | cons c rest =>
      have hHere := StandsAt.of_drop h
      have hNext := fun inClass =>
        @ih _ _ inClass hHere.tail.drop_eq (Nat.lt_of_succ_lt_succ hRounds)
      rw [List.head?_cons]
      dsimp only
      by_cases hBackslash : c = '\\'
      · subst hBackslash
        have hRead : afterRegex inClass ('\\' :: rest) = afterRegex inClass (rest.drop 1) := by
          cases rest <;> simp [afterRegex]
        rw [if_pos rfl, hRead]
        exact ih (drop_escaped h) (length_drop_one_lt hRounds)
      rw [if_neg hBackslash]
      by_cases hLine : c = '\n'
      · subst hLine
        rw [if_pos rfl, afterRegex]
        exact hHere.lands
      rw [if_neg hLine]
      by_cases hOpen : c = '['
      · subst hOpen
        rw [if_pos rfl, afterRegex]
        exact hNext true
      rw [if_neg hOpen]
      by_cases hClose : c = ']'
      · subst hClose
        rw [if_pos rfl, afterRegex]
        exact hNext false
      rw [if_neg hClose]
      by_cases hSlash : c = '/'
      · subst hSlash
        cases inClass with
        | true =>
          rw [if_neg (by decide), afterRegex, if_pos rfl]
          exact hNext true
        | false =>
          rw [if_pos (by decide), afterRegex, if_neg Bool.false_ne_true]
          exact lands_skipWhile Char.isAlpha hHere.tail hHere.tail.lt_rounds
      · rw [if_neg (mt And.left hSlash),
          afterRegex_cons_of_ne hBackslash hLine hOpen hClose hSlash]
        exact hNext inClass

theorem lands_skipRegex (h : StandsAt src pos (c :: rest)) :
    Lands src (skipRegex src pos) (afterRegex false rest) :=
  lands_skipRegexFrom h.tail.drop_eq h.tail.lt_rounds

end Escapes

/-- The readers of templates and of blocks in braces, where each calls the other, come to where what
they are to close is closed. A block is entered in front of its brace, at depth zero. -/
structure OpenersLand (src : List Char) (rounds : Nat) : Prop where
  template : ∀ {pos rest}, src.drop pos = rest → rest.length < rounds →
    Lands src (skipTemplateFrom src rounds pos) (afterOpen [.template] rest)
  inside : ∀ depth {pos rest}, StandsAt src pos rest → rest.length < rounds →
    Lands src (skipBracesFrom src rounds (depth + 1) pos)
      (afterOpen (List.replicate (depth + 1) .brace) rest)
  block : ∀ {pos rest}, StandsAt src pos ('{' :: rest) → rest.length + 1 < rounds →
    Lands src (skipBracesFrom src rounds 0 pos) (afterOpen [.brace] rest)

namespace OpenersLand

variable {src : List Char} {rounds pos : Nat} {rest : List Char}

theorem template_step (ih : OpenersLand src rounds) (h : src.drop pos = rest)
    (hRounds : rest.length < rounds + 1) :
    Lands src (skipTemplateFrom src (rounds + 1) pos) (afterOpen [.template] rest) := by
  rw [skipTemplateFrom, ← List.head?_drop, h]
  cases rest with
  | nil =>
    rw [afterOpen]
    exact lands_of_drop h
  | cons c rest =>
    have hHere := StandsAt.of_drop h
    rw [afterOpen, List.head?_cons, hHere.tail.getElem?]
    dsimp only
    split
    · exact ih.template (drop_escaped h) (length_drop_one_lt hRounds)
    split
    · rw [afterOpen]
      exact hHere.tail.lands
    split
    · rename_i hOpen
      obtain ⟨rest, rfl⟩ := List.head?_eq_some_iff.mp hOpen.2
      simp only [List.length_cons] at hRounds
      have hLength := (afterOpen_suffix [.brace] rest).length_le
      rw [List.drop_one, List.tail_cons, afterOpen_push .brace [.template]]
      exact (ih.block hHere.tail (by omega)).bind fun pos hPos =>
        ih.template hPos.drop_eq (by omega)
    · exact ih.template hHere.tail.drop_eq (Nat.lt_of_succ_lt_succ hRounds)

theorem inside_step (ih : OpenersLand src rounds) (depth : Nat) (h : StandsAt src pos rest)
    (hRounds : rest.length < rounds + 1) :
    Lands src (skipBracesFrom src (rounds + 1) (depth + 1) pos)
      (afterOpen (List.replicate (depth + 1) .brace) rest) := by
  rw [skipBracesFrom, h.getElem?, isComment_eq h]
  cases rest with
  | nil =>
    rw [List.replicate_succ, afterOpen]
    exact h.lands
  | cons c rest =>
    have hLength := Nat.lt_of_succ_lt_succ hRounds
    rw [List.head?_cons]
    dsimp only
    cases hComment : afterComment? (c :: rest) with
    | some behind =>
      have hShorter := (afterComment?_suffix hComment).2
      rw [List.replicate_succ, afterOpen_of_comment hComment, Option.isSome_some, if_pos rfl]
      exact (lands_skipComment h hComment).bind fun pos hPos => ih.inside depth hPos (by omega)
    | none =>
      rw [List.replicate_succ, afterOpen_of_no_comment hComment, Option.isSome_none,
        if_neg Bool.false_ne_true]
      split
      · rename_i hQuote
        obtain ⟨stop, hString, hStop⟩ := skipString_eq h hQuote
        have hShorter := (readQuoted_suffix c rest).length_le
        rw [hString, Option.bind_some]
        exact ih.inside depth hStop (by omega)
      split
      · have hShorter := (afterOpen_suffix [.template] rest).length_le
        rw [afterOpen_push .template (.brace :: _)]
        exact (ih.template h.tail.drop_eq hLength).bind fun pos hPos =>
          ih.inside depth hPos (by omega)
      split
      · exact ih.inside (depth + 1) h.tail hLength
      split
      · rw [Nat.add_sub_cancel]
        cases depth with
        | zero =>
          rw [if_pos rfl, List.replicate_zero, afterOpen]
          exact h.tail.lands
        | succ depth =>
          rw [if_neg (Nat.succ_ne_zero depth)]
          exact ih.inside depth h.tail hLength
      · exact ih.inside depth h.tail hLength

theorem block_step (ih : OpenersLand src rounds) (h : StandsAt src pos ('{' :: rest))
    (hRounds : rest.length + 1 < rounds + 1) :
    Lands src (skipBracesFrom src (rounds + 1) 0 pos) (afterOpen [.brace] rest) := by
  rw [skipBracesFrom, h.getElem?, isComment_eq h, afterComment?_of_ne (by decide)]
  exact ih.inside 0 h.tail (Nat.lt_of_succ_lt_succ hRounds)

theorem all (src : List Char) (rounds : Nat) : OpenersLand src rounds := by
  induction rounds with
  | zero =>
    exact ⟨fun _ h => absurd h (Nat.not_lt_zero _), fun _ _ _ _ h => absurd h (Nat.not_lt_zero _),
      fun _ h => absurd h (Nat.not_lt_zero _)⟩
  | succ rounds ih => exact ⟨ih.template_step, fun depth _ _ => ih.inside_step depth, ih.block_step⟩

end OpenersLand

section Openers

variable {src : List Char} {pos : Nat} {c : Char} {rest : List Char}

theorem lands_skipTemplate (h : StandsAt src pos (c :: rest)) :
    Lands src (skipTemplate src pos) (afterOpen [.template] rest) :=
  (OpenersLand.all src _).template h.tail.drop_eq h.tail.lt_rounds

theorem lands_skipBraces (h : StandsAt src pos ('{' :: rest)) :
    Lands src (skipBraces src pos) (afterOpen [.brace] rest) :=
  (OpenersLand.all src _).block h h.lt_rounds

end Openers

end Cursor
end ExplicitModules.Source
