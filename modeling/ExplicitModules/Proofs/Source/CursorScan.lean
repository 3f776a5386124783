import ExplicitModules.Proofs.Source.Cursor

/-!
# Scanning with a cursor

The pass over a text with a cursor that stands at the number of a byte. What is cut out of the text,
a word or a value, is cut out by its two ends, and that is a failure unless both lie between
characters, in order. No failure occurs for any text, and the declarations found are those of the pass
over endings.
-/
namespace ExplicitModules.Source
set_option autoImplicit false
open Text

namespace Cursor

section Readers

variable (text : List Char)

def readWord (pos : Nat) : Option (List Char × Nat) :=
  if (bytes text)[pos]?.any isWordChar then do
    let stop ← skipWhile (bytes text) isWordChar (rounds (bytes text)) pos
    let w ← slice? text pos stop
    return (w, stop)
  else some ([], pos)

def readLiteral (pos : Nat) : Option (Option Literal) :=
  match (bytes text)[pos]? with
  | none => some none
  | some quote =>
    if isQuote quote then do
      let (closed, stop) ← skipString (bytes text) pos
      if closed then
        let value ← slice? text (pos + 1) (stop - 1)
        return some ⟨pos, stop, quote, String.ofList value⟩
      else return none
    else some none

def importSource : (rounds pos : Nat) → Option (Option Literal)
  | 0, _ => none
  | rounds + 1, pos => do
    let pos ← skipTrivia (bytes text) pos
    match (bytes text)[pos]? with
    | none => return none
    | some c =>
      if c = '{' then
        let behind ← skipBraces (bytes text) pos
        importSource rounds behind
      else if c = '*' ∨ c = ',' then importSource rounds (pos + 1)
      else if isWordChar c then
        let (w, behind) ← readWord text pos
        if w = "from".toList then
          let opening ← skipTrivia (bytes text) behind
          if (bytes text)[opening]?.any isQuote then readLiteral text opening
          else importSource rounds opening
        else importSource rounds behind
      else return none

def importSpecifier (pos : Nat) : Option (Option Literal) := do
  let pos ← skipTrivia (bytes text) pos
  match (bytes text)[pos]? with
  | none => return none
  | some c =>
    if c = '(' ∨ c = '.' then return none
    else if isQuote c then readLiteral text pos
    else importSource text (rounds (bytes text)) pos

def fromString (pos : Nat) : Option (Option Literal) := do
  let pos ← skipTrivia (bytes text) pos
  let (w, behind) ← readWord text pos
  if w = "from".toList then
    let opening ← skipTrivia (bytes text) behind
    readLiteral text opening
  else return none

def skipExportName (pos : Nat) : Option (Option Nat) :=
  match (bytes text)[pos]? with
  | none => some none
  | some c =>
    if isQuote c then (readLiteral text pos).map fun literal => literal.map Literal.stop
    else if isWordChar c then (readWord text pos).map fun read => some read.2
    else some none

def reexportSource (pos : Nat) : Option (Option Literal) :=
  match (bytes text)[pos]? with
  | none => some none
  | some c =>
    if c = '*' then do
      let named ← skipTrivia (bytes text) (pos + 1)
      let (w, behind) ← readWord text named
      if w = "as".toList then
        let name ← skipTrivia (bytes text) behind
        match ← skipExportName text name with
        | none => return none
        | some behind => fromString text behind
      else fromString text named
    else if c = '{' then do
      let behind ← skipBraces (bytes text) pos
      fromString text behind
    else some none

def exportSpecifier (pos : Nat) : Option (Option Literal) := do
  let clause ← skipTrivia (bytes text) pos
  let (w, behind) ← readWord text clause
  if w = [] then reexportSource text clause
  else if w = "type".toList then
    let clause ← skipTrivia (bytes text) behind
    reexportSource text clause
  else return none

def skipAttributes (pos : Nat) : Option (Option Nat) := do
  let clause ← skipTrivia (bytes text) pos
  let (w, behind) ← readWord text clause
  if w = "with".toList ∨ w = "assert".toList then
    let block ← skipTrivia (bytes text) behind
    if (bytes text)[block]? = some '{' then (skipBraces (bytes text) block).map some
    else return none
  else return none

def specifier (w : List Char) (pos : Nat) : Option (Option (DeclarationKind × Literal)) :=
  if w = "import".toList then
    (importSpecifier text pos).map fun found => found.map fun literal => (.import, literal)
  else if w = "export".toList then
    (exportSpecifier text pos).map fun found => found.map fun literal => (.export, literal)
  else some none

def lineAt (pos : Nat) : Option UInt32 :=
  if pos ≤ (bytes text).length then some (lineNumber (((bytes text).take pos).count '\n')) else none

/-- The declaration that the word `w` from `start` to `stop` introduces, and where it ends. -/
def declarationAt (w : List Char) (start stop : Nat) : Option (Option (Declaration × Nat)) := do
  match ← specifier text w stop with
  | none => return none
  | some (kind, literal) =>
    let attributes ← skipAttributes text literal.stop
    let line ← lineAt text start
    return some (⟨kind, literal, attributes.isSome, line⟩, attributes.getD literal.stop)

/-- Reads the word at `pos` and the declaration that it introduces, and goes on with `next`. -/
def scanWord (next : Last → Nat → Option (List Declaration)) (last : Last) (pos : Nat) :
    Option (List Declaration) := do
  let (w, stop) ← readWord text pos
  if last = .punctuation '.' then next (.word w) stop
  else
    match ← declarationAt text w pos stop with
    | none => next (.word w) stop
    | some (d, behind) =>
      let more ← next (.punctuation ';') behind
      return d :: more

def scanFrom : (rounds : Nat) → Last → (pos : Nat) → Option (List Declaration)
  | 0, _, _ => none
  | rounds + 1, last, pos =>
    match (bytes text)[pos]? with
    | none => some []
    | some c =>
      if isComment (bytes text) pos then do
        let behind ← skipComment (bytes text) pos
        scanFrom rounds last behind
      else if c = '/' ∧ last.allowsRegex then do
        let behind ← skipRegex (bytes text) pos
        scanFrom rounds (.punctuation c) behind
      else if isQuote c then do
        let (_, behind) ← skipString (bytes text) pos
        scanFrom rounds (.punctuation c) behind
      else if c = '`' then do
        let behind ← skipTemplate (bytes text) pos
        scanFrom rounds (.punctuation c) behind
      else if isWordChar c then scanWord text (scanFrom rounds) last pos
      else if isSpace c then scanFrom rounds last (pos + 1)
      else scanFrom rounds (.punctuation c) (pos + 1)

def scan : Option (List Declaration) :=
  scanFrom text (rounds (bytes text)) .start
    (if text.head? = some '\uFEFF' then '\uFEFF'.utf8Size else 0)

end Readers

def BeginsAt (text : List Char) (pos : Nat) (rest : List Char) : Prop :=
  ∃ front, text = front ++ rest ∧ utf8Length front = pos

/-- A move between characters that does not fail, to where `rest` begins. -/
def ComesTo (text : List Char) (move : Option Nat) (rest : List Char) : Prop :=
  ∃ pos, move = some pos ∧ BeginsAt text pos rest

theorem step_of_not_ascii {c : Char} (hC : isAscii c = false) (last : Last) (cs : List Char) :
    step last c cs = wordStep last (c :: cs) := by
  obtain ⟨hWord, -, hQuote, -⟩ := class_of_not_ascii hC
  have hComment : afterComment? (c :: cs) = none :=
    afterComment?_of_head (fun h => ne_of_isAscii hC (d := '/') rfl (Option.some.inj h))
  have hRegex : ¬(c = '/' ∧ last.allowsRegex) := fun h => ne_of_isAscii hC (d := '/') rfl h.1
  have hTick : c ≠ '`' := ne_of_isAscii hC rfl
  unfold step
  rw [hComment]
  dsimp only
  rw [if_neg hRegex, hQuote, if_neg Bool.false_ne_true, if_neg hTick, if_pos hWord]

/-- What one round with the cursor has to do to be the step `s` of the pass over endings. -/
def Follows (text : List Char) (rounds : Nat) (round : Option (List Declaration)) (s : Step) : Prop :=
  ∃ stop, BeginsAt text stop s.rest ∧ round =
    (scanFrom text rounds s.last stop).map
      (s.site.toList.map (Site.toDeclaration text) ++ ·)

section Places

variable {text cs rest : List Char} {pos : Nat} {c : Char}

theorem ComesTo.follows {move : Option Nat} (h : ComesTo text move rest) (rounds : Nat)
    (last : Last) :
    Follows text rounds (move.bind fun stop => scanFrom text rounds last stop)
      ⟨none, last, rest⟩ := by
  obtain ⟨stop, rfl, hStop⟩ := h
  exact ⟨stop, hStop, by simp⟩

namespace BeginsAt

theorem standsAt (h : BeginsAt text pos rest) : StandsAt (bytes text) pos (bytes rest) := by
  obtain ⟨front, rfl, rfl⟩ := h
  exact ⟨bytes front, bytes_append front rest, length_bytes front⟩

theorem pos_eq (h : BeginsAt text pos rest) : utf8Length (before text rest) = pos := by
  obtain ⟨front, rfl, rfl⟩ := h
  rw [before_append]

theorem of_suffix (h : rest <:+ text) : BeginsAt text (utf8Length (before text rest)) rest := by
  obtain ⟨front, rfl⟩ := h
  exact ⟨front, rfl, by rw [before_append]⟩

/-- A move over the bytes that ends where the reader of endings ends is one between characters. -/
theorem comesTo (h : BeginsAt text pos cs) {move : Option Nat}
    (hMove : Lands (bytes text) move (bytes rest)) (hRest : rest <:+ cs) :
    ComesTo text move rest := by
  obtain ⟨stop, rfl, hStop⟩ := hMove
  obtain ⟨front, rfl, -⟩ := h
  obtain ⟨gap, rfl⟩ := hRest
  refine ⟨stop, rfl, front ++ gap, (List.append_assoc front gap rest).symm, ?_⟩
  have hLength := hStop.add_length
  simp only [bytes_append, List.length_append, length_bytes] at hLength
  rw [utf8Length_append]
  omega

theorem lt_rounds (h : BeginsAt text pos cs) : cs.length < rounds (bytes text) := by
  obtain ⟨front, rfl, -⟩ := h
  have hLength := length_le_utf8Length cs
  rw [rounds, length_bytes, utf8Length_append]
  omega

/-- The byte at the cursor passes the same tests as the character that begins there. -/
theorem exists_byte (h : BeginsAt text pos (c :: rest)) :
    ∃ d, (bytes text)[pos]? = some d ∧ (∀ e, isAscii e = true → (d = e ↔ c = e)) ∧
      isQuote d = isQuote c ∧ isWordChar d = isWordChar c := by
  obtain ⟨d, ds, hBytes, hAscii, hHigh⟩ := exists_bytes_cons c rest
  refine ⟨d, by rw [h.standsAt.getElem?, hBytes, List.head?_cons], ?_,
    test_bytes_head isQuote_byteTest hAscii hHigh,
    test_bytes_head isWordChar_byteTest hAscii hHigh⟩
  intro e hE
  cases hC : isAscii c with
  | true => rw [hAscii hC]
  | false => exact iff_of_false (ne_of_isAscii (hHigh hC) hE) (ne_of_isAscii hC hE)

theorem getElem?_of_ascii (h : BeginsAt text pos (c :: rest)) (hC : isAscii c = true) :
    (bytes text)[pos]? = some c := by
  rw [h.standsAt.getElem?, bytes_cons_of_ascii hC, List.head?_cons]

theorem getElem?_nil (h : BeginsAt text pos []) : (bytes text)[pos]? = none := by
  rw [h.standsAt.getElem?, bytes_nil, List.head?_nil]

theorem tail (h : BeginsAt text pos (c :: rest)) (hC : isAscii c = true) :
    BeginsAt text (pos + 1) rest := by
  obtain ⟨front, rfl, rfl⟩ := h
  refine ⟨front ++ [c], by simp, ?_⟩
  have hSize := congrArg List.length (charBytes_of_ascii hC)
  rw [charBytes, List.length_map, String.length_utf8EncodeChar, List.length_singleton] at hSize
  rw [utf8Length_append, utf8Length_cons, utf8Length_nil, hSize]

theorem skipTrivia_comesTo (h : BeginsAt text pos cs) :
    ComesTo text (skipTrivia (bytes text) pos) (afterTrivia cs) :=
  h.comesTo (afterTrivia_bytes cs ▸ lands_skipTrivia h.standsAt) (afterTrivia_suffix cs)

theorem skipBraces_comesTo (h : BeginsAt text pos ('{' :: rest)) :
    ComesTo text (skipBraces (bytes text) pos) (afterOpen [.brace] rest) := by
  have hStands := h.standsAt
  rw [bytes_cons_of_ascii rfl] at hStands
  exact h.comesTo (afterOpen_bytes [.brace] rest ▸ lands_skipBraces hStands)
    ((afterOpen_suffix _ _).trans (List.suffix_cons _ _))

/-- What stands between two places of the cursor can be cut out. -/
theorem slice?_eq {part : List Char} {stop : Nat} (h : BeginsAt text pos (part ++ rest))
    (hStop : BeginsAt text stop rest) : slice? text pos stop = some part := by
  obtain ⟨front, rfl, rfl⟩ := h
  have hEnd := hStop.pos_eq
  rw [← List.append_assoc, before_append, utf8Length_append] at hEnd
  rw [← hEnd]
  exact slice?_append front part rest

/-- A word is cut out between characters. -/
theorem readWord_eq (h : BeginsAt text pos cs) :
    ∃ stop, readWord text pos = some (word cs, stop) ∧ BeginsAt text stop (afterWord cs) := by
  cases cs with
  | nil =>
    rw [readWord, h.getElem?_nil]
    exact ⟨pos, rfl, h⟩
  | cons c cs =>
    obtain ⟨d, hByte, -, -, hTest⟩ := h.exists_byte
    rw [readWord, hByte, Option.any_some, hTest]
    cases hWord : isWordChar c with
    | true =>
      have hMove : Lands (bytes text) (skipWhile (bytes text) isWordChar (rounds (bytes text)) pos)
          (bytes (afterWord (c :: cs))) := by
        rw [← afterWord_bytes]
        exact lands_skipWhile isWordChar h.standsAt h.standsAt.lt_rounds
      obtain ⟨stop, hStop, hEnd⟩ := h.comesTo hMove (afterWord_suffix (c :: cs))
      refine ⟨stop, ?_, hEnd⟩
      rw [← word_append_afterWord (c :: cs)] at h
      rw [if_pos rfl, hStop]
      simp only [Option.bind_eq_bind, Option.bind_some, h.slice?_eq hEnd]
      rfl
    | false =>
      have hEmpty : word (c :: cs) = [] := by simp [word, hWord]
      have hSame : afterWord (c :: cs) = c :: cs := by simp [afterWord, hWord]
      rw [hEmpty, hSame, if_neg Bool.false_ne_true]
      exact ⟨pos, rfl, h⟩

theorem readLiteral_eq (h : BeginsAt text pos cs) :
    readLiteral text pos = some ((quoted? cs).map (Quoted.toLiteral text)) := by
  cases cs with
  | nil =>
    rw [readLiteral, h.getElem?_nil]
    rfl
  | cons c rest =>
    cases hQuote : isQuote c with
    | false =>
      obtain ⟨d, hByte, -, hTest, -⟩ := h.exists_byte
      rw [readLiteral, hByte, quoted?_eq_none hQuote]
      dsimp only
      rw [hTest, hQuote, if_neg Bool.false_ne_true, Option.map_none]
    | true =>
      have hC := isAscii_of_isQuote hQuote
      have hStands := h.standsAt
      rw [bytes_cons_of_ascii hC] at hStands
      obtain ⟨stop, hString, hStop⟩ := skipString_eq hStands hQuote
      rw [readQuoted_bytes hC] at hString hStop
      rw [readLiteral, h.getElem?_of_ascii hC]
      dsimp only
      rw [if_pos hQuote, hString]
      rcases hRead : readQuoted c rest with ⟨body, behind⟩
      rw [hRead] at hStop
      cases body with
      | none => simp [quoted?, hQuote, hRead]
      | some body =>
        have hQuoted : quoted? (c :: rest) = some ⟨c, body, behind⟩ := by
          simp [quoted?, hQuote, hRead]
        obtain rfl := readQuoted_eq_some hRead
        obtain ⟨_, hSame, hBehind⟩ := h.comesTo ⟨stop, rfl, hStop⟩
          (((List.suffix_cons c behind).trans (List.suffix_append _ _)).trans (List.suffix_cons _ _))
        obtain rfl := Option.some.inj hSame
        have hClosing : BeginsAt text (stop - 1) (c :: behind) := by
          obtain ⟨front, rfl, -⟩ := h
          have hSuffix : c :: behind <:+ front ++ c :: (body ++ c :: behind) :=
            ((List.suffix_append _ _).trans (List.suffix_cons _ _)).trans (List.suffix_append _ _)
          have hPlace := of_suffix hSuffix
          have hNext := (hPlace.tail hC).pos_eq
          rw [hBehind.pos_eq] at hNext
          rw [hNext, Nat.add_sub_cancel]
          exact hPlace
        have hValue := (h.tail hC).slice?_eq hClosing
        have hStart : utf8Length (before text (Quoted.whole ⟨c, body, behind⟩)) = pos := h.pos_eq
        simp only [Option.bind_eq_bind, Option.bind_some, Option.map_some, Option.isSome_some,
          if_true, hValue, hQuoted, Quoted.toLiteral, hBehind.pos_eq, hStart]
        rfl

theorem importSource_eq {rounds : Nat} (h : BeginsAt text pos cs) (hRounds : cs.length < rounds) :
    importSource text rounds pos = some ((importSource? cs).map (Quoted.toLiteral text)) := by
  induction rounds generalizing pos cs with
  | zero => exact absurd hRounds (Nat.not_lt_zero _)
  | succ rounds ih =>
    obtain ⟨place, hMove, hPlace⟩ := h.skipTrivia_comesTo
    have hLength := (afterTrivia_suffix cs).length_le
    rw [importSource, hMove, importSource?_eq]
    simp only [Option.bind_eq_bind, Option.bind_some]
    cases hTrivia : afterTrivia cs with
    | nil =>
      rw [hTrivia] at hPlace
      rw [hPlace.getElem?_nil]
      rfl
    | cons c rest =>
      rw [hTrivia] at hPlace hLength
      rw [List.length_cons] at hLength
      obtain ⟨d, hByte, hSame, -, hWord⟩ := hPlace.exists_byte
      rw [hByte]
      simp only [hSame '{' rfl, hSame '*' rfl, hSame ',' rfl, hWord]
      split
      · rename_i hBrace
        subst hBrace
        obtain ⟨behind, hBraces, hBehind⟩ := hPlace.skipBraces_comesTo
        have hShorter := (afterOpen_suffix [.brace] rest).length_le
        rw [hBraces]
        exact ih hBehind (by omega)
      split
      · rename_i hMark
        have hC : isAscii c = true := by rcases hMark with rfl | rfl <;> rfl
        exact ih (hPlace.tail hC) (by omega)
      split
      · rename_i hLetter
        obtain ⟨behind, hRead, hBehind⟩ := hPlace.readWord_eq
        obtain ⟨opening, hSkip, hOpening⟩ := hBehind.skipTrivia_comesTo
        have hShorter := (afterWord_cons_suffix hLetter rest).length_le
        have hTrim := (afterTrivia_suffix (afterWord (c :: rest))).length_le
        rw [hRead, Option.bind_some]
        dsimp only
        by_cases hFrom : word (c :: rest) = "from".toList
        · rw [if_pos hFrom, hSkip, Option.bind_some, hOpening.standsAt.getElem?,
            any_isQuote_bytes]
          by_cases hQuote : (afterTrivia (afterWord (c :: rest))).head?.any isQuote = true
          · rw [if_pos hQuote, if_pos ⟨hFrom, hQuote⟩]
            exact hOpening.readLiteral_eq
          · rw [if_neg hQuote, if_neg (mt And.right hQuote), ← importSource?_afterTrivia]
            exact ih hOpening (by omega)
        · rw [if_neg hFrom, if_neg (mt And.left hFrom)]
          exact ih hBehind (by omega)
      · rfl

theorem importSpecifier_eq (h : BeginsAt text pos cs) :
    importSpecifier text pos = some ((importSpecifier? cs).map (Quoted.toLiteral text)) := by
  obtain ⟨place, hMove, hPlace⟩ := h.skipTrivia_comesTo
  rw [importSpecifier, hMove, importSpecifier?]
  simp only [Option.bind_eq_bind, Option.bind_some]
  cases hTrivia : afterTrivia cs with
  | nil =>
    rw [hTrivia] at hPlace
    rw [hPlace.getElem?_nil]
    rfl
  | cons c rest =>
    rw [hTrivia] at hPlace
    obtain ⟨d, hByte, hSame, hQuote, -⟩ := hPlace.exists_byte
    rw [hByte]
    simp only [hSame '(' rfl, hSame '.' rfl, hQuote]
    split
    · rfl
    split
    · exact hPlace.readLiteral_eq
    · exact hPlace.importSource_eq hPlace.lt_rounds

theorem fromString_eq (h : BeginsAt text pos cs) :
    fromString text pos = some ((fromString? cs).map (Quoted.toLiteral text)) := by
  obtain ⟨place, hMove, hPlace⟩ := h.skipTrivia_comesTo
  obtain ⟨behind, hRead, hBehind⟩ := hPlace.readWord_eq
  obtain ⟨opening, hSkip, hOpening⟩ := hBehind.skipTrivia_comesTo
  rw [fromString, hMove, fromString?]
  simp only [Option.bind_eq_bind, Option.bind_some, hRead]
  split
  · rw [hSkip]
    exact hOpening.readLiteral_eq
  · rfl

/-- The end of the name is found where the reader of endings finds it, if both find one. -/
theorem skipExportName_cases (h : BeginsAt text pos cs) :
    (skipExportName text pos = some none ∧ afterExportName? cs = none) ∨
    ∃ stop rest, skipExportName text pos = some (some stop) ∧ afterExportName? cs = some rest ∧
      BeginsAt text stop rest := by
  cases cs with
  | nil =>
    left
    rw [skipExportName, h.getElem?_nil]
    exact ⟨rfl, rfl⟩
  | cons c rest =>
    obtain ⟨d, hByte, -, hQuote, hWord⟩ := h.exists_byte
    rw [skipExportName, hByte, afterExportName?]
    simp only [hQuote, hWord, h.readLiteral_eq, Option.map_some]
    split
    · cases hQuoted : quoted? (c :: rest) with
      | none => exact Or.inl ⟨rfl, rfl⟩
      | some q =>
        obtain ⟨-, hWhole⟩ := quoted?_eq_some hQuoted
        obtain ⟨front, hText, -⟩ := h
        refine Or.inr ⟨_, q.rest, rfl, rfl, of_suffix ?_⟩
        rw [hText, hWhole]
        exact q.rest_suffix_whole.trans (List.suffix_append _ _)
    split
    · obtain ⟨stop, hRead, hStop⟩ := h.readWord_eq
      exact Or.inr ⟨stop, _, by rw [hRead]; rfl, rfl, hStop⟩
    · exact Or.inl ⟨rfl, rfl⟩

theorem reexportSource_eq (h : BeginsAt text pos cs) :
    reexportSource text pos = some ((reexportSource? cs).map (Quoted.toLiteral text)) := by
  cases cs with
  | nil =>
    rw [reexportSource, h.getElem?_nil]
    rfl
  | cons c rest =>
    obtain ⟨d, hByte, hSame, -, -⟩ := h.exists_byte
    rw [reexportSource, hByte]
    simp only [hSame '*' rfl, hSame '{' rfl]
    by_cases hStar : c = '*'
    · subst hStar
      obtain ⟨named, hMove, hNamed⟩ := (h.tail rfl).skipTrivia_comesTo
      obtain ⟨behind, hRead, hBehind⟩ := hNamed.readWord_eq
      obtain ⟨name, hSkip, hName⟩ := hBehind.skipTrivia_comesTo
      rw [if_pos rfl, hMove, reexportSource?]
      simp only [Option.bind_eq_bind, Option.bind_some, hRead]
      split
      · rw [hSkip, Option.bind_some]
        obtain ⟨hNone, hNone'⟩ | ⟨stop, rest', hStop, hRest, hPlace⟩ := hName.skipExportName_cases
        · rw [hNone, hNone']
          rfl
        · rw [hStop, hRest, Option.bind_some, Option.bind_some]
          exact hPlace.fromString_eq
      · exact hNamed.fromString_eq
    rw [if_neg hStar]
    by_cases hBrace : c = '{'
    · subst hBrace
      obtain ⟨behind, hMove, hBehind⟩ := h.skipBraces_comesTo
      rw [if_pos rfl, hMove, reexportSource?]
      exact hBehind.fromString_eq
    · have hNone : reexportSource? (c :: rest) = none := by
        unfold reexportSource?
        split <;> simp_all
      rw [if_neg hBrace, hNone]
      rfl

theorem exportSpecifier_eq (h : BeginsAt text pos cs) :
    exportSpecifier text pos = some ((exportSpecifier? cs).map (Quoted.toLiteral text)) := by
  obtain ⟨clause, hMove, hClause⟩ := h.skipTrivia_comesTo
  obtain ⟨behind, hRead, hBehind⟩ := hClause.readWord_eq
  obtain ⟨next, hSkip, hNext⟩ := hBehind.skipTrivia_comesTo
  rw [exportSpecifier, hMove, exportSpecifier?]
  simp only [Option.bind_eq_bind, Option.bind_some, hRead]
  split
  · exact hClause.reexportSource_eq
  split
  · rw [hSkip]
    exact hNext.reexportSource_eq
  · rfl

theorem skipAttributes_cases (h : BeginsAt text pos cs) :
    (skipAttributes text pos = some none ∧ afterAttributes? cs = none) ∨
    ∃ stop rest, skipAttributes text pos = some (some stop) ∧ afterAttributes? cs = some rest ∧
      BeginsAt text stop rest := by
  obtain ⟨clause, hMove, hClause⟩ := h.skipTrivia_comesTo
  obtain ⟨behind, hRead, hBehind⟩ := hClause.readWord_eq
  obtain ⟨block, hSkip, hBlock⟩ := hBehind.skipTrivia_comesTo
  rw [skipAttributes, hMove, afterAttributes?]
  simp only [Option.bind_eq_bind, Option.bind_some, hRead]
  split
  · have hByte := hBlock.standsAt.getElem?
    rw [hSkip, Option.bind_some, hByte]
    generalize afterTrivia (afterWord (afterTrivia cs)) = ending at hBlock hByte
    by_cases hBrace : ending.head? = some '{'
    · obtain ⟨rest, rfl⟩ := List.head?_eq_some_iff.mp hBrace
      obtain ⟨stop, hBraces, hStop⟩ := hBlock.skipBraces_comesTo
      rw [if_pos ((head?_bytes rfl _).mpr hBrace), hBraces]
      exact Or.inr ⟨stop, _, rfl, rfl, hStop⟩
    · rw [if_neg (mt (head?_bytes rfl _).mp hBrace)]
      refine Or.inl ⟨rfl, ?_⟩
      split
      · exact absurd rfl hBrace
      · rfl
  · exact Or.inl ⟨rfl, rfl⟩

theorem specifier_eq (h : BeginsAt text pos cs) (w : List Char) :
    specifier text w pos =
      some ((specifier? w cs).map fun found => (found.1, found.2.toLiteral text)) := by
  rw [specifier, specifier?, h.importSpecifier_eq, h.exportSpecifier_eq]
  split
  · simp [Function.comp_def]
  split
  · simp [Function.comp_def]
  · rfl

theorem lineAt_eq (h : BeginsAt text pos rest) :
    lineAt text pos = some (lineNumber ((before text rest).count '\n')) := by
  obtain ⟨front, rfl, rfl⟩ := h
  have hLength := length_bytes front
  rw [lineAt, before_append, bytes_append, List.length_append, hLength,
    if_pos (Nat.le_add_right _ _), ← hLength, List.take_left, count_bytes]

/-- What a word introduces is found as the step over the word finds it, which then goes on from the
same place. -/
theorem declarationAt_cases (h : BeginsAt text pos cs) {stop : Nat}
    (hStop : BeginsAt text stop (afterWord cs)) {last : Last} (hMember : last ≠ .punctuation '.') :
    (declarationAt text (word cs) pos stop = some none ∧
      wordStep last cs = ⟨none, .word (word cs), afterWord cs⟩) ∨
    ∃ site behind rest,
      declarationAt text (word cs) pos stop = some (some (site.toDeclaration text, behind)) ∧
      wordStep last cs = ⟨some site, .punctuation ';', rest⟩ ∧ BeginsAt text behind rest := by
  rw [declarationAt, hStop.specifier_eq, wordStep, if_neg hMember, h.lineAt_eq]
  simp only [Option.bind_eq_bind, Option.bind_some]
  cases hFound : specifier? (word cs) (afterWord cs) with
  | none => exact Or.inl ⟨rfl, rfl⟩
  | some found =>
    obtain ⟨kind, q⟩ := found
    have hWhole : q.whole <:+ text := by
      obtain ⟨front, hText, -⟩ := hStop
      exact hText ▸ (specifier?_suffix hFound).trans (List.suffix_append _ _)
    have hPlace := of_suffix (q.rest_suffix_whole.trans hWhole)
    right
    obtain ⟨hNone, hNone'⟩ | ⟨behind, rest, hSome, hRest, hBehind⟩ := hPlace.skipAttributes_cases
    · refine ⟨⟨kind, cs, q, false⟩, _, q.rest, ?_, ?_, hPlace⟩
      · simp only [Option.map_some, Quoted.toLiteral, hNone, Option.bind_some, Option.isSome_none,
          Option.getD_none, Site.toDeclaration]
        rfl
      · simp only [hNone']
    · refine ⟨⟨kind, cs, q, true⟩, behind, rest, ?_, ?_, hBehind⟩
      · simp only [Option.map_some, Quoted.toLiteral, hSome, Option.bind_some, Option.isSome_some,
          Option.getD_some, Site.toDeclaration]
        rfl
      · simp only [hRest]

theorem scanWord_follows (h : BeginsAt text pos cs) (rounds : Nat) (last : Last) :
    Follows text rounds (scanWord text (scanFrom text rounds) last pos) (wordStep last cs) := by
  obtain ⟨stop, hRead, hStop⟩ := h.readWord_eq
  rw [scanWord]
  simp only [Option.bind_eq_bind, hRead, Option.bind_some]
  by_cases hMember : last = .punctuation '.'
  · rw [wordStep, if_pos hMember, if_pos hMember]
    exact ⟨stop, hStop, by simp⟩
  · rw [if_neg hMember]
    obtain ⟨hNone, hStep⟩ | ⟨site, behind, rest, hSome, hStep, hBehind⟩ :=
      h.declarationAt_cases hStop hMember
    · rw [hNone, hStep]
      exact ⟨stop, hStop, by simp⟩
    · rw [hSome, hStep]
      refine ⟨behind, hBehind, ?_⟩
      rw [Option.map_eq_bind]
      rfl

/-- One round with the cursor is one step of the pass over endings. -/
theorem scanFrom_succ (h : BeginsAt text pos (c :: rest)) (rounds : Nat) (last : Last) :
    Follows text rounds (scanFrom text (rounds + 1) last pos) (step last c rest) := by
  cases hC : isAscii c with
  | false =>
    obtain ⟨d, hByte, hSame, hQuote, hWord⟩ := h.exists_byte
    obtain ⟨hLetter, -, hNoQuote, -⟩ := class_of_not_ascii hC
    have hComment : afterComment? (c :: rest) = none := afterComment?_of_ne (ne_of_isAscii hC rfl) rest
    rw [step_of_not_ascii hC, scanFrom, hByte, isComment_eq h.standsAt, afterComment?_bytes,
      hComment]
    dsimp only
    rw [if_neg (by simp), if_neg (by simp [hSame '/' rfl, ne_of_isAscii hC (d := '/') rfl]),
      if_neg (by simp [hQuote, hNoQuote]),
      if_neg (by simp [hSame '`' rfl, ne_of_isAscii hC (d := '`') rfl]),
      if_pos (hWord.trans hLetter)]
    exact h.scanWord_follows rounds last
  | true =>
    have hStands := h.standsAt
    rw [bytes_cons_of_ascii hC] at hStands
    rw [step, scanFrom, h.getElem?_of_ascii hC, isComment_eq h.standsAt, afterComment?_bytes,
      Option.isSome_map]
    dsimp only
    cases hComment : afterComment? (c :: rest) with
    | some behind =>
      have hBytes : afterComment? (bytes (c :: rest)) = some (bytes behind) := by
        rw [afterComment?_bytes, hComment, Option.map_some]
      have hSkip := h.comesTo (lands_skipComment h.standsAt hBytes) (afterComment?_suffix hComment).1
      exact hSkip.follows rounds last
    | none =>
      rw [Option.isSome_none, if_neg Bool.false_ne_true]
      dsimp only
      by_cases hRegex : c = '/' ∧ last.allowsRegex = true
      · rw [if_pos hRegex, if_pos hRegex]
        exact ComesTo.follows (h.comesTo (afterRegex_bytes false rest ▸ lands_skipRegex hStands)
          ((afterRegex_suffix false rest).trans (List.suffix_cons c rest))) rounds (.punctuation c)
      rw [if_neg hRegex, if_neg hRegex]
      by_cases hQuote : isQuote c = true
      · rw [if_pos hQuote, if_pos hQuote]
        obtain ⟨stop, hString, hStop⟩ := skipString_eq hStands hQuote
        rw [readQuoted_bytes hC] at hStop
        rw [hString]
        exact ComesTo.follows (h.comesTo hStop.lands
          ((readQuoted_suffix c rest).trans (List.suffix_cons c rest))) rounds (.punctuation c)
      rw [if_neg hQuote, if_neg hQuote]
      by_cases hTick : c = '`'
      · rw [if_pos hTick, if_pos hTick]
        exact ComesTo.follows (h.comesTo (afterOpen_bytes [.template] rest ▸ lands_skipTemplate hStands)
            ((afterOpen_suffix _ rest).trans (List.suffix_cons c rest))) rounds (.punctuation c)
      rw [if_neg hTick, if_neg hTick]
      by_cases hWord : isWordChar c = true
      · rw [if_pos hWord, if_pos hWord]
        exact h.scanWord_follows rounds last
      rw [if_neg hWord, if_neg hWord]
      have hTail := h.tail hC
      split
      · exact ComesTo.follows ⟨pos + 1, rfl, hTail⟩ rounds last
      · exact ComesTo.follows ⟨pos + 1, rfl, hTail⟩ rounds (.punctuation c)

/-- The cursor finds the declarations of the ending that it stands in front of. -/
theorem scanFrom_eq {rounds : Nat} (h : BeginsAt text pos cs) (hRounds : cs.length < rounds)
    (last : Last) :
    scanFrom text rounds last pos = some ((sitesFrom last cs).map (Site.toDeclaration text)) := by
  induction rounds generalizing pos cs last with
  | zero => exact absurd hRounds (Nat.not_lt_zero _)
  | succ rounds ih =>
    cases cs with
    | nil =>
      rw [scanFrom, h.getElem?_nil, sitesFrom]
      rfl
    | cons c rest =>
      obtain ⟨stop, hStop, hRound⟩ := h.scanFrom_succ rounds last
      have hShorter := (step_rest last c rest).2
      rw [hRound, ih hStop (by omega), sitesFrom, Option.map_some, List.map_append]

end BeginsAt

end Places

/-- For every text the cursor comes to the end without a failure and finds the declarations. -/
theorem scan_eq (text : String) : scan text.toList = some (declarations text) := by
  have hBody : BeginsAt text.toList (if text.toList.head? = some '\uFEFF' then '\uFEFF'.utf8Size else 0)
      (body text.toList) := by
    unfold body
    split
    · rename_i hMark
      obtain ⟨rest, hText⟩ := List.head?_eq_some_iff.mp hMark
      rw [hText]
      exact ⟨['\uFEFF'], rfl, rfl⟩
    · exact ⟨[], rfl, rfl⟩
  rw [scan, hBody.scanFrom_eq hBody.lt_rounds, declarations_eq_map, sites]

end Cursor

end ExplicitModules.Source
