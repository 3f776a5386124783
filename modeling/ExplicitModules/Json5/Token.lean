import ExplicitModules.Json5.Piece

/-!
# Tokens of JSON5

Brackets and separators, strings, names and numbers. Words such as `true` are names until their
place in the document is known. White space and comments are left out.
-/
namespace ExplicitModules.Json5
set_option autoImplicit false

inductive Sign
  | none
  | plus
  | minus
deriving DecidableEq, Repr

inductive Magnitude
  | hex (digits : List Char)
  /-- Digits in front of the point, digits behind it if there is a point, and an exponent. -/
  | decimal (whole : List Char) (fraction : Option (List Char)) (exponent : Option (Sign × List Char))
  | infinity
  | notANumber
deriving DecidableEq, Repr

structure Numeral where
  sign : Sign
  magnitude : Magnitude
deriving DecidableEq, Repr

inductive Token
  | openBracket
  | closeBracket
  | openBrace
  | closeBrace
  | colon
  | comma
  | string (pieces : List Piece)
  | name (pieces : List Piece)
  | number (n : Numeral)
deriving DecidableEq, Repr

def escaped (c : Char) : Char :=
  match c with
  | 'b' => '\x08'
  | 'f' => '\x0c'
  | 'n' => '\n'
  | 'r' => '\r'
  | 't' => '\t'
  | 'v' => '\x0b'
  | '0' => '\x00'
  | c => c

/-- Reads an escape of four hexadecimal digits behind its `u`. -/
def readUnit? : List Char → Option (Piece × List Char)
  | a :: b :: c :: d :: rest =>
    if [a, b, c, d].all isHexDigit then some (.unit (hexValue [a, b, c, d]), rest) else none
  | _ => none

def readByte? : List Char → Option (Piece × List Char)
  | a :: b :: rest =>
    if [a, b].all isHexDigit then some (.byte (hexValue [a, b]), rest) else none
  | _ => none

/-- Reads an escape behind its backslash. A line end continues the string and is no piece of it. -/
def readEscape? (cs : List Char) : Option (List Piece × List Char) :=
  match cs with
  | [] => none
  | '\r' :: '\n' :: rest => some ([], rest)
  | 'x' :: rest => (readByte? rest).map fun (piece, rest) => ([piece], rest)
  | 'u' :: rest => (readUnit? rest).map fun (piece, rest) => ([piece], rest)
  | c :: rest =>
    if isLineEnd c then some ([], rest)
    else if c.isDigit ∧ c ≠ '0' then none
    else some ([.char c (escaped c)], rest)

theorem length_le_of_readUnit? {cs rest : List Char} {piece : Piece}
    (h : readUnit? cs = some (piece, rest)) : rest.length ≤ cs.length := by
  unfold readUnit? at h
  split at h
  · split at h
    · obtain ⟨-, rfl⟩ := Prod.mk.inj (Option.some.inj h)
      simp only [List.length_cons]
      omega
    · cases h
  · cases h

theorem length_le_of_readByte? {cs rest : List Char} {piece : Piece}
    (h : readByte? cs = some (piece, rest)) : rest.length ≤ cs.length := by
  unfold readByte? at h
  split at h
  · split at h
    · obtain ⟨-, rfl⟩ := Prod.mk.inj (Option.some.inj h)
      simp only [List.length_cons]
      omega
    · cases h
  · cases h

theorem length_le_of_readEscape? {cs rest : List Char} {pieces : List Piece}
    (h : readEscape? cs = some (pieces, rest)) : rest.length ≤ cs.length := by
  unfold readEscape? at h
  split at h
  · cases h
  · obtain ⟨-, rfl⟩ := Prod.mk.inj (Option.some.inj h)
    simp only [List.length_cons]
    omega
  · obtain ⟨⟨piece, rest'⟩, hByte, hEq⟩ := Option.map_eq_some_iff.mp h
    obtain ⟨-, rfl⟩ := Prod.mk.inj hEq
    exact Nat.le_succ_of_le (length_le_of_readByte? hByte)
  · obtain ⟨⟨piece, rest'⟩, hUnit, hEq⟩ := Option.map_eq_some_iff.mp h
    obtain ⟨-, rfl⟩ := Prod.mk.inj hEq
    exact Nat.le_succ_of_le (length_le_of_readUnit? hUnit)
  · split at h
    · obtain ⟨-, rfl⟩ := Prod.mk.inj (Option.some.inj h)
      simp
    · split at h
      · cases h
      · obtain ⟨-, rfl⟩ := Prod.mk.inj (Option.some.inj h)
        simp

def readString? (q : Char) (cs : List Char) : Option (List Piece × List Char) :=
  match cs with
  | [] => none
  | c :: rest =>
    if c = q then some ([], rest)
    else if c = '\\' then
      match _h : readEscape? rest with
      | none => none
      | some (pieces, rest) =>
        (readString? q rest).map fun (more, rest) => (pieces ++ more, rest)
    else if isLineEnd c then none
    else (readString? q rest).map fun (more, rest) => (.char c c :: more, rest)
termination_by cs.length
decreasing_by
  · exact Nat.lt_succ_of_le (length_le_of_readEscape? _h)
  · simp

def readNamePiece? (first : Bool) (cs : List Char) : Option (Piece × List Char) :=
  match cs with
  | '\\' :: 'u' :: rest => readUnit? rest
  | c :: rest =>
    if isNameStart c || (!first && isNamePart c) then some (.char c c, rest) else none
  | [] => none

theorem length_lt_of_readNamePiece? {first : Bool} {cs rest : List Char} {piece : Piece}
    (h : readNamePiece? first cs = some (piece, rest)) : rest.length < cs.length := by
  unfold readNamePiece? at h
  split at h
  · have hRest := length_le_of_readUnit? h
    simp only [List.length_cons]
    omega
  · split at h
    · obtain ⟨-, rfl⟩ := Prod.mk.inj (Option.some.inj h)
      simp
    · cases h
  · cases h

def readName (first : Bool) (cs : List Char) : List Piece × List Char :=
  match _h : readNamePiece? first cs with
  | none => ([], cs)
  | some (piece, rest) =>
    let (more, rest) := readName false rest
    (piece :: more, rest)
termination_by cs.length
decreasing_by exact length_lt_of_readNamePiece? _h

def readSign : List Char → Sign × List Char
  | '+' :: cs => (.plus, cs)
  | '-' :: cs => (.minus, cs)
  | cs => (.none, cs)

def readExponent (cs : List Char) : Option (Sign × List Char) × List Char :=
  match cs with
  | e :: rest =>
    let (sign, digits) := readSign rest
    if (e = 'e' ∨ e = 'E') ∧ digits.takeWhile Char.isDigit ≠ [] then
      (some (sign, digits.takeWhile Char.isDigit), digits.dropWhile Char.isDigit)
    else (none, cs)
  | [] => (none, [])

/-- Reads the digits in front of a point: a zero alone, or digits that start with no zero. -/
def readWhole (cs : List Char) : List Char × List Char :=
  match cs with
  | '0' :: rest => (['0'], rest)
  | cs => (cs.takeWhile Char.isDigit, cs.dropWhile Char.isDigit)

/-- Reads a decimal number with digits on at least one side of its point. -/
def readDecimal? (cs : List Char) : Option (Magnitude × List Char) :=
  let (whole, rest) := readWhole cs
  match rest with
  | '.' :: rest =>
    let fraction := rest.takeWhile Char.isDigit
    if whole = [] ∧ fraction = [] then none
    else
      let (exponent, rest) := readExponent (rest.dropWhile Char.isDigit)
      some (.decimal whole (some fraction) exponent, rest)
  | rest =>
    if whole = [] then none
    else
      let (exponent, rest) := readExponent rest
      some (.decimal whole none exponent, rest)

def readMagnitude? (cs : List Char) : Option (Magnitude × List Char) :=
  match cs with
  | '0' :: x :: rest =>
    if (x = 'x' ∨ x = 'X') ∧ rest.takeWhile isHexDigit ≠ [] then
      some (.hex (rest.takeWhile isHexDigit), rest.dropWhile isHexDigit)
    else readDecimal? cs
  | 'I' :: 'n' :: 'f' :: 'i' :: 'n' :: 'i' :: 't' :: 'y' :: rest => some (.infinity, rest)
  | 'N' :: 'a' :: 'N' :: rest => some (.notANumber, rest)
  | cs => readDecimal? cs

def readNumber? (cs : List Char) : Option (Token × List Char) :=
  let (sign, digits) := readSign cs
  (readMagnitude? digits).map fun (magnitude, rest) => (.number ⟨sign, magnitude⟩, rest)

def readToken? (cs : List Char) : Option (Token × List Char) :=
  match cs with
  | '[' :: rest => some (.openBracket, rest)
  | ']' :: rest => some (.closeBracket, rest)
  | '{' :: rest => some (.openBrace, rest)
  | '}' :: rest => some (.closeBrace, rest)
  | ':' :: rest => some (.colon, rest)
  | ',' :: rest => some (.comma, rest)
  | '"' :: rest => (readString? '"' rest).map fun (pieces, rest) => (.string pieces, rest)
  | '\'' :: rest => (readString? '\'' rest).map fun (pieces, rest) => (.string pieces, rest)
  | cs =>
    match readName true cs with
    | ([], _) => readNumber? cs
    | (pieces, rest) => some (.name pieces, rest)

def afterBlockComment? : List Char → Option (List Char)
  | [] => none
  | '*' :: '/' :: cs => some cs
  | _ :: cs => afterBlockComment? cs

def afterFiller? (cs : List Char) : Option (List Char) :=
  match cs with
  | '/' :: '/' :: rest => some (rest.dropWhile fun c => !isLineEnd c)
  | '/' :: '*' :: rest => afterBlockComment? rest
  | c :: rest => if isBlank c then some rest else none
  | [] => none

theorem length_le_of_readString? {q : Char} {cs rest : List Char} {pieces : List Piece}
    (h : readString? q cs = some (pieces, rest)) : rest.length ≤ cs.length := by
  fun_induction readString? q cs generalizing pieces with
  | case1 => cases h
  | case2 =>
    obtain ⟨-, rfl⟩ := Prod.mk.inj (Option.some.inj h)
    simp
  | case3 => cases h
  | case4 tail inner mid hEscape _ ih =>
    obtain ⟨⟨more, rest'⟩, hRead, hEq⟩ := Option.map_eq_some_iff.mp h
    obtain ⟨-, rfl⟩ := Prod.mk.inj hEq
    have hMid := length_le_of_readEscape? hEscape
    have hRest := ih hRead
    simp only [List.length_cons]
    omega
  | case5 => cases h
  | case6 c tail _ _ _ ih =>
    obtain ⟨⟨more, rest'⟩, hRead, hEq⟩ := Option.map_eq_some_iff.mp h
    obtain ⟨-, rfl⟩ := Prod.mk.inj hEq
    exact Nat.le_succ_of_le (ih hRead)

theorem length_readName_le (first : Bool) (cs : List Char) :
    (readName first cs).2.length ≤ cs.length := by
  fun_induction readName first cs with
  | case1 => simp
  | case2 first cs piece rest hPiece more rest' hRead ih =>
    have hRest := length_lt_of_readNamePiece? hPiece
    rw [hRead] at ih
    exact Nat.le_trans ih (Nat.le_of_lt hRest)

theorem length_readName_lt {first : Bool} {cs : List Char} (h : (readName first cs).1 ≠ []) :
    (readName first cs).2.length < cs.length := by
  fun_cases readName first cs with
  | case1 hPiece =>
    rw [readName] at h
    split at h
    · exact absurd rfl h
    · rename_i hSome
      rw [hPiece] at hSome
      cases hSome
  | case2 piece rest hPiece more rest' hRead =>
    have hRest := length_readName_le false rest
    rw [hRead] at hRest
    exact Nat.lt_of_le_of_lt hRest (length_lt_of_readNamePiece? hPiece)

theorem length_dropWhile_le (p : Char → Bool) (cs : List Char) :
    (cs.dropWhile p).length ≤ cs.length :=
  (List.dropWhile_suffix p).length_le

theorem length_dropWhile_lt {p : Char → Bool} {cs : List Char} (h : cs.takeWhile p ≠ []) :
    (cs.dropWhile p).length < cs.length := by
  have hWhole := congrArg List.length (List.takeWhile_append_dropWhile (p := p) (l := cs))
  have hPos := List.length_pos_iff.mpr h
  rw [List.length_append] at hWhole
  omega

theorem length_readSign_le (cs : List Char) : (readSign cs).2.length ≤ cs.length := by
  unfold readSign
  split
  · exact Nat.le_succ _
  · exact Nat.le_succ _
  · exact Nat.le_refl _

theorem length_readExponent_le (cs : List Char) : (readExponent cs).2.length ≤ cs.length := by
  unfold readExponent
  split
  · rename_i e rest
    dsimp only
    split
    · have hSign := length_readSign_le rest
      have hDrop := length_dropWhile_le Char.isDigit (readSign rest).2
      simp only [List.length_cons]
      omega
    · exact Nat.le_refl _
  · exact Nat.le_refl _

theorem length_readWhole_le (cs : List Char) : (readWhole cs).2.length ≤ cs.length := by
  unfold readWhole
  split
  · simp
  · exact length_dropWhile_le Char.isDigit _

theorem length_readWhole_lt {cs : List Char} (h : (readWhole cs).1 ≠ []) :
    (readWhole cs).2.length < cs.length := by
  unfold readWhole at h ⊢
  split
  · simp
  · rename_i hZero
    split at h
    · exact absurd rfl (hZero _)
    · exact length_dropWhile_lt h

theorem length_lt_of_readDecimal? {cs rest : List Char} {m : Magnitude}
    (h : readDecimal? cs = some (m, rest)) : rest.length < cs.length := by
  have hLe := length_readWhole_le cs
  have hLt := @length_readWhole_lt cs
  dsimp only [readDecimal?] at h
  split at h
  · rename_i tail hTail
    split at h
    · cases h
    · obtain ⟨-, rfl⟩ := Prod.mk.inj (Option.some.inj h)
      have hExp := length_readExponent_le (tail.dropWhile Char.isDigit)
      have hDrop := length_dropWhile_le Char.isDigit tail
      rw [hTail, List.length_cons] at hLe
      omega
  · split at h
    · cases h
    · rename_i hWhole
      obtain ⟨-, rfl⟩ := Prod.mk.inj (Option.some.inj h)
      have hExp := length_readExponent_le (readWhole cs).2
      have hShort := hLt hWhole
      omega

theorem length_lt_of_readMagnitude? {cs rest : List Char} {m : Magnitude}
    (h : readMagnitude? cs = some (m, rest)) : rest.length < cs.length := by
  unfold readMagnitude? at h
  split at h
  · rename_i x tail
    split at h
    · obtain ⟨-, rfl⟩ := Prod.mk.inj (Option.some.inj h)
      have hDrop := length_dropWhile_le isHexDigit tail
      simp only [List.length_cons]
      omega
    · exact length_lt_of_readDecimal? h
  · obtain ⟨-, rfl⟩ := Prod.mk.inj (Option.some.inj h)
    simp only [List.length_cons]
    omega
  · obtain ⟨-, rfl⟩ := Prod.mk.inj (Option.some.inj h)
    simp only [List.length_cons]
    omega
  · exact length_lt_of_readDecimal? h

theorem length_lt_of_readNumber? {cs rest : List Char} {token : Token}
    (h : readNumber? cs = some (token, rest)) : rest.length < cs.length := by
  dsimp only [readNumber?] at h
  obtain ⟨⟨m, rest'⟩, hMagnitude, hEq⟩ := Option.map_eq_some_iff.mp h
  obtain ⟨-, rfl⟩ := Prod.mk.inj hEq
  exact Nat.lt_of_lt_of_le (length_lt_of_readMagnitude? hMagnitude) (length_readSign_le cs)

theorem length_lt_of_readToken? {cs rest : List Char} {token : Token}
    (h : readToken? cs = some (token, rest)) : rest.length < cs.length := by
  unfold readToken? at h
  split at h
  · obtain ⟨-, rfl⟩ := Prod.mk.inj (Option.some.inj h)
    simp
  · obtain ⟨-, rfl⟩ := Prod.mk.inj (Option.some.inj h)
    simp
  · obtain ⟨-, rfl⟩ := Prod.mk.inj (Option.some.inj h)
    simp
  · obtain ⟨-, rfl⟩ := Prod.mk.inj (Option.some.inj h)
    simp
  · obtain ⟨-, rfl⟩ := Prod.mk.inj (Option.some.inj h)
    simp
  · obtain ⟨-, rfl⟩ := Prod.mk.inj (Option.some.inj h)
    simp
  · obtain ⟨⟨pieces, rest'⟩, hString, hEq⟩ := Option.map_eq_some_iff.mp h
    obtain ⟨-, rfl⟩ := Prod.mk.inj hEq
    exact Nat.lt_succ_of_le (length_le_of_readString? hString)
  · obtain ⟨⟨pieces, rest'⟩, hString, hEq⟩ := Option.map_eq_some_iff.mp h
    obtain ⟨-, rfl⟩ := Prod.mk.inj hEq
    exact Nat.lt_succ_of_le (length_le_of_readString? hString)
  · split at h
    · exact length_lt_of_readNumber? h
    · rename_i pieces rest' hPieces hName
      obtain ⟨-, rfl⟩ := Prod.mk.inj (Option.some.inj h)
      have hShort := @length_readName_lt true cs
      rw [hName] at hShort
      exact hShort hPieces

theorem length_lt_of_afterBlockComment? {cs rest : List Char}
    (h : afterBlockComment? cs = some rest) : rest.length < cs.length := by
  fun_induction afterBlockComment? cs with
  | case1 => cases h
  | case2 tail =>
    obtain rfl := Option.some.inj h
    simp only [List.length_cons]
    omega
  | case3 _ _ _ ih => exact Nat.lt_succ_of_lt (ih h)

theorem length_lt_of_afterFiller? {cs rest : List Char} (h : afterFiller? cs = some rest) :
    rest.length < cs.length := by
  unfold afterFiller? at h
  split at h
  · rename_i tail
    obtain rfl := Option.some.inj h
    have hDrop := length_dropWhile_le (fun c => !isLineEnd c) tail
    simp only [List.length_cons]
    omega
  · have hBlock := length_lt_of_afterBlockComment? h
    simp only [List.length_cons]
    omega
  · split at h
    · obtain rfl := Option.some.inj h
      simp
    · cases h
  · cases h

def tokens? (cs : List Char) : Option (List Token) :=
  match cs with
  | [] => some []
  | c :: rest =>
    match _hFiller : afterFiller? (c :: rest) with
    | some rest => tokens? rest
    | none =>
      match _hToken : readToken? (c :: rest) with
      | none => none
      | some (token, rest) => (tokens? rest).map (token :: ·)
termination_by cs.length
decreasing_by
  · exact length_lt_of_afterFiller? _hFiller
  · exact length_lt_of_readToken? _hToken

end ExplicitModules.Json5
