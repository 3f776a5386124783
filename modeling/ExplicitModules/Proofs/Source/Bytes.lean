import ExplicitModules.Proofs.Source.Clause

/-!
# Reading bytes

A text can be read byte by byte, each byte taken for the character with its number. The bytes of a
character outside ASCII are all read like letters, so every reader stops where it stops in the text,
between two characters, even where a backslash takes only the first byte of a character with it.
-/
namespace ExplicitModules.Source
set_option autoImplicit false
open Text

/-- The bytes of a character, each as the character with its number. -/
def charBytes (c : Char) : List Char :=
  (String.utf8EncodeChar c).map fun b => Char.ofNat b.toNat

def bytes (cs : List Char) : List Char :=
  cs.flatMap charBytes

def isAscii (c : Char) : Bool :=
  decide (c.toNat < 0x80)

theorem charBytes_of_ascii {c : Char} (h : isAscii c = true) : charBytes c = [c] := by
  have hLt : c.val.toNat < 0x80 := of_decide_eq_true h
  have hByte : (UInt8.ofNat c.val.toNat).toNat = c.toNat := by
    rw [UInt8.toNat_ofNat']
    exact Nat.mod_eq_of_lt (by omega)
  unfold charBytes String.utf8EncodeChar
  dsimp only
  rw [if_pos (by omega), List.map_singleton, hByte]
  simp

theorem exists_charBytes (c : Char) : ∃ d ds, charBytes c = d :: ds := by
  unfold charBytes String.utf8EncodeChar
  dsimp only
  split
  · exact ⟨_, _, rfl⟩
  · split
    · exact ⟨_, _, rfl⟩
    · split <;> exact ⟨_, _, rfl⟩

theorem not_isAscii_ofNat {n : Nat} (hLow : 0x80 ≤ n) (hHigh : n < 0x100) :
    isAscii (Char.ofNat (UInt8.ofNat n).toNat) = false := by
  have hByte : (UInt8.ofNat n).toNat = n := by
    rw [UInt8.toNat_ofNat']
    exact Nat.mod_eq_of_lt hHigh
  have hValid : n.isValidChar := Or.inl (by omega)
  have hNat : (Char.ofNatAux n hValid).toNat = n := rfl
  rw [hByte, isAscii, Char.ofNat, dif_pos hValid, hNat]
  exact decide_eq_false (Nat.not_lt.mpr hLow)

theorem not_isAscii_of_mem_charBytes {c d : Char} (h : isAscii c = false) (hD : d ∈ charBytes c) :
    isAscii d = false := by
  have hGe : 0x80 ≤ c.val.toNat := Nat.le_of_not_lt (of_decide_eq_false h)
  unfold charBytes String.utf8EncodeChar at hD
  dsimp only at hD
  rw [if_neg (by omega)] at hD
  split at hD
  · simp only [List.map_cons, List.map_nil, List.mem_cons, List.not_mem_nil, or_false] at hD
    rcases hD with rfl | rfl <;> exact not_isAscii_ofNat (by omega) (by omega)
  · split at hD
    · simp only [List.map_cons, List.map_nil, List.mem_cons, List.not_mem_nil, or_false] at hD
      rcases hD with rfl | rfl | rfl <;> exact not_isAscii_ofNat (by omega) (by omega)
    · simp only [List.map_cons, List.map_nil, List.mem_cons, List.not_mem_nil, or_false] at hD
      rcases hD with rfl | rfl | rfl | rfl <;> exact not_isAscii_ofNat (by omega) (by omega)

theorem ne_of_isAscii {c d : Char} (hC : isAscii c = false) (hD : isAscii d = true) : c ≠ d := by
  rintro rfl
  rw [hC] at hD
  cases hD

/-- No reader tells one character from another if neither is ASCII. -/
theorem class_of_not_ascii {c : Char} (h : isAscii c = false) :
    isWordChar c = true ∧ isSpace c = false ∧ isQuote c = false ∧ c.isAlpha = false := by
  have hGe : 0x80 ≤ c.toNat := Nat.le_of_not_lt (of_decide_eq_false h)
  have hNe : ∀ d : Char, isAscii d = true → (c == d) = false := fun d hD =>
    beq_eq_false_iff_ne.mpr (ne_of_isAscii h hD)
  refine ⟨?_, ?_, ?_, ?_⟩
  · simp [isWordChar, hGe]
  · simp [isSpace, hNe ' ' rfl, hNe '\t' rfl, hNe '\n' rfl, hNe '\x0c' rfl, hNe '\r' rfl]
  · simp [isQuote, hNe '\'' rfl, hNe '"' rfl]
  · have hVal : 0x80 ≤ c.val.toNat := hGe
    have hUpper : 'Z'.val.toNat = 90 := rfl
    have hLower : 'z'.val.toNat = 122 := rfl
    cases hAlpha : c.isAlpha with
    | false => rfl
    | true =>
      rcases Bool.or_eq_true_iff.mp hAlpha with hCase | hCase
      · have hLe := UInt32.le_iff_toNat_le.mp (of_decide_eq_true hCase).2
        omega
      · have hLe := UInt32.le_iff_toNat_le.mp (of_decide_eq_true (Bool.and_eq_true_iff.mp hCase).2)
        omega

@[simp] theorem bytes_nil : bytes [] = [] := rfl

theorem bytes_cons (c : Char) (cs : List Char) : bytes (c :: cs) = charBytes c ++ bytes cs := by
  simp [bytes]

@[simp] theorem bytes_append (cs ds : List Char) : bytes (cs ++ ds) = bytes cs ++ bytes ds := by
  simp [bytes]

theorem bytes_cons_of_ascii {c : Char} (h : isAscii c = true) (cs : List Char) :
    bytes (c :: cs) = c :: bytes cs := by
  rw [bytes_cons, charBytes_of_ascii h]
  rfl

theorem head?_bytes {d : Char} (hD : isAscii d = true) (cs : List Char) :
    (bytes cs).head? = some d ↔ cs.head? = some d := by
  cases cs with
  | nil => simp
  | cons c cs =>
    cases hC : isAscii c with
    | true => rw [bytes_cons_of_ascii hC, List.head?_cons, List.head?_cons]
    | false =>
      obtain ⟨e, es, hBytes⟩ := exists_charBytes c
      have hE := not_isAscii_of_mem_charBytes hC (hBytes ▸ List.mem_cons_self)
      rw [bytes_cons, hBytes]
      simp [ne_of_isAscii hC hD, ne_of_isAscii hE hD]

/-- The first byte of a text and its first character are of one kind. -/
theorem exists_bytes_cons (c : Char) (cs : List Char) :
    ∃ d ds, bytes (c :: cs) = d :: ds ∧ (isAscii c = true → d = c) ∧
      (isAscii c = false → isAscii d = false) := by
  obtain ⟨d, ds, hBytes⟩ := exists_charBytes c
  refine ⟨d, ds ++ bytes cs, ?_, ?_, ?_⟩
  · rw [bytes_cons, hBytes]
    rfl
  · intro hC
    rw [charBytes_of_ascii hC, List.cons.injEq] at hBytes
    exact hBytes.1.symm
  · intro hC
    exact not_isAscii_of_mem_charBytes hC (hBytes ▸ List.mem_cons_self)

theorem bytes_of_ascii {cs : List Char} (h : ∀ c ∈ cs, isAscii c = true) : bytes cs = cs := by
  induction cs with
  | nil => rfl
  | cons c cs ih =>
    rw [List.forall_mem_cons] at h
    rw [bytes_cons_of_ascii h.1, ih h.2]

theorem bytes_eq_iff {k : List Char} (hK : ∀ c ∈ k, isAscii c = true) (w : List Char) :
    bytes w = k ↔ w = k := by
  constructor
  · intro h
    induction w generalizing k with
    | nil => exact h
    | cons c w ih =>
      cases hC : isAscii c with
      | true =>
        rw [bytes_cons_of_ascii hC] at h
        subst h
        rw [List.forall_mem_cons] at hK
        exact congrArg (c :: ·) (ih hK.2 rfl)
      | false =>
        obtain ⟨d, ds, hBytes, -, hHigh⟩ := exists_bytes_cons c w
        rw [hBytes] at h
        subst h
        have hD := hK d List.mem_cons_self
        rw [hHigh hC] at hD
        cases hD
  · rintro rfl
    exact bytes_of_ascii hK

theorem length_bytes (cs : List Char) : (bytes cs).length = utf8Length cs := by
  induction cs with
  | nil => rfl
  | cons c cs ih =>
    rw [bytes_cons, List.length_append, charBytes, List.length_map, String.length_utf8EncodeChar, ih,
      utf8Length_cons]

/-- Line ends are counted in the bytes as in the text. -/
theorem count_bytes (cs : List Char) : (bytes cs).count '\n' = cs.count '\n' := by
  induction cs with
  | nil => rfl
  | cons c cs ih =>
    rw [bytes_cons, List.count_append, ih, List.count_cons, Nat.add_comm]
    congr 1
    cases hC : isAscii c with
    | true => rw [charBytes_of_ascii hC, List.count_singleton]
    | false =>
      have hNone : '\n' ∉ charBytes c := fun hMem =>
        absurd (not_isAscii_of_mem_charBytes hC hMem) (by decide)
      rw [List.count_eq_zero.mpr hNone, if_neg (by simpa using ne_of_isAscii hC rfl)]

/-- A test that takes all characters outside ASCII alike. -/
def IsByteTest (p : Char → Bool) : Prop :=
  ∀ c d, isAscii c = false → isAscii d = false → p c = p d

section While

variable {p : Char → Bool} (hTest : IsByteTest p)
include hTest

theorem all_charBytes {c : Char} (hC : p c = true) : ∀ d ∈ charBytes c, p d = true := by
  intro d hD
  cases hAscii : isAscii c with
  | true =>
    rw [charBytes_of_ascii hAscii, List.mem_singleton] at hD
    rw [hD, hC]
  | false => rw [hTest d c (not_isAscii_of_mem_charBytes hAscii hD) hAscii, hC]

theorem exists_charBytes_of_false {c : Char} (hC : p c = false) :
    ∃ d ds, charBytes c = d :: ds ∧ p d = false := by
  obtain ⟨d, ds, hBytes⟩ := exists_charBytes c
  refine ⟨d, ds, hBytes, ?_⟩
  cases hAscii : isAscii c with
  | true =>
    rw [charBytes_of_ascii hAscii, List.cons.injEq] at hBytes
    rw [← hBytes.1, hC]
  | false =>
    have hD := not_isAscii_of_mem_charBytes hAscii (hBytes ▸ List.mem_cons_self)
    rw [hTest d c hD hAscii, hC]

theorem dropWhile_bytes (cs : List Char) : (bytes cs).dropWhile p = bytes (cs.dropWhile p) := by
  induction cs with
  | nil => rfl
  | cons c cs ih =>
    cases hC : p c with
    | true =>
      rw [bytes_cons, List.dropWhile_append_of_pos (all_charBytes hTest hC), ih,
        List.dropWhile_cons, if_pos hC]
    | false =>
      obtain ⟨d, ds, hBytes, hD⟩ := exists_charBytes_of_false hTest hC
      rw [List.dropWhile_cons, hC, if_neg Bool.false_ne_true, bytes_cons, hBytes, List.cons_append,
        List.dropWhile_cons, hD, if_neg Bool.false_ne_true]

end While

theorem isWordChar_byteTest : IsByteTest isWordChar := by
  intro c d hC hD
  rw [(class_of_not_ascii hC).1, (class_of_not_ascii hD).1]

theorem isQuote_byteTest : IsByteTest isQuote := by
  intro c d hC hD
  rw [(class_of_not_ascii hC).2.2.1, (class_of_not_ascii hD).2.2.1]

theorem isAlpha_byteTest : IsByteTest Char.isAlpha := by
  intro c d hC hD
  rw [(class_of_not_ascii hC).2.2.2, (class_of_not_ascii hD).2.2.2]

theorem test_bytes_head {p : Char → Bool} (hTest : IsByteTest p) {c d : Char}
    (hAscii : isAscii c = true → d = c) (hHigh : isAscii c = false → isAscii d = false) :
    p d = p c := by
  cases hC : isAscii c with
  | true => rw [hAscii hC]
  | false => exact hTest d c (hHigh hC) hC

theorem any_isQuote_bytes (cs : List Char) :
    (bytes cs).head?.any isQuote = cs.head?.any isQuote := by
  cases cs with
  | nil => rfl
  | cons c cs =>
    obtain ⟨d, ds, hBytes, hAscii, hHigh⟩ := exists_bytes_cons c cs
    rw [hBytes]
    exact test_bytes_head isQuote_byteTest hAscii hHigh

theorem afterLine_bytes (cs : List Char) : afterLine (bytes cs) = bytes (afterLine cs) := by
  refine dropWhile_bytes ?_ cs
  intro c d hC hD
  have hNotC : (c != '\n') = true := bne_iff_ne.mpr (ne_of_isAscii hC rfl)
  have hNotD : (d != '\n') = true := bne_iff_ne.mpr (ne_of_isAscii hD rfl)
  exact hNotC.trans hNotD.symm

theorem afterWord_bytes (cs : List Char) : afterWord (bytes cs) = bytes (afterWord cs) :=
  dropWhile_bytes isWordChar_byteTest cs

/-- A reader that goes on behind any byte of a character outside ASCII. -/
theorem skip_bytes {α : Type} {read : List Char → α}
    (hSkip : ∀ d cs, isAscii d = false → read (d :: cs) = read cs) {c : Char}
    (hC : isAscii c = false) (cs : List Char) : read (charBytes c ++ cs) = read cs := by
  have hAll : ∀ ds : List Char, (∀ d ∈ ds, isAscii d = false) → read (ds ++ cs) = read cs := by
    intro ds hDs
    induction ds with
    | nil => rfl
    | cons d ds ih =>
      rw [List.forall_mem_cons] at hDs
      rw [List.cons_append, hSkip d _ hDs.1, ih hDs.2]
  exact hAll _ fun d hD => not_isAscii_of_mem_charBytes hC hD

/-- Such a reader does not care whether a character or only its first byte has been taken away. -/
theorem skip_escaped {α : Type} {read : List Char → α}
    (hSkip : ∀ d cs, isAscii d = false → read (d :: cs) = read cs) (c : Char) (cs : List Char) :
    read ((bytes (c :: cs)).drop 1) = read (bytes cs) := by
  obtain ⟨d, ds, hBytes⟩ := exists_charBytes c
  rw [bytes_cons, hBytes, List.cons_append, List.drop_one, List.tail_cons]
  cases hC : isAscii c with
  | true =>
    rw [charBytes_of_ascii hC, List.cons.injEq] at hBytes
    rw [← hBytes.2, List.nil_append]
  | false =>
    have hD := not_isAscii_of_mem_charBytes hC (hBytes ▸ List.mem_cons_self)
    rw [← hSkip d _ hD, ← List.cons_append, ← hBytes, skip_bytes hSkip hC]

theorem afterBlock_bytes (cs : List Char) : afterBlock (bytes cs) = bytes (afterBlock cs) := by
  fun_induction afterBlock cs with
  | case1 => rfl
  | case2 cs =>
    rw [bytes_cons_of_ascii rfl, bytes_cons_of_ascii rfl, afterBlock]
  | case3 c cs hClose ih =>
    cases hC : isAscii c with
    | true =>
      rw [bytes_cons_of_ascii hC, ← ih]
      by_cases hStar : c = '*'
      · apply afterBlock_cons_of_next
        rw [Ne, head?_bytes rfl]
        intro hSlash
        obtain ⟨rest, rfl⟩ := List.head?_eq_some_iff.mp hSlash
        exact hClose rest hStar rfl
      · exact afterBlock_cons_of_ne hStar _
    | false =>
      have hSkip : ∀ d ds, isAscii d = false → afterBlock (d :: ds) = afterBlock ds :=
        fun d ds hD => afterBlock_cons_of_ne (ne_of_isAscii hD rfl) ds
      rw [bytes_cons, skip_bytes hSkip hC, ih]

theorem afterComment?_bytes (cs : List Char) :
    afterComment? (bytes cs) = (afterComment? cs).map bytes := by
  by_cases hFirst : cs.head? = some '/'
  · obtain ⟨ds, rfl⟩ := List.head?_eq_some_iff.mp hFirst
    rw [bytes_cons_of_ascii rfl]
    by_cases hLine : ds.head? = some '/'
    · obtain ⟨es, rfl⟩ := List.head?_eq_some_iff.mp hLine
      rw [bytes_cons_of_ascii rfl, afterComment?, afterComment?, afterLine_bytes, Option.map_some]
    · by_cases hBlock : ds.head? = some '*'
      · obtain ⟨es, rfl⟩ := List.head?_eq_some_iff.mp hBlock
        rw [bytes_cons_of_ascii rfl, afterComment?, afterComment?, afterBlock_bytes, Option.map_some]
      · rw [afterComment?_of_next hLine hBlock, afterComment?_of_next]
        · rfl
        · rwa [Ne, head?_bytes rfl]
        · rwa [Ne, head?_bytes rfl]
  · rw [afterComment?_of_head hFirst, afterComment?_of_head]
    · rfl
    · rwa [Ne, head?_bytes rfl]

theorem readQuoted_high {q : Char} (hQ : isAscii q = true) {ds : List Char}
    (hDs : ∀ d ∈ ds, isAscii d = false) (cs : List Char) :
    readQuoted q (ds ++ cs) = ((readQuoted q cs).1.map (ds ++ ·), (readQuoted q cs).2) := by
  induction ds with
  | nil => simp
  | cons d ds ih =>
    rw [List.forall_mem_cons] at hDs
    rw [List.cons_append, readQuoted_cons_of_ne (ne_of_isAscii hDs.1 rfl) (ne_of_isAscii hDs.1 hQ)
      (ne_of_isAscii hDs.1 rfl), ih hDs.2]
    simp [Function.comp_def]

theorem readQuoted_bytes {q : Char} (hQ : isAscii q = true) (cs : List Char) :
    readQuoted q (bytes cs) = ((readQuoted q cs).1.map bytes, bytes (readQuoted q cs).2) := by
  have hHigh : ∀ c, isAscii c = false → ∀ d ∈ charBytes c, isAscii d = false :=
    fun c hC d hD => not_isAscii_of_mem_charBytes hC hD
  fun_induction readQuoted q cs with
  | case1 => rfl
  | case2 => rfl
  | case3 c cs body rest hRead ih =>
    rw [hRead] at ih
    rw [bytes_cons_of_ascii rfl, bytes_cons]
    obtain ⟨d, ds, hBytes⟩ := exists_charBytes c
    -- the first byte is escaped, the others are read as they are
    have hRest : readQuoted q (ds ++ bytes cs) = (body.map fun body => ds ++ bytes body, bytes rest) := by
      cases hC : isAscii c with
      | true =>
        rw [charBytes_of_ascii hC, List.cons.injEq] at hBytes
        rw [← hBytes.2]
        exact ih.trans (by cases body <;> rfl)
      | false =>
        have hDs : ∀ e ∈ ds, isAscii e = false := fun e hE =>
          hHigh c hC e (hBytes ▸ List.mem_cons_of_mem d hE)
        rw [readQuoted_high hQ hDs, ih]
        simp [Function.comp_def]
    rw [hBytes, List.cons_append, readQuoted, hRest]
    simp [Function.comp_def, bytes_cons_of_ascii (c := '\\') rfl, bytes_cons, hBytes]
  | case4 cs hLast hEscape =>
    rw [bytes_cons_of_ascii hQ, readQuoted_cons_quote (ne_backslash hLast hEscape)]
    rfl
  | case5 cs _ _ hQuote =>
    rw [bytes_cons_of_ascii rfl, readQuoted_cons_line (Ne.symm hQuote)]
    rfl
  | case6 c cs hLast hEscape hQuote hLine body rest hRead ih =>
    rw [hRead] at ih
    rw [bytes_cons]
    cases hC : isAscii c with
    | true =>
      rw [charBytes_of_ascii hC, List.singleton_append,
        readQuoted_cons_of_ne (ne_backslash hLast hEscape) hQuote hLine, ih]
      simp [Function.comp_def, bytes_cons, charBytes_of_ascii hC]
    | false =>
      rw [readQuoted_high hQ (hHigh c hC), ih]
      simp [Function.comp_def, bytes_cons]

theorem afterRegex_bytes (inClass : Bool) (cs : List Char) :
    afterRegex inClass (bytes cs) = bytes (afterRegex inClass cs) := by
  have hSkip : ∀ inClass d ds, isAscii d = false →
      afterRegex inClass (d :: ds) = afterRegex inClass ds :=
    fun inClass d ds hD => afterRegex_cons_of_ne (ne_of_isAscii hD rfl) (ne_of_isAscii hD rfl)
      (ne_of_isAscii hD rfl) (ne_of_isAscii hD rfl) (ne_of_isAscii hD rfl) inClass ds
  fun_induction afterRegex inClass cs with
  | case1 => rfl
  | case2 => rfl
  | case3 inClass c cs ih =>
    have hRest := skip_escaped (hSkip inClass) c cs
    obtain ⟨d, ds, hBytes⟩ := exists_charBytes c
    rw [bytes_cons, hBytes, List.cons_append, List.drop_one, List.tail_cons] at hRest
    rw [bytes_cons_of_ascii rfl, bytes_cons, hBytes, List.cons_append, afterRegex, hRest, ih]
  | case4 => rfl
  | case5 inClass cs ih =>
    rw [bytes_cons_of_ascii rfl, afterRegex, ih]
  | case6 inClass cs ih =>
    rw [bytes_cons_of_ascii rfl, afterRegex, ih]
  | case7 cs ih =>
    rw [bytes_cons_of_ascii rfl, afterRegex, if_pos rfl, ih]
  | case8 inClass cs hOut =>
    rw [bytes_cons_of_ascii rfl, afterRegex, if_neg hOut, dropWhile_bytes isAlpha_byteTest]
  | case9 inClass c cs hLast hEscape hLine hOpen hClose hSlash ih =>
    rw [bytes_cons]
    cases hC : isAscii c with
    | true =>
      rw [charBytes_of_ascii hC, List.singleton_append,
        afterRegex_cons_of_ne (ne_backslash hLast hEscape) hLine hOpen hClose hSlash, ih]
    | false => rw [skip_bytes (hSkip inClass) hC, ih]

theorem afterOpen_cons_of_not_ascii {c : Char} (h : isAscii c = false) (o : Opener)
    (outer : List Opener) (cs : List Char) :
    afterOpen (o :: outer) (c :: cs) = afterOpen (o :: outer) cs := by
  have hNe : ∀ d : Char, isAscii d = true → c ≠ d := fun d hD => ne_of_isAscii h hD
  cases o with
  | template =>
    have hNoSubstitution : ¬(c = '$' ∧ cs.head? = some '{') := fun hBoth => hNe '$' rfl hBoth.1
    rw [afterOpen, if_neg (hNe '\\' rfl), if_neg (hNe '`' rfl), if_neg hNoSubstitution]
  | brace =>
    rw [afterOpen_of_no_comment (afterComment?_of_ne (hNe '/' rfl) cs),
      (class_of_not_ascii h).2.2.1, if_neg Bool.false_ne_true, if_neg (hNe '`' rfl),
      if_neg (hNe '{' rfl), if_neg (hNe '}' rfl)]

theorem isAscii_of_isQuote {c : Char} (h : isQuote c = true) : isAscii c = true := by
  cases hC : isAscii c with
  | true => rfl
  | false =>
    rw [(class_of_not_ascii hC).2.2.1] at h
    cases h

theorem isAscii_of_isSpace {c : Char} (h : isSpace c = true) : isAscii c = true := by
  cases hC : isAscii c with
  | true => rfl
  | false =>
    rw [(class_of_not_ascii hC).2.1] at h
    cases h

theorem no_comment_bytes {c : Char} (hC : isAscii c = true) {cs : List Char}
    (h : afterComment? (c :: cs) = none) : afterComment? (c :: bytes cs) = none := by
  rw [← bytes_cons_of_ascii hC, afterComment?_bytes, h]
  rfl

theorem afterOpen_bytes (opened : List Opener) (cs : List Char) :
    afterOpen opened (bytes cs) = bytes (afterOpen opened cs) := by
  have hSkip : ∀ o outer d ds, isAscii d = false →
      afterOpen (o :: outer) (d :: ds) = afterOpen (o :: outer) ds :=
    fun o outer d ds hD => afterOpen_cons_of_not_ascii hD o outer ds
  fun_induction afterOpen opened cs with
  | case1 cs => rw [afterOpen]
  | case2 => rw [bytes_nil, afterOpen]
  | case3 outer cs ih =>
    rw [bytes_cons_of_ascii rfl, afterOpen, if_pos rfl, ← ih]
    cases cs with
    | nil => rfl
    | cons c cs => exact skip_escaped (hSkip _ outer) c cs
  | case4 outer cs _ ih =>
    rw [bytes_cons_of_ascii rfl, afterOpen, if_neg (by decide), if_pos rfl, ih]
  | case5 outer c cs hEscape hTick hDollar ih =>
    obtain ⟨rfl, hBrace⟩ := hDollar
    obtain ⟨ds, rfl⟩ := List.head?_eq_some_iff.mp hBrace
    rw [bytes_cons_of_ascii rfl, bytes_cons_of_ascii rfl, afterOpen, if_neg hEscape, if_neg hTick,
      if_pos ⟨rfl, rfl⟩]
    exact ih
  | case6 outer c cs hEscape hTick hDollar ih =>
    rw [bytes_cons]
    cases hC : isAscii c with
    | true =>
      rw [← head?_bytes rfl] at hDollar
      rw [charBytes_of_ascii hC, List.singleton_append, afterOpen, if_neg hEscape, if_neg hTick,
        if_neg hDollar, ih]
    | false => rw [skip_bytes (hSkip _ outer) hC, ih]
  | case7 outer c cs rest hComment ih =>
    have hBytes : afterComment? (bytes (c :: cs)) = some (bytes rest) := by
      rw [afterComment?_bytes, hComment, Option.map_some]
    rw [afterOpen_of_comment hBytes, ih]
  | case8 outer c cs hComment hQuote ih =>
    have hC := isAscii_of_isQuote hQuote
    rw [bytes_cons_of_ascii hC, afterOpen_of_no_comment (no_comment_bytes hC hComment),
      if_pos hQuote, readQuoted_bytes hC, ih]
  | case9 outer cs hComment hQuote ih =>
    rw [bytes_cons_of_ascii rfl, afterOpen_of_no_comment (no_comment_bytes rfl hComment),
      if_neg hQuote, if_pos rfl, ih]
  | case10 outer cs hComment hQuote hTick ih =>
    rw [bytes_cons_of_ascii rfl, afterOpen_of_no_comment (no_comment_bytes rfl hComment),
      if_neg hQuote, if_neg hTick, if_pos rfl, ih]
  | case11 outer cs hComment hQuote hTick hOpen ih =>
    rw [bytes_cons_of_ascii rfl, afterOpen_of_no_comment (no_comment_bytes rfl hComment),
      if_neg hQuote, if_neg hTick, if_neg hOpen, if_pos rfl, ih]
  | case12 outer c cs hComment hQuote hTick hOpen hClose ih =>
    cases hC : isAscii c with
    | true =>
      rw [bytes_cons_of_ascii hC, afterOpen_of_no_comment (no_comment_bytes hC hComment),
        if_neg hQuote, if_neg hTick, if_neg hOpen, if_neg hClose, ih]
    | false => rw [bytes_cons, skip_bytes (hSkip _ outer) hC, ih]

theorem afterTrivia_cons_of_not_ascii {c : Char} (h : isAscii c = false) (cs : List Char) :
    afterTrivia (c :: cs) = c :: cs :=
  afterTrivia_of_ne (class_of_not_ascii h).2.1 (ne_of_isAscii h rfl) cs

theorem afterTrivia_bytes (cs : List Char) : afterTrivia (bytes cs) = bytes (afterTrivia cs) := by
  fun_induction afterTrivia cs with
  | case1 => rw [bytes_nil, afterTrivia]
  | case2 c cs hSpace ih =>
    have hC := isAscii_of_isSpace hSpace
    rw [bytes_cons_of_ascii hC, afterTrivia_skips.space c _ hSpace, ih]
  | case3 c cs _ rest hComment ih =>
    have hBytes : afterComment? (bytes (c :: cs)) = some (bytes rest) := by
      rw [afterComment?_bytes, hComment, Option.map_some]
    rw [afterTrivia_skips.comment _ _ hBytes, ih]
  | case4 c cs hSpace hComment =>
    have hSpace := Bool.eq_false_iff.mpr hSpace
    cases hC : isAscii c with
    | true =>
      rw [bytes_cons_of_ascii hC, afterTrivia_stop hSpace (no_comment_bytes hC hComment)]
    | false =>
      obtain ⟨d, ds, hBytes⟩ := exists_charBytes c
      have hD := not_isAscii_of_mem_charBytes hC (hBytes ▸ List.mem_cons_self)
      rw [bytes_cons, hBytes, List.cons_append, afterTrivia_cons_of_not_ascii hD]

end ExplicitModules.Source
