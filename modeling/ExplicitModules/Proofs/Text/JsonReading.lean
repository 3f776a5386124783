import ExplicitModules.Json5.Character
import ExplicitModules.Text.Json
import Mathlib.Data.List.TakeWhile

/-!
# Reading JSON objects

A reader of JSON objects without white space, whose members are numbers, truth values, strings and
lists of strings. It is a second view of what is written: a string that is written with its escapes
is read as the string, and a list that is written item by item as the list.
-/
namespace ExplicitModules.Text
set_option autoImplicit false
open Json5 (hexValue isHexDigit)

inductive JsonValue
  | number (n : Nat)
  | boolean (b : Bool)
  | string (text : String)
  | strings (texts : List String)
deriving DecidableEq, Repr

def shortEscape? : Char → Option Char
  | '"' => some '"'
  | '\\' => some '\\'
  | '/' => some '/'
  | 'b' => some '\x08'
  | 'f' => some '\x0c'
  | 'n' => some '\n'
  | 'r' => some '\r'
  | 't' => some '\t'
  | _ => none

/-- Reads the characters of a string up to its closing quote. Controls have to be escaped, and
halves of surrogate pairs are refused. -/
def readCharacters? : List Char → Option (List Char × List Char)
  | [] => none
  | '"' :: rest => some ([], rest)
  | '\\' :: 'u' :: a :: b :: c :: d :: rest =>
    if [a, b, c, d].all isHexDigit = true ∧ (hexValue [a, b, c, d]).isValidChar then
      (readCharacters? rest).map fun (cs, rest) => (Char.ofNat (hexValue [a, b, c, d]) :: cs, rest)
    else none
  | '\\' :: e :: rest =>
    (shortEscape? e).bind fun c => (readCharacters? rest).map fun (cs, rest) => (c :: cs, rest)
  | c :: rest =>
    if c.toNat < 0x20 then none else (readCharacters? rest).map fun (cs, rest) => (c :: cs, rest)

def readString? : List Char → Option (String × List Char)
  | '"' :: rest => (readCharacters? rest).map fun (cs, rest) => (String.ofList cs, rest)
  | _ => none

def readNumber? (cs : List Char) : Option (Nat × List Char) :=
  let digits := cs.takeWhile Char.isDigit
  let n := Nat.ofDigitChars 10 digits 0
  if Nat.toDigits 10 n = digits then some (n, cs.dropWhile Char.isDigit) else none

/-- Reads one item or more with commas between them, up to `stop`. -/
def readItems? {α : Type} (item? : List Char → Option (α × List Char)) (stop : Char)
    (cs : List Char) : Option (List α × List Char) :=
  match item? cs with
  | some (a, c :: rest) =>
    if c = stop then some ([a], rest)
    else if c = ',' ∧ rest.length < cs.length then
      (readItems? item? stop rest).map fun (more, rest) => (a :: more, rest)
    else none
  | _ => none
termination_by cs.length

def readValue? : List Char → Option (JsonValue × List Char)
  | '[' :: ']' :: rest => some (.strings [], rest)
  | '[' :: rest => (readItems? readString? ']' rest).map fun (texts, rest) => (.strings texts, rest)
  | 't' :: 'r' :: 'u' :: 'e' :: rest => some (.boolean true, rest)
  | 'f' :: 'a' :: 'l' :: 's' :: 'e' :: rest => some (.boolean false, rest)
  | '"' :: rest => (readString? ('"' :: rest)).map fun (text, rest) => (.string text, rest)
  | cs => (readNumber? cs).map fun (n, rest) => (.number n, rest)

def readMember? (cs : List Char) : Option ((String × JsonValue) × List Char) :=
  match readString? cs with
  | some (name, ':' :: rest) => (readValue? rest).map fun (v, rest) => ((name, v), rest)
  | _ => none

def readObject? : List Char → Option (List (String × JsonValue))
  | '\x7b' :: rest =>
    match readItems? readMember? '\x7d' rest with
    | some (members, []) => some members
    | _ => none
  | _ => none

theorem controlDigits_eq : ∀ n < 0x20,
    hexValue ['0', '0', Nat.digitChar (n / 16), Nat.digitChar (n % 16)] = n ∧
      ['0', '0', Nat.digitChar (n / 16), Nat.digitChar (n % 16)].all isHexDigit = true ∧
      n.isValidChar := by
  decide

theorem readCharacters?_jsonChar (c : Char) (rest : List Char) :
    readCharacters? (jsonChar c ++ rest) =
      (readCharacters? rest).map fun (cs, rest) => (c :: cs, rest) := by
  unfold jsonChar
  split
  iterate 7 simp [readCharacters?, shortEscape?]
  rename_i hQuote hBackslash _ _ _ _ _
  -- neither a quote nor a backslash, so it stands for itself or is escaped by its code
  split
  · rename_i hControl
    obtain ⟨hValue, hDigits, hValid⟩ := controlDigits_eq c.toNat hControl
    unfold controlDigits
    simp only [List.cons_append, List.nil_append]
    rw [readCharacters?]
    rw [hValue, if_pos ⟨hDigits, hValid⟩, Char.ofNat_toNat]
  · rename_i hPlain
    rw [List.singleton_append, readCharacters?, if_neg hPlain]
    · exact hQuote
    · exact fun _ _ _ _ _ hC _ => hBackslash hC
    · exact fun _ _ hC _ => hBackslash hC

theorem readString?_jsonString (text : String) (rest : List Char) :
    readString? ((jsonString text).toList ++ rest) = some (text, rest) := by
  have hCharacters : ∀ cs : List Char,
      readCharacters? (cs.flatMap jsonChar ++ '"' :: rest) = some (cs, rest) := by
    intro cs
    induction cs with
    | nil => rfl
    | cons c cs ih =>
      rw [List.flatMap_cons, List.append_assoc, readCharacters?_jsonChar, ih]
      rfl
  simp [jsonString, readString?, hCharacters]

theorem readNumber?_toString (n : Nat) {rest : List Char}
    (h : ∀ c ∈ rest.head?, c.isDigit = false) :
    readNumber? ((toString n).toList ++ rest) = some (n, rest) := by
  have hDigits : ∀ c ∈ Nat.toDigits 10 n, c.isDigit = true := fun c hC =>
    Nat.isDigit_of_mem_toDigits (by decide) (by decide) hC
  have hStop : rest.takeWhile Char.isDigit = [] ∧ rest.dropWhile Char.isDigit = rest := by
    cases rest with
    | nil => exact ⟨rfl, rfl⟩
    | cons c rest => simp [h c rfl]
  rw [Nat.toString_eq_ofList_toDigits, String.toList_ofList]
  unfold readNumber?
  rw [List.takeWhile_append_of_pos hDigits, List.dropWhile_append_of_pos hDigits, hStop.1, hStop.2,
    List.append_nil]
  dsimp only
  rw [Nat.ofDigitChars_ten_toDigits, if_pos rfl]

/-- Items that are each read in front of a comma and of `stop` are read as a list. -/
theorem readItems?_intercalate {α : Type} (item? : List Char → Option (α × List Char))
    (stop : Char) (write : α → List Char)
    (hItem : ∀ a c rest, c = ',' ∨ c = stop → item? (write a ++ c :: rest) = some (a, c :: rest))
    (hStop : stop ≠ ',') (a : α) (more : List α) (rest : List Char) :
    readItems? item? stop ([','].intercalate ((a :: more).map write) ++ stop :: rest) =
      some (a :: more, rest) := by
  induction more generalizing a with
  | nil =>
    rw [List.map_singleton, List.intercalate_singleton, readItems?, hItem a stop rest (.inr rfl)]
    simp
  | cons b more ih =>
    have hNext := hItem a ',' ([','].intercalate ((b :: more).map write) ++ stop :: rest) (.inl rfl)
    rw [List.map_cons, List.map_cons, List.intercalate_cons_cons, ← List.map_cons,
      List.append_assoc, List.append_assoc, List.singleton_append, readItems?, hNext]
    have hShorter : ([','].intercalate ((b :: more).map write) ++ stop :: rest).length <
        (write a ++ ',' :: ([','].intercalate ((b :: more).map write) ++ stop :: rest)).length := by
      simp only [List.length_append, List.length_cons]
      omega
    dsimp only
    rw [if_neg hStop.symm, if_pos ⟨rfl, hShorter⟩, ih b]
    rfl

def JsonValue.text : JsonValue → List Char
  | .number n => (toString n).toList
  | .boolean b => (toString b).toList
  | .string text => (jsonString text).toList
  | .strings texts => '[' :: [','].intercalate (texts.map fun text => (jsonString text).toList) ++ [']']

/-- A value is read as it is written in front of what cannot belong to it. -/
theorem readValue?_text (v : JsonValue) (c : Char) (rest : List Char) (hC : c.isDigit = false) :
    readValue? (v.text ++ c :: rest) = some (v, c :: rest) := by
  cases v with
  | boolean b => cases b <;> rfl
  | string text =>
    have hRead := readString?_jsonString text (c :: rest)
    simp only [JsonValue.text, jsonString, String.toList_ofList, List.cons_append] at hRead ⊢
    rw [readValue?, hRead]
    rfl
  | strings texts =>
    cases texts with
    | nil => rfl
    | cons text more =>
      have hRead := readItems?_intercalate readString? ']'
        (fun text => (jsonString text).toList) (fun text c rest _ => readString?_jsonString text _)
        (by decide) text more (c :: rest)
      simp only [JsonValue.text, List.cons_append, List.append_assoc, List.nil_append] at hRead ⊢
      rw [readValue?, hRead]
      · rfl
      · -- no item starts with the closing bracket
        intro tail hEmpty
        rw [hEmpty, readItems?] at hRead
        cases hRead
  | number n =>
    have hStop : ∀ d ∈ (c :: rest).head?, d.isDigit = false := by simpa using hC
    have hRead := readNumber?_toString n hStop
    obtain ⟨d, ds, hDigits⟩ := List.exists_cons_of_ne_nil (Nat.toDigits_ne_nil (n := n) (b := 10))
    have hD : d.isDigit = true :=
      Nat.isDigit_of_mem_toDigits (by decide) (by decide) (hDigits ▸ List.mem_cons_self)
    rw [Nat.toString_eq_ofList_toDigits, String.toList_ofList, hDigits] at hRead
    rw [JsonValue.text, Nat.toString_eq_ofList_toDigits, String.toList_ofList, hDigits]
    rw [List.cons_append] at hRead ⊢
    rw [readValue?, hRead]
    · rfl
    -- a digit starts no other value
    all_goals
      intro tail hOther
      rw [(List.cons.inj hOther).1] at hD
      cases hD

def memberText (m : String × JsonValue) : List Char :=
  (jsonString m.1).toList ++ ':' :: m.2.text

def objectText (ms : List (String × JsonValue)) : List Char :=
  '\x7b' :: [','].intercalate (ms.map memberText) ++ ['\x7d']

theorem readMember?_memberText (m : String × JsonValue) (c : Char) (rest : List Char)
    (hC : c.isDigit = false) : readMember? (memberText m ++ c :: rest) = some (m, c :: rest) := by
  have hValue := readValue?_text m.2 c rest hC
  rw [memberText, List.append_assoc, readMember?, readString?_jsonString, List.cons_append]
  simp only [hValue, Option.map_some]

theorem readObject?_objectText {ms : List (String × JsonValue)} (h : ms ≠ []) :
    readObject? (objectText ms) = some ms := by
  obtain ⟨m, more, rfl⟩ := List.exists_cons_of_ne_nil h
  have hMembers := readItems?_intercalate readMember? '\x7d' memberText
    (fun m c rest hC => readMember?_memberText m c rest (by rcases hC with rfl | rfl <;> rfl))
    (by decide) m more []
  rw [objectText, List.cons_append, readObject?, hMembers]

theorem newline_not_mem_jsonString (text : String) : '\n' ∉ (jsonString text).toList := by
  have hDigits : ∀ n < 0x20, '\n' ∉ [Nat.digitChar (n / 16), Nat.digitChar (n % 16)] := by decide
  have hChar : ∀ c, '\n' ∉ jsonChar c := by
    intro c
    unfold jsonChar
    split
    iterate 7 simp
    split
    · rename_i hControl
      simp only [List.mem_append, not_or]
      exact ⟨by decide, hDigits _ hControl⟩
    · rename_i hNewline _ _ _
      exact fun hMem => hNewline (List.mem_singleton.mp hMem).symm
  simp [jsonString, hChar]

theorem newline_not_mem_intercalate {texts : List (List Char)} (h : ∀ cs ∈ texts, '\n' ∉ cs) :
    '\n' ∉ [','].intercalate texts := by
  induction texts with
  | nil => exact List.not_mem_nil
  | cons cs more ih =>
    rw [List.forall_mem_cons] at h
    cases more with
    | nil =>
      rw [List.intercalate_singleton]
      exact h.1
    | cons next more =>
      rw [List.intercalate_cons_cons, List.mem_append, List.mem_append, List.mem_singleton]
      rintro ((hHere | hComma) | hLater)
      · exact h.1 hHere
      · cases hComma
      · exact ih h.2 hLater

theorem newline_not_mem_text (v : JsonValue) : '\n' ∉ v.text := by
  cases v with
  | boolean b => cases b <;> decide
  | string text => exact newline_not_mem_jsonString text
  | number n =>
    intro hMem
    rw [JsonValue.text, Nat.toString_eq_ofList_toDigits, String.toList_ofList] at hMem
    have hDigit := Nat.isDigit_of_mem_toDigits (by decide) (by decide) hMem
    cases hDigit
  | strings texts =>
    have hTexts : '\n' ∉ [','].intercalate (texts.map fun text => (jsonString text).toList) :=
      newline_not_mem_intercalate (List.forall_mem_map.mpr fun text _ => newline_not_mem_jsonString text)
    simp [JsonValue.text, hTexts]

theorem newline_not_mem_objectText (ms : List (String × JsonValue)) : '\n' ∉ objectText ms := by
  have hMembers : '\n' ∉ [','].intercalate (ms.map memberText) :=
    newline_not_mem_intercalate (List.forall_mem_map.mpr fun m _ => by
      simp [memberText, newline_not_mem_jsonString, newline_not_mem_text])
  simp [objectText, hMembers]

end ExplicitModules.Text
