import ExplicitModules.Source.Clause

/-!
# Finding the declarations of a text

One pass over any text, well formed or not. All that is kept of the text read so far is its last
significant lexeme: it tells a regular expression from a division and a keyword from a member name.
A keyword with no specifier behind it is passed over as a word.
-/
namespace ExplicitModules.Source
set_option autoImplicit false

inductive Last
  | start
  | punctuation (c : Char)
  | word (w : List Char)
deriving DecidableEq, Repr

def regexWords : List String :=
  ["return", "typeof", "case", "throw", "yield", "await", "in", "of", "delete", "void",
    "new", "default", "instanceof", "else", "do"]

def regexPunctuation : String :=
  "(,=:[!&|?\x7b\x7d;+-*%<>~^"

def Last.allowsRegex : Last → Bool
  | .start => true
  | .punctuation c => regexPunctuation.toList.contains c
  | .word w => regexWords.any fun keyword => keyword.toList == w

/-- The declaration that the word `w` introduces when `rest` follows it. -/
def specifier? (w rest : List Char) : Option (DeclarationKind × Quoted) :=
  if w = "import".toList then (importSpecifier? rest).map fun q => (.import, q)
  else if w = "export".toList then (exportSpecifier? rest).map fun q => (.export, q)
  else none

/-- What reading one lexeme or declaration leaves behind. -/
structure Step where
  site : Option Site
  last : Last
  rest : List Char

def wordStep (last : Last) (cs : List Char) : Step :=
  let skipped := ⟨none, .word (word cs), afterWord cs⟩
  if last = .punctuation '.' then skipped
  else
    match specifier? (word cs) (afterWord cs) with
    | none => skipped
    | some (kind, q) =>
      match afterAttributes? q.rest with
      | some rest => ⟨some ⟨kind, cs, q, true⟩, .punctuation ';', rest⟩
      | none => ⟨some ⟨kind, cs, q, false⟩, .punctuation ';', q.rest⟩

def step (last : Last) (c : Char) (cs : List Char) : Step :=
  match afterComment? (c :: cs) with
  | some rest => ⟨none, last, rest⟩
  | none =>
    if c = '/' ∧ last.allowsRegex then ⟨none, .punctuation c, afterRegex false cs⟩
    else if isQuote c then ⟨none, .punctuation c, (readQuoted c cs).2⟩
    else if c = '`' then ⟨none, .punctuation c, afterOpen [.template] cs⟩
    else if isWordChar c then wordStep last (c :: cs)
    else if isSpace c then ⟨none, last, cs⟩
    else ⟨none, .punctuation c, cs⟩

theorem specifier?_suffix {w rest : List Char} {kind : DeclarationKind} {q : Quoted}
    (h : specifier? w rest = some (kind, q)) : q.whole <:+ rest := by
  unfold specifier? at h
  split at h
  · obtain ⟨q', hImport, hEq⟩ := Option.map_eq_some_iff.mp h
    cases hEq
    exact importSpecifier?_suffix hImport
  · split at h
    · obtain ⟨q', hExport, hEq⟩ := Option.map_eq_some_iff.mp h
      cases hEq
      exact exportSpecifier?_suffix hExport
    · cases h

theorem wordStep_rest_suffix (last : Last) (cs : List Char) :
    (wordStep last cs).rest <:+ afterWord cs := by
  unfold wordStep
  split
  · exact List.suffix_refl _
  · split
    · exact List.suffix_refl _
    · rename_i kind q hSpecifier
      have hRest := q.rest_suffix_whole.trans (specifier?_suffix hSpecifier)
      split
      · rename_i rest hAttributes
        exact (afterAttributes?_suffix hAttributes).trans hRest
      · exact hRest

theorem step_rest (last : Last) (c : Char) (cs : List Char) :
    (step last c cs).rest <:+ c :: cs ∧ (step last c cs).rest.length < (c :: cs).length := by
  have hTail : ∀ rest : List Char, rest <:+ cs → rest <:+ c :: cs ∧ rest.length < (c :: cs).length :=
    fun rest hRest => ⟨hRest.trans (List.suffix_cons c cs), Nat.lt_succ_of_le hRest.length_le⟩
  unfold step
  split
  · rename_i hComment
    exact afterComment?_suffix hComment
  · split
    · exact hTail _ (afterRegex_suffix false cs)
    · split
      · exact hTail _ (readQuoted_suffix c cs)
      · split
        · exact hTail _ (afterOpen_suffix _ cs)
        · split
          · rename_i hWord
            exact hTail _ ((wordStep_rest_suffix last (c :: cs)).trans
              (afterWord_cons_suffix hWord cs))
          · split
            · exact hTail _ (List.suffix_refl cs)
            · exact hTail _ (List.suffix_refl cs)

/-- The declarations of a text that follows a lexeme `last`, in order. -/
def sitesFrom (last : Last) : List Char → List Site
  | [] => []
  | c :: cs =>
    (step last c cs).site.toList ++ sitesFrom (step last c cs).last (step last c cs).rest
termination_by cs => cs.length
decreasing_by exact (step_rest last c cs).2

def body (text : List Char) : List Char :=
  if text.head? = some '\uFEFF' then text.drop 1 else text

def sites (text : List Char) : List Site :=
  sitesFrom .start (body text)

theorem body_suffix (text : List Char) : body text <:+ text := by
  unfold body
  split
  · exact List.drop_suffix _ _
  · exact List.suffix_refl _

theorem wordStep_site {last : Last} {cs : List Char} {site : Site}
    (h : (wordStep last cs).site = some site) :
    site.keyword = cs ∧ site.specifier.whole <:+ cs ∧
      (wordStep last cs).rest <:+ site.specifier.rest := by
  unfold wordStep at h ⊢
  split at h
  · cases h
  · rename_i hMember
    rw [if_neg hMember]
    split at h
    · cases h
    · rename_i kind q hSpecifier
      have hWhole := (specifier?_suffix hSpecifier).trans (afterWord_suffix cs)
      split at h
      · rename_i rest hAttributes
        cases h
        exact ⟨rfl, hWhole, afterAttributes?_suffix hAttributes⟩
      · cases h
        exact ⟨rfl, hWhole, List.suffix_refl _⟩

theorem step_site {last : Last} {c : Char} {cs : List Char} {site : Site}
    (h : (step last c cs).site = some site) :
    site.keyword = c :: cs ∧ site.specifier.whole <:+ c :: cs ∧
      (step last c cs).rest <:+ site.specifier.rest := by
  unfold step at h ⊢
  split at h
  · cases h
  · split at h
    · cases h
    · rename_i hRegex
      rw [if_neg hRegex]
      split at h
      · cases h
      · rename_i hQuote
        rw [if_neg hQuote]
        split at h
        · cases h
        · rename_i hTemplate
          rw [if_neg hTemplate]
          split at h
          · rename_i hWord
            rw [if_pos hWord]
            exact wordStep_site h
          · split at h <;> cases h

theorem sitesFrom_inOrder (last : Last) (cs : List Char) : InOrder cs (sitesFrom last cs) := by
  fun_induction sitesFrom last cs with
  | case1 => trivial
  | case2 last c cs ih =>
    cases hSite : (step last c cs).site with
    | none => exact InOrder.of_suffix (step_rest last c cs).1 ih
    | some site =>
      obtain ⟨hKeyword, hWhole, hRest⟩ := step_site hSite
      exact ⟨hKeyword ▸ List.suffix_refl _, hKeyword ▸ hWhole, InOrder.of_suffix hRest ih⟩

theorem sites_inOrder (text : List Char) : InOrder text (sites text) :=
  InOrder.of_suffix (body_suffix text) (sitesFrom_inOrder .start (body text))

/-- The imports and re-exports of `text`, in the order they are written. -/
def declarations (text : String) : List Declaration :=
  declarationsFrom (.start text.toList) (sites text.toList)

theorem declarations_eq_map (text : String) :
    declarations text = (sites text.toList).map fun site => site.toDeclaration text.toList :=
  declarationsFrom_eq (Point.start_isIn _) (sites_inOrder _)

theorem mem_declarations {text : String} {site : Site} (h : site ∈ sites text.toList) :
    site.toDeclaration text.toList ∈ declarations text := by
  rw [declarations_eq_map]
  exact List.mem_map_of_mem h

end ExplicitModules.Source
