import ExplicitModules.Source.Lexeme
import ExplicitModules.Source.Point

/-!
# Clauses of a declaration

What may follow `import` or `export`, up to the string that names a module. Every reader here
consumes an initial part of its argument and keeps the text behind it.
-/
namespace ExplicitModules.Source
set_option autoImplicit false

def quoted? : List Char → Option Quoted
  | [] => none
  | q :: cs =>
    if isQuote q then
      match readQuoted q cs with
      | (some body, rest) => some ⟨q, body, rest⟩
      | (none, _) => none
    else none

/-- Walks an import clause, in which words, blocks in braces, stars and commas may stand in any
order, to a `from` with a string behind it. A `from` followed by anything else is a name. -/
def importSource? (cs : List Char) : Option Quoted :=
  match _h : afterTrivia cs with
  | [] => none
  | c :: rest =>
    if c = '{' then importSource? (afterOpen [.brace] rest)
    else if c = '*' ∨ c = ',' then importSource? rest
    else if _hWord : isWordChar c then
      let behind := afterWord (c :: rest)
      if word (c :: rest) = "from".toList ∧ (afterTrivia behind).head?.any isQuote then
        quoted? (afterTrivia behind)
      else importSource? behind
    else none
termination_by cs.length
decreasing_by
  all_goals
    have hTrivia := (afterTrivia_suffix cs).length_le
    rw [_h, List.length_cons] at hTrivia
  · have hOpen := (afterOpen_suffix [.brace] rest).length_le
    omega
  · omega
  · have hBehind := (afterWord_cons_suffix _hWord rest).length_le
    omega

/-- The specifier of the import declaration whose keyword stands in front. Calls `import(...)` and
`import.meta` have none. -/
def importSpecifier? (cs : List Char) : Option Quoted :=
  match afterTrivia cs with
  | [] => none
  | c :: rest =>
    if c = '(' ∨ c = '.' then none
    else if isQuote c then quoted? (c :: rest)
    else importSource? (c :: rest)

def fromString? (cs : List Char) : Option Quoted :=
  if word (afterTrivia cs) = "from".toList then
    quoted? (afterTrivia (afterWord (afterTrivia cs)))
  else none

/-- The text behind the name that `* as` introduces, a word or a string. -/
def afterExportName? (cs : List Char) : Option (List Char) :=
  match cs with
  | [] => none
  | c :: _ =>
    if isQuote c then (quoted? cs).map Quoted.rest
    else if isWordChar c then some (afterWord cs)
    else none

/-- What stands between `export`, or `export type`, and the specifier: a star, a star with a name
or a block in braces. -/
def reexportSource? (cs : List Char) : Option Quoted :=
  match cs with
  | '*' :: rest =>
    let named := afterTrivia rest
    if word named = "as".toList then
      (afterExportName? (afterTrivia (afterWord named))).bind fromString?
    else fromString? named
  | '{' :: rest => fromString? (afterOpen [.brace] rest)
  | _ => none

def exportSpecifier? (cs : List Char) : Option Quoted :=
  let clause := afterTrivia cs
  if word clause = [] then reexportSource? clause
  else if word clause = "type".toList then reexportSource? (afterTrivia (afterWord clause))
  else none

def afterAttributes? (cs : List Char) : Option (List Char) :=
  let clause := afterTrivia cs
  if word clause = "with".toList ∨ word clause = "assert".toList then
    match afterTrivia (afterWord clause) with
    | '{' :: rest => some (afterOpen [.brace] rest)
    | _ => none
  else none

theorem quoted?_eq_some {cs : List Char} {q : Quoted} (h : quoted? cs = some q) :
    isQuote q.quote = true ∧ cs = q.whole := by
  cases cs with
  | nil => cases h
  | cons c cs =>
    simp only [quoted?] at h
    split at h
    · rename_i hQuote
      split at h
      · rename_i hRead
        obtain rfl := Option.some.inj h
        exact ⟨hQuote, congrArg (c :: ·) (readQuoted_eq_some hRead)⟩
      · cases h
    · cases h

theorem importSource?_suffix {cs : List Char} {q : Quoted} (h : importSource? cs = some q) :
    q.whole <:+ cs := by
  fun_induction importSource? cs with
  | case1 => cases h
  | case2 cs rest hTrivia ih =>
    have hRest := (afterOpen_suffix [.brace] rest).trans (List.suffix_cons '{' rest)
    exact (ih h).trans (hRest.trans (hTrivia ▸ afterTrivia_suffix cs))
  | case3 cs c rest hTrivia _ _ ih =>
    exact (ih h).trans ((List.suffix_cons c rest).trans (hTrivia ▸ afterTrivia_suffix cs))
  | case4 cs c rest hTrivia _ _ hWord behind _ =>
    obtain ⟨-, hWhole⟩ := quoted?_eq_some h
    rw [← hWhole]
    exact (afterTrivia_suffix behind).trans ((afterWord_suffix (c :: rest)).trans
      (hTrivia ▸ afterTrivia_suffix cs))
  | case5 cs c rest hTrivia _ _ hWord behind _ ih =>
    exact (ih h).trans ((afterWord_suffix (c :: rest)).trans (hTrivia ▸ afterTrivia_suffix cs))
  | case6 => cases h

theorem importSpecifier?_suffix {cs : List Char} {q : Quoted} (h : importSpecifier? cs = some q) :
    q.whole <:+ cs := by
  unfold importSpecifier? at h
  split at h
  · cases h
  · rename_i c rest hTrivia
    split at h
    · cases h
    · split at h
      · rw [← (quoted?_eq_some h).2, ← hTrivia]
        exact afterTrivia_suffix cs
      · exact (importSource?_suffix h).trans (hTrivia ▸ afterTrivia_suffix cs)

theorem fromString?_suffix {cs : List Char} {q : Quoted} (h : fromString? cs = some q) :
    q.whole <:+ cs := by
  unfold fromString? at h
  split at h
  · rw [← (quoted?_eq_some h).2]
    exact (afterTrivia_suffix _).trans ((afterWord_suffix _).trans (afterTrivia_suffix cs))
  · cases h

theorem afterExportName?_suffix {cs rest : List Char} (h : afterExportName? cs = some rest) :
    rest <:+ cs := by
  unfold afterExportName? at h
  split at h
  · cases h
  · split at h
    · obtain ⟨q, hQuoted, rfl⟩ := Option.map_eq_some_iff.mp h
      rw [(quoted?_eq_some hQuoted).2]
      exact q.rest_suffix_whole
    · split at h
      · obtain rfl := Option.some.inj h
        exact afterWord_suffix _
      · cases h

theorem reexportSource?_suffix {cs : List Char} {q : Quoted} (h : reexportSource? cs = some q) :
    q.whole <:+ cs := by
  unfold reexportSource? at h
  split at h
  · rename_i rest
    dsimp only at h
    have hNamed := (afterTrivia_suffix rest).trans (List.suffix_cons '*' rest)
    split at h
    · obtain ⟨behind, hName, hFrom⟩ := Option.bind_eq_some_iff.mp h
      exact (fromString?_suffix hFrom).trans ((afterExportName?_suffix hName).trans
        ((afterTrivia_suffix _).trans ((afterWord_suffix _).trans hNamed)))
    · exact (fromString?_suffix h).trans hNamed
  · exact (fromString?_suffix h).trans ((afterOpen_suffix _ _).trans (List.suffix_cons _ _))
  · cases h

theorem exportSpecifier?_suffix {cs : List Char} {q : Quoted} (h : exportSpecifier? cs = some q) :
    q.whole <:+ cs := by
  dsimp only [exportSpecifier?] at h
  split at h
  · exact (reexportSource?_suffix h).trans (afterTrivia_suffix cs)
  · split at h
    · exact (reexportSource?_suffix h).trans ((afterTrivia_suffix _).trans
        ((afterWord_suffix _).trans (afterTrivia_suffix cs)))
    · cases h

theorem afterAttributes?_suffix {cs rest : List Char} (h : afterAttributes? cs = some rest) :
    rest <:+ cs := by
  dsimp only [afterAttributes?] at h
  split at h
  · split at h
    · rename_i block hTrivia
      obtain rfl := Option.some.inj h
      have hBlock := (afterOpen_suffix [.brace] block).trans (List.suffix_cons '{' block)
      exact hBlock.trans (hTrivia ▸ (afterTrivia_suffix _).trans
        ((afterWord_suffix _).trans (afterTrivia_suffix cs)))
    · cases h
  · cases h

end ExplicitModules.Source
