import ExplicitModules.Proofs.Source.Shifting
import ExplicitModules.Proofs.Source.WovenClause
import Mathlib.Data.List.TakeWhile
import Mathlib.Tactic.SplitIfs

/-!
# Strings and regular expressions that end on their line

A backslash lets a string go on behind a line end. Where in a text a string or a regular expression is
begun depends on all that is read in front of it: by the pass over the statements, by a search for the
clause of a declaration, or by the reader of a template or a block in braces. `Reads` follows these
readers, `EndsOnLine` is what is asked of the strings and regular expressions that they come to.
-/
namespace ExplicitModules.Source
set_option autoImplicit false
open Text

inductive Reader
  /-- The pass over the statements, behind the lexeme `last`. -/
  | statements (last : Last)
  /-- The search for the specifier of a declaration. -/
  | clause
  /-- The reader of what is open. -/
  | inside (opened : List Opener)

/-- In the text of a template a quote is a character like any other. -/
def Reader.knowsStrings : Reader → Bool
  | .inside [] => false
  | .inside (.template :: _) => false
  | _ => true

/-- What is open behind the next lexeme, and the text behind it. -/
def openStep (outer : List Opener) (c : Char) (cs : List Char) :
    Opener → List Opener × List Char
  | .template =>
    if c = '\\' then (.template :: outer, cs.drop 1)
    else if c = '`' then (outer, cs)
    else if c = '$' ∧ cs.head? = some '{' then (.brace :: .template :: outer, cs.drop 1)
    else (.template :: outer, cs)
  | .brace =>
    match afterComment? (c :: cs) with
    | some rest => (.brace :: outer, rest)
    | none =>
      if isQuote c then (.brace :: outer, (readQuoted c cs).2)
      else if c = '`' then (.template :: .brace :: outer, cs)
      else if c = '{' then (.brace :: .brace :: outer, cs)
      else if c = '}' then (outer, cs)
      else (.brace :: outer, cs)

theorem afterOpen_cons (o : Opener) (outer : List Opener) (c : Char) (cs : List Char) :
    afterOpen (o :: outer) (c :: cs) =
      afterOpen (openStep outer c cs o).1 (openStep outer c cs o).2 := by
  cases o with
  | template =>
    rw [afterOpen, openStep]
    split_ifs <;> rfl
  | brace =>
    cases hComment : afterComment? (c :: cs) with
    | some rest => rw [afterOpen_of_comment hComment, openStep, hComment]
    | none =>
      rw [afterOpen_of_no_comment hComment, openStep, hComment]
      dsimp only
      split_ifs <;> rfl

theorem openStep_suffix (o : Opener) (outer : List Opener) (c : Char) (cs : List Char) :
    (openStep outer c cs o).2 <:+ c :: cs ∧ (openStep outer c cs o).2.length ≤ cs.length := by
  have hTail : ∀ rest : List Char, rest <:+ cs → rest <:+ c :: cs ∧ rest.length ≤ cs.length :=
    fun rest hRest => ⟨hRest.trans (List.suffix_cons c cs), hRest.length_le⟩
  have hHere := hTail cs (List.suffix_refl cs)
  have hDrop := hTail (cs.drop 1) (List.drop_suffix 1 cs)
  cases o with
  | template =>
    rw [openStep]
    split_ifs
    · exact hDrop
    · exact hHere
    · exact hDrop
    · exact hHere
  | brace =>
    cases hComment : afterComment? (c :: cs) with
    | some rest =>
      obtain ⟨hRest, hLength⟩ := afterComment?_suffix hComment
      rw [openStep, hComment]
      exact ⟨hRest, Nat.lt_succ_iff.mp hLength⟩
    | none =>
      rw [openStep, hComment]
      dsimp only
      split_ifs
      · exact hTail _ (readQuoted_suffix c cs)
      · exact hHere
      · exact hHere
      · exact hHere
      · exact hHere

/-- In the course of finding the declarations of `text` the reader comes to the place in front of
`cs`. A clause is taken for words, stars, commas and blocks in any order. -/
inductive Reads (text : List Char) : Reader → List Char → Prop
  | start : Reads text (.statements .start) (body text)
  | step {last : Last} {c : Char} {cs : List Char} (h : Reads text (.statements last) (c :: cs)) :
    Reads text (.statements (step last c cs).last) (step last c cs).rest
  | template {last : Last} {cs : List Char} (h : Reads text (.statements last) ('`' :: cs)) :
    Reads text (.inside [.template]) cs
  | importing {last : Last} {cs : List Char} (h : Reads text (.statements last) cs)
    (hMember : last ≠ .punctuation '.') (hWord : word cs = "import".toList) :
    Reads text .clause (afterWord cs)
  | exporting {last : Last} {cs : List Char} (h : Reads text (.statements last) cs)
    (hMember : last ≠ .punctuation '.') (hWord : word cs = "export".toList)
    (hClause : word (afterTrivia (afterWord cs)) = [] ∨
      word (afterTrivia (afterWord cs)) = "type".toList) :
    Reads text .clause (afterTrivia (afterWord cs))
  | trivia {cs : List Char} (h : Reads text .clause cs) : Reads text .clause (afterTrivia cs)
  | word {cs : List Char} (h : Reads text .clause cs) : Reads text .clause (afterWord cs)
  | mark {c : Char} {cs : List Char} (h : Reads text .clause (c :: cs)) (hMark : c = '*' ∨ c = ',') :
    Reads text .clause cs
  | name {q : Char} {cs rest : List Char} (h : Reads text .clause cs)
    (hWord : word cs = "as".toList) (hName : afterTrivia (afterWord cs) = q :: rest)
    (hQuote : isQuote q = true) : Reads text .clause (readQuoted q rest).2
  | block {cs : List Char} (h : Reads text .clause ('{' :: cs)) : Reads text (.inside [.brace]) cs
  | behindBlock {cs : List Char} (h : Reads text .clause ('{' :: cs)) :
    Reads text .clause (afterOpen [.brace] cs)
  | attributes {last : Last} {cs rest : List Char} {kind : DeclarationKind} {q : Quoted}
    (h : Reads text (.statements last) cs) (hMember : last ≠ .punctuation '.')
    (hSpecifier : specifier? (word cs) (afterWord cs) = some (kind, q))
    (hWord : word (afterTrivia q.rest) = "with".toList ∨ word (afterTrivia q.rest) = "assert".toList)
    (hBlock : afterTrivia (afterWord (afterTrivia q.rest)) = '{' :: rest) :
    Reads text (.inside [.brace]) rest
  | inside {o : Opener} {outer : List Opener} {c : Char} {cs : List Char}
    (h : Reads text (.inside (o :: outer)) (c :: cs)) :
    Reads text (.inside (openStep outer c cs o).1) (openStep outer c cs o).2

/-- No string and no regular expression that is read goes on behind a line end. -/
structure EndsOnLine (text : List Char) : Prop where
  string {reader : Reader} {q : Char} {cs : List Char} (h : Reads text reader (q :: cs))
    (hKnows : reader.knowsStrings = true) (hQuote : isQuote q = true) :
    '\n' ∉ before cs (readQuoted q cs).2
  regex {last : Last} {cs : List Char} (h : Reads text (.statements last) ('/' :: cs))
    (hRegex : last.allowsRegex = true) (hComment : afterComment? ('/' :: cs) = none) :
    '\n' ∉ before cs (afterRegex false cs)

section Lines

variable {text cs : List Char} {reader : Reader}

theorem Reads.suffix (h : Reads text reader cs) : cs <:+ text := by
  induction h with
  | start => exact body_suffix text
  | step _ ih => exact (step_rest _ _ _).1.trans ih
  | template _ ih => exact (List.suffix_cons _ _).trans ih
  | importing _ _ _ ih => exact (afterWord_suffix _).trans ih
  | exporting _ _ _ _ ih => exact (afterTrivia_suffix _).trans ((afterWord_suffix _).trans ih)
  | trivia _ ih => exact (afterTrivia_suffix _).trans ih
  | word _ ih => exact (afterWord_suffix _).trans ih
  | mark _ _ ih => exact (List.suffix_cons _ _).trans ih
  | @name q cs rest _ _ hName _ ih =>
    have hBehind : q :: rest <:+ cs := hName ▸ (afterTrivia_suffix _).trans (afterWord_suffix cs)
    exact (readQuoted_suffix _ _).trans ((List.suffix_cons q rest).trans (hBehind.trans ih))
  | block _ ih => exact (List.suffix_cons _ _).trans ih
  | behindBlock _ ih => exact (afterOpen_suffix _ _).trans ((List.suffix_cons _ _).trans ih)
  | @attributes last cs rest kind q _ _ hSpecifier _ hBlock ih =>
    have hBehind : '{' :: rest <:+ q.rest := hBlock ▸
      (afterTrivia_suffix _).trans ((afterWord_suffix _).trans (afterTrivia_suffix q.rest))
    exact (List.suffix_cons '{' rest).trans (hBehind.trans (q.rest_suffix_whole.trans
      ((specifier?_suffix hSpecifier).trans ((afterWord_suffix cs).trans ih))))
  | inside _ ih => exact (openStep_suffix _ _ _ _).1.trans ih

theorem before_cons {c : Char} {rest : List Char} (h : rest <:+ cs) :
    before (c :: cs) rest = c :: before cs rest :=
  before_append_left [c] h

def endsInBackslash : List Char → Bool
  | '\\' :: '\n' :: _ => true
  | '\n' :: _ => false
  | _ :: cs => endsInBackslash cs
  | [] => false

theorem endsInBackslash_of_cons {c : Char} (h : endsInBackslash (c :: cs) = false) (hLine : c ≠ '\n') :
    endsInBackslash cs = false := by
  rw [endsInBackslash.eq_def] at h
  split at h
  · cases h
  · rename_i hCons
    exact absurd (List.cons.inj hCons).1 hLine
  · rename_i hCons
    obtain ⟨-, rfl⟩ := List.cons.inj hCons
    exact h
  · rename_i hNil
    cases hNil

/-- A backslash on such a line escapes no line end. -/
theorem escaped_of_endsInBackslash {c : Char} (h : endsInBackslash ('\\' :: c :: cs) = false) :
    c ≠ '\n' ∧ endsInBackslash cs = false := by
  have hLine : c ≠ '\n' := by
    rintro rfl
    rw [endsInBackslash] at h
    cases h
  exact ⟨hLine, endsInBackslash_of_cons (endsInBackslash_of_cons h (by decide)) hLine⟩

theorem string_on_line {q : Char} (hQuote : q ≠ '\n') (h : endsInBackslash cs = false) :
    '\n' ∉ before cs (readQuoted q cs).2 := by
  fun_induction readQuoted q cs with
  | case1 => exact List.not_mem_nil
  | case2 => decide
  | case3 c cs body rest hRead ih =>
    obtain ⟨hLine, hRest⟩ := escaped_of_endsInBackslash h
    have hSuffix : rest <:+ cs := by
      have hSuffix := readQuoted_suffix q cs
      rwa [hRead] at hSuffix
    have hLater := ih hRest
    rw [hRead] at hLater
    rw [before_cons (hSuffix.trans (List.suffix_cons c cs)), before_cons hSuffix]
    simp [Ne.symm hLine, hLater]
  | case4 cs =>
    rw [before_cons (List.suffix_refl cs), before_self, List.mem_singleton]
    exact Ne.symm hQuote
  | case5 cs =>
    rw [before_self]
    exact List.not_mem_nil
  | case6 c cs _ _ _ hLine body rest hRead ih =>
    have hSuffix : rest <:+ cs := by
      have hSuffix := readQuoted_suffix q cs
      rwa [hRead] at hSuffix
    have hLater := ih (endsInBackslash_of_cons h hLine)
    rw [hRead] at hLater
    rw [before_cons hSuffix]
    simp [Ne.symm hLine, hLater]

theorem regex_on_line {inClass : Bool} (h : endsInBackslash cs = false) :
    '\n' ∉ before cs (afterRegex inClass cs) := by
  have hCons : ∀ {c : Char} {ds : List Char} {b : Bool}, c ≠ '\n' →
      '\n' ∉ before ds (afterRegex b ds) → '\n' ∉ before (c :: ds) (afterRegex b ds) := by
    intro c ds b hLine hLater
    rw [before_cons (afterRegex_suffix b ds)]
    simp [Ne.symm hLine, hLater]
  fun_induction afterRegex inClass cs with
  | case1 => exact List.not_mem_nil
  | case2 => decide
  | case3 inClass c cs ih =>
    obtain ⟨hLine, hRest⟩ := escaped_of_endsInBackslash h
    rw [before_cons ((afterRegex_suffix inClass cs).trans (List.suffix_cons c cs))]
    simpa using hCons hLine (ih hRest)
  | case4 cs =>
    rw [before_self]
    exact List.not_mem_nil
  | case5 inClass cs ih => exact hCons (by decide) (ih (endsInBackslash_of_cons h (by decide)))
  | case6 inClass cs ih => exact hCons (by decide) (ih (endsInBackslash_of_cons h (by decide)))
  | case7 cs ih => exact hCons (by decide) (ih (endsInBackslash_of_cons h (by decide)))
  | case8 inClass cs hOut =>
    have hFlags : before cs (cs.dropWhile Char.isAlpha) = cs.takeWhile Char.isAlpha := by
      have hSplit := before_append (cs.takeWhile Char.isAlpha) (cs.dropWhile Char.isAlpha)
      rwa [List.takeWhile_append_dropWhile] at hSplit
    rw [before_cons (List.dropWhile_suffix _), hFlags, List.mem_cons, not_or]
    refine ⟨by decide, fun hMem => ?_⟩
    have hAlpha := List.mem_takeWhile_imp hMem
    cases hAlpha
  | case9 inClass c cs _ _ hLine _ _ _ ih =>
    exact hCons hLine (ih (endsInBackslash_of_cons h hLine))

/-- It is enough that no line with a quote or a slash in it ends in a backslash. -/
theorem EndsOnLine.of_lines (h : ∀ c cs, c :: cs <:+ text → (isQuote c = true ∨ c = '/') →
    endsInBackslash cs = false) : EndsOnLine text where
  string hReads _ hQuote :=
    string_on_line (ne_line_of_isQuote hQuote) (h _ _ hReads.suffix (Or.inl hQuote))
  regex hReads _ _ := regex_on_line (h _ _ hReads.suffix (Or.inr rfl))

end Lines

end ExplicitModules.Source
