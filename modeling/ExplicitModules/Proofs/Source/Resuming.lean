import ExplicitModules.Proofs.Source.Shifting
import ExplicitModules.Proofs.Source.WovenClause
import Mathlib.Data.List.Infix

/-!
# Resuming at a line end

Strings that are not closed, regular expressions and line comments end in front of the line end. So a
line without backslashes, backticks and openings of block comments leaves nothing open, however
malformed it is: behind it and a semicolon the pass goes on as if the line were not there.
-/
namespace ExplicitModules.Source
set_option autoImplicit false
open Text

/-- Nothing that begins in the line goes on behind it, and no word in it introduces a declaration. -/
structure IsSelfContained (line : List Char) : Prop where
  noLineEnd : '\n' ∉ line
  noTick : '`' ∉ line
  noEscape : '\\' ∉ line
  noBlock : ¬"/*".toList <:+: line
  noImport : ¬"import".toList <:+: line
  noExport : ¬"export".toList <:+: line

theorem IsSelfContained.of_suffix {line behind : List Char} (h : IsSelfContained line)
    (hSuffix : behind <:+ line) : IsSelfContained behind where
  noLineEnd hMem := h.noLineEnd (hSuffix.mem hMem)
  noTick hMem := h.noTick (hSuffix.mem hMem)
  noEscape hMem := h.noEscape (hSuffix.mem hMem)
  noBlock hInfix := h.noBlock (hInfix.trans hSuffix.isInfix)
  noImport hInfix := h.noImport (hInfix.trans hSuffix.isInfix)
  noExport hInfix := h.noExport (hInfix.trans hSuffix.isInfix)

section Line

variable {line : List Char}

theorem readQuoted_line {q : Char} (hQuote : isQuote q = true) (hLine : '\n' ∉ line)
    (hEscape : '\\' ∉ line) (rest : List Char) :
    ∃ behind, behind <:+ line ∧ (readQuoted q (line ++ '\n' :: rest)).2 = behind ++ '\n' :: rest := by
  induction line with
  | nil =>
    refine ⟨[], List.suffix_refl _, ?_⟩
    rw [List.nil_append, readQuoted_cons_line (ne_line_of_isQuote hQuote)]
  | cons c line ih =>
    rw [List.mem_cons, not_or] at hLine hEscape
    rw [List.cons_append]
    by_cases hClose : c = q
    · subst hClose
      refine ⟨line, List.suffix_cons c line, ?_⟩
      rw [readQuoted_cons_quote (Ne.symm hEscape.1)]
    · obtain ⟨behind, hBehind, hRead⟩ := ih hLine.2 hEscape.2
      refine ⟨behind, hBehind.trans (List.suffix_cons c line), ?_⟩
      rw [readQuoted_cons_of_ne (Ne.symm hEscape.1) hClose (Ne.symm hLine.1)]
      exact hRead

theorem afterRegex_line (inClass : Bool) (hLine : '\n' ∉ line) (hEscape : '\\' ∉ line)
    (rest : List Char) :
    ∃ behind, behind <:+ line ∧ afterRegex inClass (line ++ '\n' :: rest) = behind ++ '\n' :: rest := by
  induction line generalizing inClass with
  | nil => exact ⟨[], List.suffix_refl _, rfl⟩
  | cons c line ih =>
    rw [List.mem_cons, not_or] at hLine hEscape
    have hLater : ∀ inClass', ∃ behind, behind <:+ c :: line ∧
        afterRegex inClass' (line ++ '\n' :: rest) = behind ++ '\n' :: rest := by
      intro inClass'
      obtain ⟨behind, hBehind, hRead⟩ := ih inClass' hLine.2 hEscape.2
      exact ⟨behind, hBehind.trans (List.suffix_cons c line), hRead⟩
    rw [List.cons_append]
    by_cases hOpen : c = '['
    · subst hOpen
      exact hLater true
    · by_cases hClose : c = ']'
      · subst hClose
        exact hLater false
      · by_cases hSlash : c = '/'
        · subst hSlash
          cases inClass with
          | true => exact hLater true
          | false =>
            -- letters behind the closing slash belong to the expression
            refine ⟨line.dropWhile Char.isAlpha,
              (List.dropWhile_suffix _).trans (List.suffix_cons '/' line), ?_⟩
            change (line ++ '\n' :: rest).dropWhile Char.isAlpha = _
            rw [List.dropWhile_append]
            split
            · rename_i hNil
              rw [List.isEmpty_iff.mp hNil]
              rfl
            · rfl
        · rw [afterRegex_cons_of_ne (Ne.symm hEscape.1) (Ne.symm hLine.1) hOpen hClose hSlash]
          exact hLater inClass

theorem word_line (line rest : List Char) :
    word (line ++ '\n' :: rest) = word line ∧
      afterWord (line ++ '\n' :: rest) = afterWord line ++ '\n' :: rest := by
  induction line with
  | nil => exact ⟨rfl, rfl⟩
  | cons c line ih =>
    rw [List.cons_append]
    cases hWord : isWordChar c with
    | true =>
      rw [(word_cons_of_word hWord _).1, (word_cons_of_word hWord _).2,
        (word_cons_of_word hWord _).1, (word_cons_of_word hWord _).2, ih.1, ih.2]
      exact ⟨rfl, rfl⟩
    | false =>
      rw [(word_cons_of_not hWord _).1, (word_cons_of_not hWord _).2,
        (word_cons_of_not hWord _).1, (word_cons_of_not hWord _).2]
      exact ⟨rfl, rfl⟩

theorem IsSelfContained.wordStep_eq (h : IsSelfContained line) (last : Last) (rest : List Char) :
    wordStep last (line ++ '\n' :: rest) =
      ⟨none, .word (word line), afterWord line ++ '\n' :: rest⟩ := by
  have hInfix : word line <:+: line := (List.takeWhile_prefix isWordChar).isInfix
  have hOther : word line ≠ "import".toList ∧ word line ≠ "export".toList :=
    ⟨fun hWord => h.noImport (hWord ▸ hInfix), fun hWord => h.noExport (hWord ▸ hInfix)⟩
  rw [wordStep, (word_line line rest).1, (word_line line rest).2, specifier?, if_neg hOther.1,
    if_neg hOther.2, ite_self]

/-- Reading one lexeme of the line finds nothing and does not go beyond the line. -/
theorem IsSelfContained.step_eq {c : Char} (h : IsSelfContained (c :: line)) (last : Last)
    (rest : List Char) :
    ∃ last' behind, behind <:+ line ∧
      step last c (line ++ '\n' :: rest) = ⟨none, last', behind ++ '\n' :: rest⟩ := by
  obtain ⟨-, hLine⟩ := not_or.mp (List.mem_cons.not.mp h.noLineEnd)
  obtain ⟨hTick, -⟩ := not_or.mp (List.mem_cons.not.mp h.noTick)
  obtain ⟨-, hEscape⟩ := not_or.mp (List.mem_cons.not.mp h.noEscape)
  cases hComment : afterComment? (c :: (line ++ '\n' :: rest)) with
  | some behind =>
    refine ⟨last, [], List.nil_suffix, ?_⟩
    rw [step, hComment]
    unfold afterComment? at hComment
    split at hComment
    · rename_i hText
      obtain ⟨-, hBehind⟩ := List.cons.inj hText
      obtain rfl := Option.some.inj hComment
      cases line with
      | nil => cases hBehind
      | cons d line =>
        obtain ⟨-, rfl⟩ := List.cons.inj hBehind
        have hInner : '\n' ∉ line := fun hMem => hLine (List.mem_cons_of_mem d hMem)
        exact congrArg (Step.mk none last) (afterLine_append hInner rest)
    · rename_i hText
      -- the line has no opening of a block comment
      obtain ⟨rfl, hBehind⟩ := List.cons.inj hText
      cases line with
      | nil => cases hBehind
      | cons d line =>
        obtain ⟨rfl, -⟩ := List.cons.inj hBehind
        exact absurd (List.prefix_append "/*".toList line).isInfix h.noBlock
    · cases hComment
  | none =>
    rw [step, hComment]
    dsimp only
    split
    · obtain ⟨behind, hBehind, hRead⟩ := afterRegex_line false hLine hEscape rest
      exact ⟨_, behind, hBehind, by rw [hRead]⟩
    · split
      · rename_i hQuote
        obtain ⟨behind, hBehind, hRead⟩ := readQuoted_line hQuote hLine hEscape rest
        exact ⟨_, behind, hBehind, by rw [hRead]⟩
      · split
        · rename_i hOpen
          exact absurd hOpen.symm hTick
        · split
          · rename_i hWord
            exact ⟨_, _, afterWord_cons_suffix hWord line, h.wordStep_eq last rest⟩
          · split
            · exact ⟨_, line, List.suffix_refl line, rfl⟩
            · exact ⟨_, line, List.suffix_refl line, rfl⟩

/-- The pass comes out of the line at its end with nothing found. -/
theorem IsSelfContained.sitesFrom_eq (h : IsSelfContained line) (last : Last) (rest : List Char) :
    ∃ last', sitesFrom last (line ++ '\n' :: rest) = sitesFrom last' rest := by
  induction hLength : line.length using Nat.strongRecOn generalizing line last with
  | ind n ih =>
    subst hLength
    cases line with
    | nil => exact ⟨last, (sitesFrom_skips last).space '\n' rest rfl⟩
    | cons c line =>
      obtain ⟨last', behind, hBehind, hStep⟩ := h.step_eq last rest
      rw [List.cons_append, sitesFrom_of_step hStep]
      exact ih behind.length (Nat.lt_succ_of_le hBehind.length_le)
        (h.of_suffix (hBehind.trans (List.suffix_cons c line))) last' rfl

/-- A semicolon behind the line makes the pass forget the last lexeme of it. -/
theorem IsSelfContained.sites_eq (h : IsSelfContained line) (rest : List Char) :
    sites (line ++ '\n' :: ';' :: rest) = sitesFrom (.punctuation ';') rest := by
  have hBody : ∃ behind, behind <:+ line ∧
      body (line ++ '\n' :: ';' :: rest) = behind ++ '\n' :: ';' :: rest := by
    unfold body
    split
    · cases line with
      | nil => exact ⟨[], List.suffix_refl [], by simp_all⟩
      | cons c line => exact ⟨line, List.suffix_cons c line, rfl⟩
    · exact ⟨line, List.suffix_refl line, rfl⟩
  obtain ⟨behind, hBehind, hText⟩ := hBody
  obtain ⟨last, hSites⟩ := (h.of_suffix hBehind).sitesFrom_eq .start (';' :: rest)
  rw [sites, hText, hSites]
  exact sitesFrom_of_step (step_punctuation (by decide) last rest)

end Line

/-- What stands behind a self-contained line and a semicolon is found as if the line were empty,
further down by the bytes of the line. -/
theorem declarations_behind_line {line : List Char} (h : IsSelfContained line) (rest : List Char) :
    declarations (String.ofList (line ++ '\n' :: ';' :: rest)) =
      (declarations (String.ofList ('\n' :: ';' :: rest))).map (.shifted (utf8Length line) 0) := by
  have hEmpty : IsSelfContained [] := h.of_suffix List.nil_suffix
  have hSites : sites (line ++ '\n' :: ';' :: rest) = sites ('\n' :: ';' :: rest) :=
    (h.sites_eq rest).trans (hEmpty.sites_eq rest).symm
  have hLines : line.count '\n' = 0 := List.count_eq_zero.mpr h.noLineEnd
  rw [declarations_eq_map, declarations_eq_map, String.toList_ofList, String.toList_ofList, hSites,
    List.map_map]
  apply List.map_congr_left
  intro site hSite
  obtain ⟨hKeyword, hWhole⟩ := (sites_inOrder _).forall_mem site hSite
  rw [Site.toDeclaration_append line hKeyword hWhole, hLines]
  rfl

def brokenLine : List Char :=
  "\uFEFFconst é = <p>Don't</p> / /[;".toList

theorem brokenLine_passed :
    IsSelfContained brokenLine ∧
    declarations (String.ofList ('\n' :: ';' :: "import './a';".toList)) =
      [⟨.import, ⟨9, 14, '\'', "./a"⟩, false, 2⟩] ∧
    declarations (String.ofList (brokenLine ++ '\n' :: ';' :: "import './a';".toList)) =
      [⟨.import, ⟨41, 46, '\'', "./a"⟩, false, 2⟩] := by
  have hLine : IsSelfContained brokenLine :=
    ⟨by decide, by decide, by decide, by decide, by decide, by decide⟩
  have hEmpty : declarations (String.ofList ('\n' :: ';' :: "import './a';".toList)) =
      [⟨.import, ⟨9, 14, '\'', "./a"⟩, false, 2⟩] := by decide +kernel
  refine ⟨hLine, hEmpty, ?_⟩
  rw [declarations_behind_line hLine, hEmpty]
  decide +kernel

end ExplicitModules.Source
