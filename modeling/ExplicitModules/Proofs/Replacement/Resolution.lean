import ExplicitModules.Proofs.Conversion.Decisions

/-!
# Resolving specifiers

A relative specifier without an extension takes the first of four candidates that is a file, and
what was looked for in vain is told. Written from the importing file it has its candidates beside
that file, whatever the root of the project is.
-/
namespace ExplicitModules
set_option autoImplicit false
open Source

namespace Specifier

variable {file : Path} {text : String}

theorem stem_of_plain (h : (ofText file text).extension = "") : (ofText file text).stem = text := by
  have hParts := stem_append_extension file text
  rwa [h, String.append_empty] at hParts

/-- Written from the directory of the importing file. -/
def StartsBeside (text : String) : Prop :=
  ['.', '/'] <+: text.toList ∨ ['.', '.', '/'] <+: text.toList

instance (text : String) : Decidable (StartsBeside text) :=
  inferInstanceAs (Decidable (_ ∨ _))

theorem isRelative_iff :
    (ofText file text).isRelative = true ↔ StartsBeside text ∨ aliasMark <+: text.toList := by
  simp [ofText, relativeMarks, StartsBeside, or_assoc]

theorem isAlias_iff : (ofText file text).isAlias = true ↔ aliasMark <+: text.toList := by
  rw [isAlias, List.isPrefixOf_iff_prefix, ofText, String.toList_ofList,
    prefix_splitExtension_iff (by decide)]

theorem StartsBeside.head?_eq (h : StartsBeside text) : text.toList.head? = some '.' := by
  rcases h with ⟨cs, hText⟩ | ⟨cs, hText⟩ <;> simp [← hText]

end Specifier

namespace Replacement

variable {t u : FileTree} {root file : Path} {text : String} {s : Specifier}

section Probing

variable {cs missed rest : List Candidate} {c : Candidate} {d : Decision} {stem : String}

/-- The first candidate that is a file decides, and those in front of it have been tried; if there
is none, all have been. -/
inductive TakesFirst (t : FileTree) (stem : String) (cs : List Candidate) : Decision → Prop
  | found {missed rest : List Candidate} {c : Candidate} (hSplit : cs = missed ++ c :: rest)
      (hMissed : ∀ m ∈ missed, t.isFile m.path = false) (hFile : t.isFile c.path = true) :
      TakesFirst t stem cs ⟨some ⟨c.form, stem ++ c.form.suffix⟩, missed.map Candidate.path⟩
  | missing (hMissed : ∀ c ∈ cs, t.isFile c.path = false) :
      TakesFirst t stem cs ⟨none, cs.map Candidate.path⟩

theorem probe_of_found (s : Specifier) (rest : List Candidate)
    (hMissed : ∀ m ∈ missed, t.isFile m.path = false) (hFile : t.isFile c.path = true) :
    probe t s (missed ++ c :: rest) = ⟨some (ofForm s c.form), missed.map Candidate.path⟩ := by
  have hNone : missed.find? (fun c => t.isFile c.path) = none := by simpa using hMissed
  have hFind : (missed ++ c :: rest).find? (fun c => t.isFile c.path) = some c := by
    simp [List.find?_append, hNone, hFile]
  have hTried : (missed ++ c :: rest).takeWhile (fun c => !t.isFile c.path) = missed := by
    rw [List.takeWhile_append_of_pos (by simpa using hMissed),
      List.takeWhile_cons_of_neg (by simp [hFile]), List.append_nil]
  rw [probe, hFind, hTried]
  rfl

theorem probe_of_missing (s : Specifier) (hMissed : ∀ c ∈ cs, t.isFile c.path = false) :
    probe t s cs = ⟨none, cs.map Candidate.path⟩ := by
  have hFind : cs.find? (fun c => t.isFile c.path) = none := by simpa using hMissed
  have hTried : cs.takeWhile (fun c => !t.isFile c.path) = cs :=
    List.takeWhile_eq_self_iff.mpr (by simpa using hMissed)
  rw [probe, hFind, hTried]
  rfl

theorem takesFirst_iff : TakesFirst t s.stem cs d ↔ d = probe t s cs := by
  constructor
  · intro h
    cases h with
    | found hSplit hMissed hFile =>
      rw [hSplit, probe_of_found s _ hMissed hFile]
      rfl
    | missing hMissed => rw [probe_of_missing s hMissed]
  · rintro rfl
    cases hFind : cs.find? fun c => t.isFile c.path with
    | none =>
      have hMissed : ∀ c ∈ cs, t.isFile c.path = false := by simpa using hFind
      rw [probe_of_missing s hMissed]
      exact .missing hMissed
    | some c =>
      obtain ⟨hFile, missed, rest, hSplit, hMissed⟩ := List.find?_eq_some_iff_append.mp hFind
      have hMissed : ∀ m ∈ missed, t.isFile m.path = false := by simpa using hMissed
      rw [hSplit, probe_of_found s rest hMissed hFile]
      exact .found rfl hMissed hFile

theorem TakesFirst.exists_of_mem_tried {p : Path} (h : TakesFirst t stem cs d)
    (hTried : p ∈ d.tried) : ∃ c ∈ cs, c.path = p := by
  cases h with
  | found hSplit hMissed hFile =>
    obtain ⟨c, hC, rfl⟩ := List.mem_map.mp hTried
    exact ⟨c, by simp [hSplit, hC], rfl⟩
  | missing hMissed => exact List.mem_map.mp hTried

theorem TakesFirst.exists_of_replacement {r : Replacement} (h : TakesFirst t stem cs d)
    (hSome : d.replacement = some r) :
    ∃ c ∈ cs, t.isFile c.path = true ∧ r = ⟨c.form, stem ++ c.form.suffix⟩ := by
  cases h with
  | @found missed rest c hSplit hMissed hFile =>
    exact ⟨c, by simp [hSplit], hFile, (Option.some.inj hSome).symm⟩
  | missing hMissed => cases hSome

theorem TakesFirst.unique {d' : Decision} (h : TakesFirst t stem cs d)
    (h' : TakesFirst t stem cs d') : d = d' := by
  have hProbe : ∀ d, TakesFirst t stem cs d → d = probe t ⟨stem, false, ⟨""⟩, stem, ""⟩ cs :=
    fun _ hFirst => takesFirst_iff.mp hFirst
  rw [hProbe d h, hProbe d' h']

theorem TakesFirst.replacement_eq_none_iff (h : TakesFirst t stem cs d) :
    d.replacement = none ↔ ∀ c ∈ cs, t.isFile c.path = false := by
  cases h with
  | @found missed rest c hSplit hMissed hFile =>
    refine iff_of_false nofun fun hNone => ?_
    rw [hNone c (by simp [hSplit])] at hFile
    cases hFile
  | missing hMissed => exact iff_of_true rfl hMissed

theorem TakesFirst.tried_of_missing (h : TakesFirst t stem cs d)
    (hMissed : ∀ c ∈ cs, t.isFile c.path = false) : d.tried = cs.map Candidate.path :=
  congrArg Decision.tried (h.unique (.missing hMissed))

theorem TakesFirst.congr (h : TakesFirst t stem cs d)
    (hAgree : ∀ c ∈ cs, u.isFile c.path = t.isFile c.path) : TakesFirst u stem cs d := by
  cases h with
  | @found missed rest c hSplit hMissed hFile =>
    refine .found hSplit (fun m hM => ?_) ?_
    · rw [hAgree m (by simp [hSplit, hM]), hMissed m hM]
    · rw [hAgree c (by simp [hSplit]), hFile]
  | missing hMissed =>
    refine .missing fun c hC => ?_
    rw [hAgree c hC, hMissed c hC]

end Probing

/-- A relative specifier without an extension takes the first of its candidates. -/
theorem decisionFor_takesFirst (t : FileTree) (root : Path)
    (hRelative : (Specifier.ofText file text).isRelative = true)
    (hPlain : (Specifier.ofText file text).extension = "") :
    TakesFirst t text (candidates root (.ofText file text))
      (decisionFor t root (.ofText file text) false) := by
  have hProbe : decisionFor t root (.ofText file text) false =
      probe t (.ofText file text) (candidates root (.ofText file text)) := by
    simp [decisionFor, hRelative, hPlain]
  have hFirst := takesFirst_iff.mpr hProbe
  rwa [Specifier.stem_of_plain hPlain] at hFirst

def besideImporter (file : Path) (text : String) : List Candidate :=
  let directory := file.parent?.getD ⟨""⟩
  [⟨directory.joinText (text ++ ".ts"), .module⟩,
    ⟨directory.joinText (text ++ ".tsx"), .component⟩,
    ⟨directory.joinText (text ++ "/index.tsx"), .indexComponent⟩,
    ⟨directory.joinText (text ++ "/index.ts"), .index⟩]

theorem candidates_beside (root : Path) (hBeside : Specifier.StartsBeside text)
    (hPlain : (Specifier.ofText file text).extension = "") :
    candidates root (.ofText file text) = besideImporter file text := by
  have hAlias : (Specifier.ofText file text).isAlias = false := by
    rw [Bool.eq_false_iff, ne_eq, Specifier.isAlias_iff]
    rintro ⟨cs, hText⟩
    have hDot := hBeside.head?_eq
    rw [← hText] at hDot
    cases hDot
  rw [candidates, hAlias, Specifier.stem_of_plain hPlain]
  rfl

/-- The source that a script is compiled from. -/
def sourceOf (specifier : String) : String :=
  match specifier.toList.reverse with
  | 's' :: 'j' :: '.' :: stem => String.ofList stem.reverse ++ ".ts"
  | 'x' :: 's' :: 'j' :: '.' :: stem => String.ofList stem.reverse ++ ".tsx"
  | _ => specifier

theorem path_of_mem_besideImporter {c : Candidate} (h : c ∈ besideImporter file text) :
    c.path = (file.parent?.getD ⟨""⟩).joinText (sourceOf (text ++ c.form.suffix)) := by
  simp only [besideImporter, List.mem_cons, List.not_mem_nil, or_false] at h
  rcases h with rfl | rfl | rfl | rfl
  · simp [Form.suffix, sourceOf]
  · simp [Form.suffix, sourceOf]
  · simp [Form.suffix, sourceOf, String.append_assoc]
  · simp [Form.suffix, sourceOf, String.append_assoc]

/-- A specifier is left alone without any probe if it is not relative, has attributes or an
extension other than that of JSON data, which is always replaced. Written from the importing file
and without an extension it takes the first of four candidates beside that file, whatever the root
is; what is written goes on behind the specifier and names the file that was found. -/
theorem relative_decision (t : FileTree) (root file : Path) (text : String) (hasAttributes : Bool) :
    let s := Specifier.ofText file text
    let d := decisionFor t root s hasAttributes
    (hasAttributes = true ∨ s.isRelative = false ∨ s.extension ≠ "" ∧ s.extension ≠ ".json" →
      d = ⟨none, []⟩) ∧
    (hasAttributes = false → s.isRelative = true → s.extension = ".json" →
      d = ⟨some ⟨.json, text⟩, []⟩) ∧
    (hasAttributes = false → Specifier.StartsBeside text → s.extension = "" →
      TakesFirst t text (besideImporter file text) d ∧
      (∀ root', decisionFor t root' s hasAttributes = d) ∧
      ∀ r, d.replacement = some r →
        text.toList <+: r.specifier.toList ∧ r.specifier ≠ text ∧
        ∃ c ∈ besideImporter file text, t.isFile c.path = true ∧ c.form = r.form ∧
          c.path = s.directory.joinText (sourceOf r.specifier)) := by
  refine ⟨?_, ?_, ?_⟩
  · rintro (hAttributes | hOther | ⟨hSome, hScript⟩)
    · simp [decisionFor, hAttributes]
    · simp [decisionFor, hOther]
    · simp [decisionFor, hSome, hScript]
  · rintro rfl hRelative hJson
    have hParts := Specifier.stem_append_extension file text
    rw [hJson] at hParts
    simp [decisionFor, hRelative, hJson, ofForm, Form.suffix, hParts]
  · rintro rfl hBeside hPlain
    have hRelative : (Specifier.ofText file text).isRelative = true :=
      Specifier.isRelative_iff.mpr (Or.inl hBeside)
    have hFirst : ∀ root', TakesFirst t text (besideImporter file text)
        (decisionFor t root' (.ofText file text) false) := by
      intro root'
      rw [← candidates_beside root' hBeside hPlain]
      exact decisionFor_takesFirst t root' hRelative hPlain
    refine ⟨hFirst root, ?_, ?_⟩
    · intro root'
      exact (hFirst root').unique (hFirst root)
    · intro r hSome
      obtain ⟨c, hC, hFile, rfl⟩ := (hFirst root).exists_of_replacement hSome
      have hPath := path_of_mem_besideImporter hC
      have hSuffix : c.form.suffix ≠ "" := by cases c.form <;> decide
      refine ⟨?_, ?_, c, hC, hFile, rfl, hPath⟩
      · rw [String.toList_append]
        exact List.prefix_append _ _
      · intro hSame
        apply hSuffix
        simpa using congrArg String.toList hSame

/-- A tree in which `./b` is a directory with both index files, and `b.ts` another directory. -/
def indexedDirectory : FileTree :=
  ⟨[(["p"], .directory 0o755), (["p", "src"], .directory 0o755),
    (["p", "src", "b.ts"], .directory 0o755), (["p", "src", "b"], .directory 0o755),
    (["p", "src", "b", "index.ts"], .file .empty 0o644),
    (["p", "src", "b", "index.tsx"], .file .empty 0o644)]⟩

theorem indexedDirectory_decision :
    let s := Specifier.ofText ⟨"/p/src/a.ts"⟩ "./b"
    decisionFor indexedDirectory ⟨"/p"⟩ s false =
      ⟨some ⟨.indexComponent, "./b/index.jsx"⟩, [⟨"/p/src/./b.ts"⟩, ⟨"/p/src/./b.tsx"⟩]⟩ ∧
    TakesFirst indexedDirectory "./b" (besideImporter ⟨"/p/src/a.ts"⟩ "./b")
      (decisionFor indexedDirectory ⟨"/p"⟩ s false) := by
  have hDecision := relative_decision indexedDirectory ⟨"/p"⟩ ⟨"/p/src/a.ts"⟩ "./b" false
  refine ⟨by decide +kernel, ?_⟩
  exact (hDecision.2.2 rfl (by decide +kernel) (by decide +kernel)).1

end Replacement
end ExplicitModules
