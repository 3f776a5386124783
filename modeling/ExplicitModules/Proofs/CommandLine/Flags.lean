import ExplicitModules.CommandLine.Arguments

/-!
# Arguments that differ in flags

Two lists of arguments that differ in flags which log, or in the one that asks for a report, are read
as options that agree about the project and about what is done with it.
-/
namespace ExplicitModules.CommandLine
set_option autoImplicit false

/-- Options for the same conversion; with the same `json`, if that matters. -/
structure Options.Agree (jsonMatters : Prop) (o o' : Options) : Prop where
  project : o.project = o'.project
  directory : o.directory = o'.directory
  dryRun : o.dryRun = o'.dryRun
  json : jsonMatters → o.json = o'.json

structure Reading.Agree (jsonMatters : Prop) (r r' : Reading) : Prop where
  inVersion : r.inVersion = r'.inVersion
  options : r.options.Agree jsonMatters r'.options

theorem Reading.Agree.symm {jsonMatters : Prop} {r r' : Reading} (h : r.Agree jsonMatters r') :
    r'.Agree jsonMatters r :=
  ⟨h.inVersion.symm, h.options.project.symm, h.options.directory.symm, h.options.dryRun.symm,
    fun hMatters => (h.options.json hMatters).symm⟩

theorem Reading.Agree.trans {jsonMatters : Prop} {r s u : Reading} (h : r.Agree jsonMatters s)
    (h' : s.Agree jsonMatters u) : r.Agree jsonMatters u :=
  ⟨h.inVersion.trans h'.inVersion, h.options.project.trans h'.options.project,
    h.options.directory.trans h'.options.directory, h.options.dryRun.trans h'.options.dryRun,
    fun hMatters => (h.options.json hMatters).trans (h'.options.json hMatters)⟩

def IsLoggingFlag (argument : String) : Prop :=
  argument ∈ ["--debug", "--verbose", "--json-logs"] ∨
    ∃ n, argument = String.ofList ('-' :: List.replicate (n + 1) 'v')

/-- Arguments that differ only in flags for which `flag` holds. What stands behind two dashes, or
right behind `--cwd`, is no flag. -/
inductive DifferIn (flag : String → Prop) : List String → List String → Prop
  | none : DifferIn flag [] []
  | added {argument : String} {one other : List String} (hFlag : flag argument)
      (h : DifferIn flag one other) : DifferIn flag (argument :: one) other
  | missing {argument : String} {one other : List String} (hFlag : flag argument)
      (h : DifferIn flag one other) : DifferIn flag one (argument :: other)
  | same {argument : String} {one other : List String} (hDashes : argument ≠ "--")
      (hDirectory : argument ≠ "--cwd") (h : DifferIn flag one other) :
      DifferIn flag (argument :: one) (argument :: other)
  | directory {value : String} {one other : List String} (h : DifferIn flag one other) :
      DifferIn flag ("--cwd" :: value :: one) ("--cwd" :: value :: other)
  | rest (more : List String) : DifferIn flag ("--" :: more) ("--" :: more)

theorem DifferIn.mono {flag flag' : String → Prop} {one other : List String}
    (h : DifferIn flag one other) (hFlag : ∀ argument, flag argument → flag' argument) :
    DifferIn flag' one other := by
  induction h with
  | none => exact .none
  | added hHere _ ih => exact .added (hFlag _ hHere) ih
  | missing hHere _ ih => exact .missing (hFlag _ hHere) ih
  | same hDashes hDirectory _ ih => exact .same hDashes hDirectory ih
  | directory _ ih => exact .directory ih
  | rest more => exact .rest more

def Outcome.Agree (jsonMatters : Prop) (one other : Outcome) : Prop :=
  ∀ s s', one = .ok (.next s) → other = .ok (.next s') → s.Agree jsonMatters s'

section Step

variable {jsonMatters : Prop} {r r' : Reading}

theorem Outcome.Agree.of_error (e : UsageFault) (other : Outcome) :
    Outcome.Agree jsonMatters (.error e) other := by
  intro s s' hNext
  cases hNext

theorem Outcome.Agree.of_error_right (one : Outcome) (e : UsageFault) :
    Outcome.Agree jsonMatters one (.error e) := by
  intro s s' _ hNext
  cases hNext

theorem Outcome.Agree.of_done (c : Command) (other : Outcome) :
    Outcome.Agree jsonMatters (.ok (.done c)) other := by
  intro s s' hNext
  cases hNext

theorem Outcome.Agree.of_next {s s' : Reading} (h : s.Agree jsonMatters s') :
    Outcome.Agree jsonMatters (.ok (.next s)) (.ok (.next s')) := by
  intro u u' hU hU'
  cases hU
  cases hU'
  exact h

theorem setProject_agree (h : r.Agree jsonMatters r') (value : String) :
    Outcome.Agree jsonMatters (r.setProject value) (r'.setProject value) := by
  unfold Reading.setProject
  rw [h.inVersion, h.options.project]
  split
  · exact .of_error _ _
  · split
    · exact .of_error _ _
    · exact .of_next ⟨rfl, rfl, h.options.directory, h.options.dryRun, h.options.json⟩

theorem setDirectory_agree (h : r.Agree jsonMatters r') (value : String) :
    Outcome.Agree jsonMatters (r.setDirectory value) (r'.setDirectory value) := by
  unfold Reading.setDirectory
  rw [h.options.directory]
  split
  · exact .of_error _ _
  · split
    · exact .of_error _ _
    · exact .of_next ⟨h.inVersion, h.options.project, rfl, h.options.dryRun, h.options.json⟩

theorem setFlag_agree {o o' : Options} (hVersion : r.inVersion = r'.inVersion)
    (h : o.Agree jsonMatters o') (name : String) (isSet isSet' : Bool) :
    Outcome.Agree jsonMatters (r.setFlag name isSet o) (r'.setFlag name isSet' o') := by
  unfold Reading.setFlag
  split
  · exact .of_error _ _
  · split
    · exact .of_error_right _ _
    · exact .of_next ⟨hVersion, h⟩

theorem raiseVerbosity_agree (h : r.Agree jsonMatters r') :
    r.raiseVerbosity.Agree jsonMatters r'.raiseVerbosity :=
  ⟨h.inVersion, h.options.project, h.options.directory, h.options.dryRun, h.options.json⟩

theorem longFlag_agree (h : r.Agree jsonMatters r') (name : String) :
    Outcome.Agree jsonMatters (r.longFlag name) (r'.longFlag name) := by
  obtain ⟨hVersion, hProject, hDirectory, hDry, hJson⟩ := h
  unfold Reading.longFlag
  rw [hVersion]
  dsimp only
  split
  · exact .of_next (raiseVerbosity_agree ⟨hVersion, hProject, hDirectory, hDry, hJson⟩)
  split
  · apply setFlag_agree hVersion
    exact ⟨hProject, hDirectory, hDry, hJson⟩
  split
  · exact .of_done _ _
  split
  · exact .of_error _ _
  split
  · apply setFlag_agree hVersion
    exact ⟨hProject, hDirectory, hDry, hJson⟩
  split
  · apply setFlag_agree hVersion
    exact ⟨hProject, hDirectory, rfl, hJson⟩
  split
  · apply setFlag_agree hVersion
    exact ⟨hProject, hDirectory, hDry, fun _ => rfl⟩
  split
  · exact .of_done _ _
  · exact .of_error _ _

theorem shortFlags_agree (h : r.Agree jsonMatters r') (argument : String) (cs : List Char) :
    Outcome.Agree jsonMatters (r.shortFlags argument cs) (r'.shortFlags argument cs) := by
  induction cs generalizing r r' with
  | nil => exact .of_next h
  | cons c cs ih =>
    unfold Reading.shortFlags
    rw [h.inVersion]
    split
    · exact ih (raiseVerbosity_agree h)
    split
    · exact .of_done _ _
    split
    · exact .of_done _ _
    · exact .of_error _ _

theorem command_agree {o o' : Options} (h : r.Agree jsonMatters r')
    (hEnd : (.ok r.command : Except UsageFault Command) = .ok (.convert o))
    (hEnd' : (.ok r'.command : Except UsageFault Command) = .ok (.convert o')) :
    o.Agree jsonMatters o' := by
  have hOptions : ∀ {r o}, (.ok (Reading.command r) : Except UsageFault Command) =
      .ok (.convert o) → r.options = o := by
    grind [Reading.command]
  rw [← hOptions hEnd, ← hOptions hEnd']
  exact h.options

theorem argument_agree (h : r.Agree jsonMatters r') (argument : String) :
    Outcome.Agree jsonMatters (r.argument argument) (r'.argument argument) := by
  unfold Reading.argument
  rw [h.inVersion]
  split
  · exact .of_next ⟨rfl, rfl, rfl, rfl, fun _ => rfl⟩
  split
  · unfold Reading.longOption
    dsimp only
    split
    · exact longFlag_agree h _
    · split
      · exact setDirectory_agree h _
      · split
        · exact .of_error _ _
        · exact .of_error _ _
  split
  · exact shortFlags_agree h _ _
  · exact setProject_agree h _

theorem argument_eq_longFlag (r : Reading) {argument : String} (hVersion : argument ≠ "version")
    (hDashes : ['-', '-'].isPrefixOf argument.toList = true)
    (hPlain : argument.toList.dropWhile (· != '=') = []) :
    r.argument argument = r.longFlag argument := by
  have hName : argument.toList.takeWhile (· != '=') = argument.toList := by
    have hWhole := List.takeWhile_append_dropWhile (p := (· != '=')) (l := argument.toList)
    rwa [hPlain, List.append_nil] at hWhole
  rw [Reading.argument, if_neg fun hBoth => hVersion hBoth.2, if_pos hDashes, Reading.longOption]
  simp only [hPlain, hName, String.ofList_toList]

theorem shortFlags_agree_self (h : r.Agree jsonMatters r') {argument : String} {cs : List Char}
    {s : Reading} (hNext : r'.shortFlags argument cs = .ok (.next s)) : r.Agree jsonMatters s := by
  induction cs generalizing r' with
  | nil =>
    cases hNext
    exact h
  | cons c cs ih =>
    unfold Reading.shortFlags at hNext
    split at hNext
    · have hRaised : r.Agree jsonMatters r'.raiseVerbosity :=
        ⟨h.inVersion, h.options.project, h.options.directory, h.options.dryRun, h.options.json⟩
      exact ih hRaised hNext
    split at hNext
    · cases hNext
    split at hNext
    · cases hNext
    · cases hNext

/-- A long flag, but those for a dry run and for a report, leaves what is done and printed. -/
theorem longFlag_agree_self {name : String} {s : Reading} (hDry : name ≠ "--dry-run")
    (hJson : jsonMatters → name ≠ "--json") (hNext : r.longFlag name = .ok (.next s)) :
    r.Agree jsonMatters s := by
  have hSet : ∀ {isSet o}, r.setFlag name isSet o = .ok (.next s) → s = { r with options := o } := by
    intro isSet o hFlag
    unfold Reading.setFlag at hFlag
    split at hFlag
    · cases hFlag
    · cases hFlag
      rfl
  unfold Reading.longFlag at hNext
  dsimp only at hNext
  split at hNext
  · cases hNext
    exact ⟨rfl, rfl, rfl, rfl, fun _ => rfl⟩
  split at hNext
  · rw [hSet hNext]
    exact ⟨rfl, rfl, rfl, rfl, fun _ => rfl⟩
  split at hNext
  · cases hNext
  split at hNext
  · cases hNext
  split at hNext
  · rw [hSet hNext]
    exact ⟨rfl, rfl, rfl, rfl, fun _ => rfl⟩
  split at hNext
  · rename_i hName
    rw [hSet hNext]
    exact ⟨rfl, rfl, rfl, rfl, fun hMatters => absurd hName (hJson hMatters)⟩
  split at hNext
  · cases hNext
  · cases hNext

end Step

/-- An argument that stands for itself and changes nothing that agreeing options agree about. -/
structure IsIdle (jsonMatters : Prop) (argument : String) : Prop where
  alone : argument ≠ "--" ∧ argument ≠ "--cwd" ∧ argument ≠ "help"
  keeps : ∀ r s : Reading, r.argument argument = .ok (.next s) → r.Agree jsonMatters s

theorem IsIdle.of_long {jsonMatters : Prop} {argument : String}
    (hMem : argument ∈ ["--debug", "--verbose", "--json-logs", "--json"])
    (hJson : jsonMatters → argument ≠ "--json") : IsIdle jsonMatters argument := by
  have hWords : ∀ flag ∈ ["--debug", "--verbose", "--json-logs", "--json"],
      flag ∉ ["--", "--cwd", "help", "version", "--dry-run"] ∧
        ['-', '-'].isPrefixOf flag.toList = true ∧ flag.toList.dropWhile (· != '=') = [] := by
    decide
  obtain ⟨hOther, hDashes, hPlain⟩ := hWords argument hMem
  simp only [List.mem_cons, List.not_mem_nil, or_false, not_or] at hOther
  obtain ⟨hEnd, hDirectory, hHelp, hVersion, hDry⟩ := hOther
  refine ⟨⟨hEnd, hDirectory, hHelp⟩, fun r s hNext => ?_⟩
  rw [argument_eq_longFlag r hVersion hDashes hPlain] at hNext
  exact longFlag_agree_self hDry hJson hNext

theorem IsIdle.of_letters (jsonMatters : Prop) (n : Nat) :
    IsIdle jsonMatters (String.ofList ('-' :: List.replicate (n + 1) 'v')) := by
  have hWord : ∀ word ∈ ["--", "--cwd", "help", "version"],
      String.ofList ('-' :: List.replicate (n + 1) 'v') ≠ word := by
    intro word hMem hEq
    have hSecond : word.toList[0]? = some '-' ∧ word.toList[1]? = some 'v' := by
      rw [← hEq, String.toList_ofList, List.replicate_succ]
      exact ⟨rfl, rfl⟩
    clear hEq
    revert word
    decide
  refine ⟨⟨hWord _ (by decide), hWord _ (by decide), hWord _ (by decide)⟩, fun r s hNext => ?_⟩
  have hVersion := hWord "version" (by decide)
  have hOption : looksLikeOption (String.ofList ('-' :: List.replicate (n + 1) 'v')) = true := by
    simp [looksLikeOption]
  rw [Reading.argument, if_neg fun hBoth => hVersion hBoth.2, if_neg (by simp [List.replicate_succ]),
    if_pos hOption] at hNext
  exact shortFlags_agree_self ⟨rfl, rfl, rfl, rfl, fun _ => rfl⟩ hNext

theorem IsLoggingFlag.isIdle {argument : String} (h : IsLoggingFlag argument)
    (jsonMatters : Prop) : IsIdle jsonMatters argument := by
  rcases h with hLong | ⟨n, rfl⟩
  · refine .of_long (List.mem_append_left ["--json"] hLong) fun _ hJson => ?_
    subst hJson
    revert hLong
    decide
  · exact .of_letters jsonMatters n

section Read

variable {r : Reading} {o : Options}

theorem setProject_ne_done (value : String) : r.setProject value ≠ .ok (.done (.convert o)) := by
  grind [Reading.setProject]

theorem shortFlags_ne_done (argument : String) (cs : List Char) :
    r.shortFlags argument cs ≠ .ok (.done (.convert o)) := by
  induction cs generalizing r with
  | nil => exact fun hDone => by cases hDone
  | cons c cs ih => grind [Reading.shortFlags]

/-- An argument ends the reading for help or for the version alone. -/
theorem argument_ne_done (argument : String) :
    r.argument argument ≠ .ok (.done (.convert o)) := by
  have hLong : ∀ name, r.longFlag name ≠ .ok (.done (.convert o)) := by
    grind [Reading.longFlag, Reading.setFlag]
  have hOption : r.longOption argument ≠ .ok (.done (.convert o)) := by
    grind [Reading.longOption, Reading.setDirectory]
  unfold Reading.argument
  split
  · exact fun hDone => by cases hDone
  split
  · exact hOption
  split
  · exact shortFlags_ne_done _ _
  · exact setProject_ne_done _

theorem andThen_eq_convert {outcome : Outcome} {go : Reading → Except UsageFault Command}
    (hDone : outcome ≠ .ok (.done (.convert o))) (h : outcome.andThen go = .ok (.convert o)) :
    ∃ s, outcome = .ok (.next s) ∧ go s = .ok (.convert o) := by
  unfold Outcome.andThen at h
  split at h
  · cases h
  · cases h
    exact absurd rfl hDone
  · rename_i s
    exact ⟨s, rfl, h⟩

/-- Options come out of an argument only through the reading behind it. -/
theorem exists_next {argument : String} {more : List String} (hDashes : argument ≠ "--")
    (hDirectory : argument ≠ "--cwd") (h : r.read (argument :: more) = .ok (.convert o)) :
    ∃ s, r.argument argument = .ok (.next s) ∧ s.read more = .ok (.convert o) := by
  have hHelp : Command.ofHelp more ≠ .ok (.convert o) := by
    unfold Command.ofHelp
    grind
  unfold Reading.read at h
  split at h
  · contradiction
  · rename_i hEq
    exact absurd (List.cons.inj hEq).1 hDashes
  · contradiction
  · rename_i hEq
    exact absurd (List.cons.inj hEq).1 hDirectory
  · rename_i hEq
    cases hEq
    split at h
    · exact absurd h hHelp
    · exact andThen_eq_convert (argument_ne_done _) h

theorem exists_next_directory {value : String} {more : List String}
    (h : r.read ("--cwd" :: value :: more) = .ok (.convert o)) :
    ∃ s, r.setDirectory value = .ok (.next s) ∧ s.read more = .ok (.convert o) := by
  have hDone : r.setDirectory value ≠ .ok (.done (.convert o)) := by
    grind [Reading.setDirectory]
  rw [Reading.read] at h
  split at h
  · cases h
  · exact andThen_eq_convert hDone h

theorem rest_agree {jsonMatters : Prop} {r r' : Reading} {o o' : Options} {more : List String}
    (hAgree : r.Agree jsonMatters r') (h : r.rest more = .ok (.convert o))
    (h' : r'.rest more = .ok (.convert o')) : o.Agree jsonMatters o' := by
  induction more generalizing r r' with
  | nil => exact command_agree hAgree h h'
  | cons value more ih =>
    obtain ⟨s, hS, hRest⟩ := andThen_eq_convert (setProject_ne_done value) h
    obtain ⟨s', hS', hRest'⟩ := andThen_eq_convert (setProject_ne_done value) h'
    exact ih (setProject_agree hAgree value s s' hS hS') hRest hRest'

/-- Arguments that differ in idle ones are read as options that agree. -/
theorem DifferIn.agree {jsonMatters : Prop} {one other : List String} {r r' : Reading}
    {o o' : Options} (hDiffer : DifferIn (IsIdle jsonMatters) one other)
    (hAgree : r.Agree jsonMatters r') (h : r.read one = .ok (.convert o))
    (h' : r'.read other = .ok (.convert o')) : o.Agree jsonMatters o' := by
  -- an idle argument that only one of the readings meets keeps what both agree about
  induction hDiffer generalizing r r' with
  | none =>
    rw [Reading.read] at h h'
    exact command_agree hAgree h h'
  | added hFlag _ ih =>
    obtain ⟨hDashes, hDirectory, -⟩ := hFlag.alone
    obtain ⟨s, hS, hMore⟩ := exists_next hDashes hDirectory h
    exact ih ((hFlag.keeps r s hS).symm.trans hAgree) hMore h'
  | missing hFlag _ ih =>
    obtain ⟨hDashes, hDirectory, -⟩ := hFlag.alone
    obtain ⟨s', hS', hMore'⟩ := exists_next hDashes hDirectory h'
    exact ih (hAgree.trans (hFlag.keeps r' s' hS')) h hMore'
  | same hDashes hDirectory _ ih =>
    obtain ⟨s, hS, hMore⟩ := exists_next hDashes hDirectory h
    obtain ⟨s', hS', hMore'⟩ := exists_next hDashes hDirectory h'
    exact ih (argument_agree hAgree _ s s' hS hS') hMore hMore'
  | directory _ ih =>
    obtain ⟨s, hS, hMore⟩ := exists_next_directory h
    obtain ⟨s', hS', hMore'⟩ := exists_next_directory h'
    exact ih (setDirectory_agree hAgree _ s s' hS hS') hMore hMore'
  | rest more =>
    rw [Reading.read] at h h'
    exact rest_agree hAgree h h'

end Read

end ExplicitModules.CommandLine
