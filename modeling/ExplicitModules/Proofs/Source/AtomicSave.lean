import ExplicitModules.Proofs.FileTree.Saving
import ExplicitModules.Proofs.FileTree.Temporary
import ExplicitModules.Source.Saving

/-!
# Saving is atomic

A save that goes through leaves the tree with one entry replaced, and one that is stopped leaves it
as it was, wherever it is stopped. The temporary file shows in neither.
-/
namespace ExplicitModules
set_option autoImplicit false
open FileTree

namespace FileTree

variable {t : FileTree} {p temporary : Path} {place : Location} {content : ByteArray} {mode : Nat}

theorem makeTemporary_eq_ok {directory : Path} {names : List String} {made : FileTree}
    (h : t.makeTemporary directory names = .ok (temporary, made)) :
    ∃ place, t.slot temporary = .ok place ∧ t.node? place = none ∧
      made = t.put place (.file .empty temporaryMode) := by
  induction names with
  | nil => cases h
  | cons name names ih =>
    rw [makeTemporary] at h
    split at h
    · cases h
    · rename_i place hSlot
      split at h
      · exact ih h
      · rename_i hFree
        obtain ⟨rfl, rfl⟩ := Prod.mk.inj (Except.ok.inj h)
        exact ⟨place, hSlot, by simpa using hFree, rfl⟩

theorem node?_put_self (hPlace : place ≠ []) (node : Node) :
    (t.put place node).node? place = some node := by
  rw [node?_put_of_ne_nil _ _ hPlace, if_pos rfl]

theorem exists_locate_of_modeOf (h : t.modeOf p = .ok mode) :
    ∃ loc node, t.locate true p = .ok loc ∧ t.node? loc = some node ∧ node.mode = mode := by
  cases hLoc : t.locate true p with
  | error e =>
    rw [(locate_error hLoc).2] at h
    cases h
  | ok loc =>
    rw [modeOf, hLoc] at h
    simp only [bind, Except.bind] at h
    split at h
    · rename_i node hNode
      exact ⟨loc, node, rfl, hNode, Except.ok.inj h⟩
    · cases h

/-- A file is replaced by putting another at the place that the path names, also when the place is
looked up in a larger tree. -/
theorem replaceFile_eq {u : FileTree} (hMode : t.modeOf p = .ok mode) (hKept : t.KeptBy u) :
    t.replaceFile p content =
      match u.slot p with
      | .error e => .error e
      | .ok entry =>
        if t.isDirectoryAt entry then .error .isDirectory
        else .ok (t.put entry (.file content mode)) := by
  obtain ⟨loc, _, hLoc, -, -⟩ := exists_locate_of_modeOf hMode
  obtain ⟨hLength, hNul, hEmpty⟩ := text_of_locate hLoc
  obtain ⟨entry, hEntry, -⟩ := locate_false_of_true hLoc
  rw [replaceFile, hMode]
  simp only [bind, Except.bind]
  split
  · rename_i hLast
    simp only [slot, if_neg hLength, if_neg hNul, if_neg hEmpty, hLast]
  · rename_i hLast
    simp only [slot, if_neg hLength, if_neg hNul, if_neg hEmpty, hLast]
  · rename_i hLast
    simp only [slot, if_neg hLength, if_neg hNul, if_neg hEmpty, hLast]
  · rename_i hDot hParent hLast
    simp only [slot, if_neg hLength, if_neg hNul, if_neg hEmpty, hLast]
  · rename_i hDot hParent hLast
    rw [slot_of_locate hLoc hEntry hLast hDot hParent hKept, hEntry]

/-- Where there is something already, the place that a path names is that of the entry it leads
to. -/
theorem locate_of_modeOf {u : FileTree} {entry : Location} (hMode : t.modeOf p = .ok mode)
    (hKept : t.KeptBy u) (h : u.slot p = .ok entry) :
    t.locate false p = .ok entry ∧ ∃ node, t.node? entry = some node := by
  obtain ⟨loc, node, hLoc, hNode, -⟩ := exists_locate_of_modeOf hMode
  obtain ⟨entry', hEntry, hEnd⟩ := locate_false_of_true hLoc
  obtain ⟨last, hLast, hDot, hParent⟩ := lastSegment_of_slot h
  rw [slot_of_locate hLoc hEntry hLast hDot hParent hKept] at h
  obtain rfl := Except.ok.inj h
  refine ⟨hEntry, ?_⟩
  rcases hEnd with rfl | hLeads
  · exact ⟨node, hNode⟩
  · obtain ⟨target, hLink⟩ := hLeads.isLinkAt
    exact ⟨.link target, hLink⟩

section Beside

variable (hSlot : t.slot temporary = .ok place) (hFree : t.node? place = none)
include hSlot hFree

theorem locate_temporary (follow : Bool) :
    (t.put place (.file content mode)).locate follow temporary = .ok place := by
  have hPlace := ne_nil_of_slot hSlot
  exact locate_of_slot hSlot (keptBy_put hPlace hFree _) (node?_put_self hPlace _) follow

theorem write_temporary (bytes : ByteArray) :
    (t.put place (.file content mode)).write temporary bytes =
      .ok (t.put place (.file bytes mode)) := by
  rw [write, locate_temporary hSlot hFree]
  dsimp only
  rw [node?_put_self (ne_nil_of_slot hSlot)]
  dsimp only
  rw [put_put (ne_nil_of_slot hSlot) hFree]

theorem changeMode_temporary (mode' : Nat) :
    (t.put place (.file content mode)).changeMode temporary mode' =
      .ok (t.put place (.file content mode')) := by
  rw [changeMode, locate_temporary hSlot hFree]
  simp only [bind, Except.bind, node?_put_self (ne_nil_of_slot hSlot)]
  rw [put_put (ne_nil_of_slot hSlot) hFree]

theorem unlink_temporary : (t.put place (.file content mode)).unlink temporary = t := by
  rw [unlink, locate_temporary hSlot hFree]
  exact dropAt_put (ne_nil_of_slot hSlot) hFree _

/-- Moving the file replaces what the path leads to as if there were no temporary file. -/
theorem moveFile_temporary (hMode : t.modeOf p = .ok mode) :
    (t.put place (.file content mode)).moveFile temporary p = t.replaceFile p content := by
  have hPlace := ne_nil_of_slot hSlot
  have hKept := keptBy_put hPlace hFree (.file content mode)
  rw [replaceFile_eq hMode hKept, moveFile, locate_temporary hSlot hFree]
  simp only [bind, Except.bind, node?_put_self hPlace]
  cases hEntry : (t.put place (.file content mode)).slot p with
  | error e => rfl
  | ok entry =>
    obtain ⟨-, node, hNode⟩ := locate_of_modeOf hMode hKept hEntry
    have hApart : entry ≠ place := by
      rintro rfl
      rw [hFree] at hNode
      cases hNode
    have hDirectory : (t.put place (.file content mode)).isDirectoryAt entry =
        t.isDirectoryAt entry := by
      rw [isDirectoryAt, isDirectoryAt, node?_put_of_ne_nil _ _ hPlace, if_neg hApart]
    dsimp only
    rw [hDirectory, if_neg hApart, dropAt_put_put hPlace hFree hApart]

end Beside

end FileTree

namespace Source.Document

/-- The edited text in place of the file, all at once: what a save comes to if it goes through. -/
def saveAtOnce (d : Document) (t : FileTree) : Except SaveFault FileTree :=
  match t.modeOf d.path with
  | .error e => .error (.file e)
  | .ok _ =>
    match d.render? with
    | none => .error .splitCharacter
    | some text => (t.replaceFile d.path text.toUTF8).mapError SaveFault.file

variable (d : Document) {names : List String} {t u : FileTree} {temporary : Path} {made : FileTree}
  {place : Location} {mode : Nat}

theorem saveAtOnce_eq {d : Document} {text : String} (t : FileTree) (h : d.render? = some text) :
    d.saveAtOnce t = (t.replaceFile d.path text.toUTF8).mapError SaveFault.file := by
  unfold saveAtOnce replaceFile
  cases t.modeOf d.path with
  | error e => rfl
  | ok mode =>
    rw [h]

/-- From the temporary file on, a save does what replacing the file at once does, and what it leaves
behind when it is stopped is only the temporary file. -/
theorem fillAndMove_eq (hSlot : t.slot temporary = .ok place) (hFree : t.node? place = none)
    (hMode : t.modeOf d.path = .ok mode) :
    let attempt := d.fillAndMove temporary mode (t.put place (.file .empty temporaryMode))
    (∃ u, d.saveAtOnce t = .ok u ∧ attempt = ⟨u, none⟩) ∨
      ∃ f, d.saveAtOnce t = .error f ∧ attempt.stop = some (.fault f) ∧
        attempt.tree.unlink temporary = t := by
  intro attempt
  cases hRender : d.render? with
  | none =>
    -- nothing has been written yet: the temporary file goes as it came
    refine Or.inr ⟨.splitCharacter, ?_, ?_, ?_⟩
    · rw [saveAtOnce, hMode, hRender]
    · simp only [attempt, fillAndMove, hRender]
    · simp only [attempt, fillAndMove, hRender]
      exact unlink_temporary hSlot hFree
  | some text =>
    have hSave := saveAtOnce_eq t hRender
    have hMove : (t.put place (.file text.toUTF8 mode)).moveFile temporary d.path =
        t.replaceFile d.path text.toUTF8 :=
      moveFile_temporary hSlot hFree hMode
    cases hReplace : t.replaceFile d.path text.toUTF8 with
    | ok u =>
      rw [hReplace] at hMove hSave
      refine Or.inl ⟨u, hSave, ?_⟩
      simp only [attempt, fillAndMove, hRender, write_temporary hSlot hFree,
        changeMode_temporary hSlot hFree, hMove]
    | error e =>
      rw [hReplace] at hMove hSave
      have hAttempt : attempt =
          ⟨t.put place (.file text.toUTF8 mode), some (.fault (.file e))⟩ := by
        simp only [attempt, fillAndMove, hRender, write_temporary hSlot hFree,
          changeMode_temporary hSlot hFree, hMove]
      refine Or.inr ⟨.file e, hSave, ?_, ?_⟩
      · rw [hAttempt]
      · rw [hAttempt]
        exact unlink_temporary hSlot hFree

/-- A save through a temporary file ends as replacing the file at once does, or is stopped for want
of such a file. -/
theorem saveThrough_cases (names : List String) (t : FileTree) :
    (∃ made u, t.makeTemporary d.directory names = .ok made ∧ d.saveAtOnce t = .ok u ∧
        d.saveThrough names t = ⟨u, none⟩) ∨
      (∃ f, d.saveAtOnce t = .error f ∧ d.saveThrough names t = ⟨t, some (.fault f)⟩) ∨
      ∃ f, t.makeTemporary d.directory names = .error f ∧
        d.saveThrough names t = ⟨t, some (.temporary f)⟩ := by
  cases hMode : t.modeOf d.path with
  | error e =>
    refine Or.inr (Or.inl ⟨.file e, ?_, ?_⟩)
    · rw [saveAtOnce, hMode]
    · rw [saveThrough, hMode]
  | ok mode =>
    cases hTemporary : t.makeTemporary d.directory names with
    | error f =>
      refine Or.inr (Or.inr ⟨f, rfl, ?_⟩)
      simp only [saveThrough, hMode, hTemporary]
    | ok found =>
      obtain ⟨temporary, made⟩ := found
      obtain ⟨place, hSlot, hFree, rfl⟩ := makeTemporary_eq_ok hTemporary
      simp only [saveThrough, hMode, hTemporary]
      rcases d.fillAndMove_eq hSlot hFree hMode with ⟨u, hSave, hAttempt⟩ |
        ⟨f, hSave, hStop, hTree⟩
      · refine Or.inl ⟨_, u, rfl, hSave, ?_⟩
        rw [hAttempt, if_pos rfl]
      · refine Or.inr (Or.inl ⟨f, hSave, ?_⟩)
        rw [hStop, hTree, if_neg (by simp)]

variable {d}

theorem saveAtOnce_eq_ok (h : d.saveAtOnce t = .ok u) :
    ∃ text mode entry, d.render? = some text ∧ t.modeOf d.path = .ok mode ∧
      t.locate false d.path = .ok entry ∧ t.isDirectoryAt entry = false ∧
      u = t.put entry (.file text.toUTF8 mode) := by
  rw [saveAtOnce] at h
  split at h
  · cases h
  · split at h
    · cases h
    · rename_i text hRender
      cases hReplace : t.replaceFile d.path text.toUTF8 with
      | error e =>
        rw [hReplace] at h
        cases h
      | ok u' =>
        rw [hReplace] at h
        obtain rfl : u' = u := Except.ok.inj h
        obtain ⟨mode, entry, hReplaced⟩ := replaceFile_eq_ok hReplace
        exact ⟨text, mode, entry, hRender, hReplaced⟩

/-- The tree `u` is `t` with a regular file for the one entry that the path of `d` leads to, a link
at its end not followed: the edited text with the mode of what was there. The path leads to it
again, unless the entry was a link to a directory and the path goes on through it. -/
structure SavedAs (d : Document) (t u : FileTree) (text : String) (mode : Nat) (entry : Location) :
    Prop where
  text_eq : d.render? = some text
  mode_eq : t.modeOf d.path = .ok mode
  entry_eq : t.locate false d.path = .ok entry
  node?_eq : ∀ loc, u.node? loc =
    if loc = entry then some (.file text.toUTF8 mode) else t.node? loc
  again : u.entryAt? d.path = some (.file text.toUTF8 mode) ∨
    u.locate false d.path = .error .notDirectory ∧
      ∃ loc, t.LeadsTo entry loc ∧ t.isDirectoryAt loc = true

theorem exists_savedAs (h : d.saveAtOnce t = .ok u) :
    ∃ text mode entry, d.SavedAs t u text mode entry := by
  obtain ⟨text, mode, entry, hRender, hMode, hEntry, hDirectory, rfl⟩ := saveAtOnce_eq_ok h
  obtain ⟨loc, _, hLoc, -, -⟩ := exists_locate_of_modeOf hMode
  have hPlace := ne_nil_of_not_directory hDirectory
  have hFile := @node?_put_self t _ hPlace (.file text.toUTF8 mode)
  have hElsewhere : ∀ loc, loc ≠ entry →
      (t.put entry (.file text.toUTF8 mode)).node? loc = t.node? loc := by
    intro loc hNe
    rw [node?_put_of_ne_nil _ _ hPlace, if_neg hNe]
  refine ⟨text, mode, entry, hRender, hMode, hEntry, fun loc => node?_put_of_ne_nil _ _ hPlace, ?_⟩
  rcases walkTo_replaced hDirectory hFile hElsewhere (reached_nil t) (locate_eq_ok hLoc)
    (locate_eq_ok hEntry) with hAgain | ⟨hStopped, hLink⟩
  · left
    rw [entryAt?, locate_eq_walkTo hLoc, hAgain]
    exact hFile
  · right
    rw [locate_eq_walkTo hLoc, hStopped]
    exact ⟨rfl, hLink⟩

theorem SavedAs.entryAt?_eq {text : String} {mode : Nat} {entry : Location}
    (h : d.SavedAs t u text mode entry) (hFile : t.isFile d.path = true) :
    u.entryAt? d.path = some (.file text.toUTF8 mode) := by
  rcases h.again with hAgain | ⟨-, directory, hLeads, hDirectory⟩
  · exact hAgain
  · obtain ⟨loc, hLoc, hFileAt⟩ := isFile_iff.mp hFile
    obtain ⟨entry', hEntry, hEnd⟩ := locate_false_of_true hLoc
    rw [h.entry_eq] at hEntry
    obtain rfl := Except.ok.inj hEntry
    rcases hEnd with rfl | hLeads'
    · exact absurd hLeads.isLinkAt (not_isLinkAt_of_isFileAt hFileAt)
    · rw [hLeads.unique hLeads', isDirectoryAt_of_isFileAt hFileAt] at hDirectory
      cases hDirectory

theorem saveAtOnce_of_saveThrough (h : d.saveThrough names t = ⟨u, none⟩) : d.saveAtOnce t = .ok u := by
  rcases d.saveThrough_cases names t with ⟨_, v, -, hSave, hEnd⟩ | ⟨f, -, hEnd⟩ | ⟨f, -, hEnd⟩
  · obtain ⟨rfl, -⟩ := Attempt.mk.inj (h.symm.trans hEnd)
    exact hSave
  · cases h.symm.trans hEnd
  · cases h.symm.trans hEnd

theorem tree_of_stopped {stop : SaveStop} (h : d.saveThrough names t = ⟨u, some stop⟩) : u = t := by
  rcases d.saveThrough_cases names t with ⟨_, v, -, -, hEnd⟩ | ⟨f, -, hEnd⟩ | ⟨f, -, hEnd⟩
  · cases h.symm.trans hEnd
  · exact congrArg Attempt.tree (h.symm.trans hEnd)
  · exact congrArg Attempt.tree (h.symm.trans hEnd)

theorem exists_stop_of_saveAtOnce (names : List String) (h : ∀ u, d.saveAtOnce t ≠ .ok u) :
    ∃ stop, d.saveThrough names t = ⟨t, some stop⟩ := by
  rcases d.saveThrough_cases names t with ⟨_, v, -, hSave, -⟩ | ⟨f, -, hEnd⟩ | ⟨f, -, hEnd⟩
  · exact absurd hSave (h v)
  · exact ⟨_, hEnd⟩
  · exact ⟨_, hEnd⟩

/-- Nothing is saved where there is nothing to replace, over a directory or without a text. -/
theorem saveAtOnce_ne_ok
    (h : (∃ e, t.modeOf d.path = .error e) ∨
      (∃ entry, t.locate false d.path = .ok entry ∧ t.isDirectoryAt entry = true) ∨
      d.render? = none) (u : FileTree) : d.saveAtOnce t ≠ .ok u := by
  intro hSave
  obtain ⟨text, mode, entry, hRender, hMode, hEntry, hDirectory, -⟩ := saveAtOnce_eq_ok hSave
  rcases h with ⟨e, hFault⟩ | ⟨entry', hEntry', hDirectory'⟩ | hNone
  · cases hMode.symm.trans hFault
  · obtain rfl := Except.ok.inj (hEntry.symm.trans hEntry')
    rw [hDirectory] at hDirectory'
    cases hDirectory'
  · cases hRender.symm.trans hNone

theorem exists_saved {made : Path × FileTree} {text : String}
    (hTemporary : t.makeTemporary d.directory names = .ok made) (hFile : t.isFile d.path = true)
    (hRender : d.render? = some text) :
    ∃ u, d.saveAtOnce t = .ok u ∧ d.saveThrough names t = ⟨u, none⟩ := by
  rcases d.saveThrough_cases names t with ⟨_, u, -, hSaved⟩ | ⟨f, hSave, -⟩ | ⟨f, hFault, -⟩
  · exact ⟨u, hSaved⟩
  · obtain ⟨u, hReplace⟩ := exists_replaceFile hFile text.toUTF8
    rw [saveAtOnce_eq t hRender, hReplace] at hSave
    cases hSave
  · cases hTemporary.symm.trans hFault

variable (d)

/-- Through whichever temporary file, a save either goes through, as replacing the file at once
does, or is stopped and leaves the tree as it was: always if nothing can be replaced there or the
edited text does not exist, and never for a file beside which the temporary file can be made. -/
theorem saveThrough_atomic (names : List String) (t : FileTree) :
    (∀ u, d.saveThrough names t = ⟨u, none⟩ →
      d.saveAtOnce t = .ok u ∧ ∃ text mode entry, d.SavedAs t u text mode entry) ∧
    (∀ u stop, d.saveThrough names t = ⟨u, some stop⟩ → u = t) ∧
    ((∃ e, t.modeOf d.path = .error e) ∨
        (∃ entry, t.locate false d.path = .ok entry ∧ t.isDirectoryAt entry = true) ∨
        d.render? = none →
      ∃ stop, d.saveThrough names t = ⟨t, some stop⟩) ∧
    (∀ made text, t.makeTemporary d.directory names = .ok made → t.isFile d.path = true →
      d.render? = some text →
      ∃ u mode, d.saveThrough names t = ⟨u, none⟩ ∧ t.modeOf d.path = .ok mode ∧
        u.entryAt? d.path = some (.file text.toUTF8 mode)) := by
  refine ⟨?_, ?_, ?_, ?_⟩
  · intro u hThrough
    have hSave := saveAtOnce_of_saveThrough hThrough
    exact ⟨hSave, exists_savedAs hSave⟩
  · intro u stop hStopped
    exact tree_of_stopped hStopped
  · intro hHopeless
    exact exists_stop_of_saveAtOnce names (saveAtOnce_ne_ok hHopeless)
  · intro made text hTemporary hFile hRender
    obtain ⟨u, hSave, hThrough⟩ := exists_saved hTemporary hFile hRender
    obtain ⟨text', mode, entry, hSaved⟩ := exists_savedAs hSave
    obtain rfl : text' = text := Option.some.inj (hSaved.text_eq.symm.trans hRender)
    exact ⟨u, mode, hThrough, hSaved.mode_eq, hSaved.entryAt?_eq hFile⟩

def linkedFile : FileTree :=
  ⟨[(["p"], .directory 0o755), (["p", "a.ts"], .link "real.ts"),
    (["p", "real.ts"], .file "import './b'".toUTF8 0o600), (["p", ".tmp0"], .link "gone")]⟩

def linkedDocument : Document :=
  ⟨⟨"/p/a.ts"⟩, "import './b'", [⟨7, 12, "'./b.js'"⟩]⟩

theorem linkedFile_saved :
    (∃ u mode, linkedDocument.saveThrough [".tmp0", ".tmp1"] linkedFile = ⟨u, none⟩ ∧
      linkedFile.modeOf linkedDocument.path = .ok mode ∧
      u.entryAt? linkedDocument.path = some (.file "import './b.js'".toUTF8 mode)) ∧
    linkedDocument.saveThrough [".tmp0"] linkedFile =
      ⟨linkedFile, some (.temporary (.namesTaken ⟨"/p"⟩))⟩ := by
  have hMade : (linkedFile.makeTemporary linkedDocument.directory [".tmp0", ".tmp1"]).isOk := by
    decide +kernel
  have hAtomic := saveThrough_atomic linkedDocument [".tmp0", ".tmp1"] linkedFile
  refine ⟨?_, by decide +kernel⟩
  cases hTemporary : linkedFile.makeTemporary linkedDocument.directory [".tmp0", ".tmp1"] with
  | error f =>
    rw [hTemporary] at hMade
    cases hMade
  | ok made =>
    exact hAtomic.2.2.2 made _ hTemporary (by decide +kernel) (by decide +kernel)

def linkedDirectory : FileTree :=
  ⟨[(["d"], .directory 0o750), (["l"], .link "d")]⟩

/-- The path of a link to a directory that goes through the link itself is no path any more. -/
theorem not_forall_entryAt?_saved :
    ¬∀ (d : Document) (names : List String) (t u : FileTree),
      d.saveThrough names t = ⟨u, none⟩ →
      ∃ text mode, d.render? = some text ∧ t.modeOf d.path = .ok mode ∧
        u.entryAt? d.path = some (.file text.toUTF8 mode) := by
  intro hAll
  have hSaved := hAll (.ofText ⟨"/l/../l"⟩ "x") [".tmp0"] linkedDirectory
    ⟨[(["d"], .directory 0o750), (["l"], .file "x".toUTF8 0o750)]⟩ (by decide +kernel)
  obtain ⟨text, mode, -, -, hAgain⟩ := hSaved
  have hMissing : entryAt? ⟨[(["d"], .directory 0o750), (["l"], .file "x".toUTF8 0o750)]⟩
      ⟨"/l/../l"⟩ = none := by decide +kernel
  rw [show (Document.ofText ⟨"/l/../l"⟩ "x").path = ⟨"/l/../l"⟩ from rfl, hMissing] at hAgain
  cases hAgain

end Source.Document

end ExplicitModules
