import ExplicitModules.Conversion
import ExplicitModules.Proofs.Source.Splicing

/-!
# Converting one document

Looking at the declarations of a document in order notes down one edit for every specifier that has
a replacement, and none of them is refused. What is decided about a declaration depends on the tree,
and not on the declarations before.
-/
namespace ExplicitModules.Conversion
set_option autoImplicit false
open Source Text

def replacement? (t : FileTree) (root p : Path) (d : Declaration) : Option Replacement :=
  (Replacement.decisionFor t root (.ofText p d.specifier.value) d.hasAttributes).replacement

def writtenText? (t : FileTree) (root p : Path) (d : Declaration) : Option String :=
  (replacement? t root p d).map fun r => r.render d.specifier.quote

/-- The edits that make `text`, the text of the file `p`, explicit. -/
def explicitEdits (t : FileTree) (root p : Path) (text : String) : List Edit :=
  editsBy (writtenText? t root p) (declarations text)

def declarationEvents (t : FileTree) (root : Path) (debug : Bool) (p : Path) (d : Declaration) :
    List Event :=
  let s := Specifier.ofText p d.specifier.value
  let decision := Replacement.decisionFor t root s d.hasAttributes
  match decision.replacement with
  | none =>
    if debug && s.isRelative && !d.hasAttributes then missEvents p s.written decision.tried else []
  | some r => [.specifierReplaced p d r.specifier]

def fileEvents (t : FileTree) (root : Path) (debug : Bool) (p : Path) (text : String) :
    List Event :=
  (declarations text).flatMap (declarationEvents t root debug p)

theorem makeExplicit_eq (t : FileTree) (root : Path) (debug : Bool) (doc : Document)
    {d : Declaration} (hSpan : d.specifier.start < d.specifier.stop)
    (hText : d.specifier.stop ≤ utf8Length doc.text.toList)
    (hBehind : ∀ pending ∈ doc.edits,
      pending.start < d.specifier.start ∧ pending.stop ≤ d.specifier.start) :
    makeExplicit t root debug doc d =
      ⟨{ doc with edits := editsBy (writtenText? t root doc.path) [d] ++ doc.edits },
        (editsBy (writtenText? t root doc.path) [d]).length,
        declarationEvents t root debug doc.path d⟩ := by
  have hReplace := fun text => Document.replace?_behind text hSpan hText hBehind
  rw [editsBy_singleton]
  unfold makeExplicit declarationEvents
  dsimp only
  cases hDecision : (Replacement.decisionFor t root (Specifier.ofText doc.path d.specifier.value)
      d.hasAttributes).replacement with
  | none =>
    have hWritten : writtenText? t root doc.path d = none := by
      simp [writtenText?, replacement?, hDecision]
    rw [hWritten]
    dsimp only
    split <;> rfl
  | some r =>
    have hWritten : writtenText? t root doc.path d = some (r.render d.specifier.quote) := by
      simp [writtenText?, replacement?, hDecision]
    rw [hWritten]
    dsimp only
    rw [hReplace]
    rfl

/-- The declarations that stand behind all edits made so far get their edits one after the other. -/
theorem foldl_makeExplicit (t : FileTree) (root : Path) (debug : Bool) {ds : List Declaration}
    {offset : Nat} {cs : List Char} (soFar : Editing) (hIn : LiteralsIn offset cs ds)
    (hText : offset + utf8Length cs ≤ utf8Length soFar.document.text.toList)
    (hEdits : ∀ pending ∈ soFar.document.edits, pending.start < offset ∧ pending.stop ≤ offset) :
    ds.foldl (fun soFar declaration =>
        let next := makeExplicit t root debug soFar.document declaration
        ⟨next.document, soFar.replaced + next.replaced, soFar.events ++ next.events⟩) soFar =
      ⟨{ soFar.document with
          edits := (editsBy (writtenText? t root soFar.document.path) ds).reverse ++
            soFar.document.edits },
        soFar.replaced + (editsBy (writtenText? t root soFar.document.path) ds).length,
        soFar.events ++ ds.flatMap (declarationEvents t root debug soFar.document.path)⟩ := by
  induction ds generalizing offset cs soFar with
  | nil => simp [editsBy]
  | cons d ds ih =>
    obtain ⟨hSpan, hStop⟩ := hIn.span d List.mem_cons_self
    have hStart := hIn.start_ge d List.mem_cons_self
    obtain ⟨gap, rest, rfl, hGap, hChars, hRest⟩ := hIn
    have hFirst := makeExplicit_eq t root debug soFar.document (d := d) (by omega)
      (by omega) (fun pending hPending => by
        obtain ⟨hLt, hLe⟩ := hEdits pending hPending
        omega)
    rw [List.foldl_cons, hFirst]
    have hLater := ih ⟨{ soFar.document with
        edits := editsBy (writtenText? t root soFar.document.path) [d] ++ soFar.document.edits },
        soFar.replaced + (editsBy (writtenText? t root soFar.document.path) [d]).length,
        soFar.events ++ declarationEvents t root debug soFar.document.path d⟩ hRest
      (by simp only [utf8Length_append] at hText ⊢; omega)
      (by
        intro pending hPending
        rcases List.mem_append.mp hPending with hNew | hOld
        · rw [editsBy_singleton, Option.mem_toList, Option.map_eq_some_iff] at hNew
          obtain ⟨text, -, rfl⟩ := hNew
          have hOrder : d.specifier.start < d.specifier.stop := by omega
          exact ⟨hOrder, Nat.le_refl _⟩
        · obtain ⟨hLt, hLe⟩ := hEdits pending hOld
          omega)
    rw [hLater, editsBy_singleton, editsBy_cons _ d ds, List.flatMap_cons]
    cases writtenText? t root soFar.document.path d with
    | none => simp
    | some text => simp [Nat.add_assoc, Nat.add_comm]

def explicitDocument (t : FileTree) (root p : Path) (text : String) : Document :=
  ⟨p, text, (explicitEdits t root p text).reverse⟩

theorem makeAllExplicit_eq (t : FileTree) (root : Path) (debug : Bool) (p : Path) (text : String) :
    makeAllExplicit t root debug (.ofText p text) (Document.ofText p text).declarations =
      ⟨explicitDocument t root p text, (explicitEdits t root p text).length,
        fileEvents t root debug p text⟩ := by
  have hFold := foldl_makeExplicit t root debug ⟨.ofText p text, 0, []⟩
    (literalsIn_declarations text) (by simp [Document.ofText])
    (by intro pending hPending; cases hPending)
  unfold makeAllExplicit Document.declarations
  refine hFold.trans ?_
  simp [Document.ofText, explicitDocument, explicitEdits, fileEvents]

def explicitText (t : FileTree) (root p : Path) (text : String) : String :=
  String.ofList ((splice 0 text.toList (explicitEdits t root p text)).getD text.toList)

theorem splice_explicitEdits (t : FileTree) (root p : Path) (text : String) :
    splice 0 text.toList (explicitEdits t root p text) =
      some (explicitText t root p text).toList := by
  obtain ⟨out, hOut⟩ := (literalsIn_declarations text).exists_splice (writtenText? t root p)
  have hOut' : splice 0 text.toList (explicitEdits t root p text) = some out := hOut
  rw [explicitText, hOut']
  simp

theorem render?_explicit (t : FileTree) (root p : Path) (text : String) :
    (explicitDocument t root p text).render? = some (explicitText t root p text) := by
  have hRender := Document.render?_eq (d := explicitDocument t root p text) rfl
    (splice_explicitEdits t root p text)
  rw [hRender, String.ofList_toList]

end ExplicitModules.Conversion
