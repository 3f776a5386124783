import ExplicitModules.Proofs.Path.Insertion
import ExplicitModules.Proofs.Path.Spelling
import Mathlib.Data.List.Forall2

/-!
# What is behind a path

Text put behind an absolute path adds the components that it names. How paths with the same text in
front compare is decided by what is behind it, so lists of such paths are put in order in the same way
whatever is in front.
-/
namespace ExplicitModules.Path
set_option autoImplicit false

def behind (p : Path) (x : List Char) : Path :=
  ofChars (p.chars ++ x)

@[simp] theorem chars_behind (p : Path) (x : List Char) : (p.behind x).chars = p.chars ++ x :=
  chars_ofChars _

theorem behind_inj {p : Path} {x y : List Char} (h : p.behind x = p.behind y) : x = y := by
  have hChars := congrArg chars h
  rw [chars_behind, chars_behind] at hChars
  exact List.append_cancel_left hChars

/-- Nothing, or a slash and more. -/
def GoesOn (x : List Char) : Prop :=
  x = [] ∨ ∃ rest, x = '/' :: rest

/-- The segments behind the slash with which a text goes on. -/
def way : List Char → List (List Char)
  | [] => []
  | _ :: rest => segments rest

theorem GoesOn.segments_append {x : List Char} (h : GoesOn x) (front : List Char) :
    segments (front ++ x) = segments front ++ way x := by
  rcases h with rfl | ⟨rest, rfl⟩
  · rw [List.append_nil, way, List.append_nil]
  · exact segments_append_slash front rest

theorem GoesOn.below_way {x : List Char} (h : GoesOn x) : below (way x) = x := by
  rcases h with rfl | ⟨rest, rfl⟩
  · rfl
  · rw [way, below_eq (segments_ne_nil rest), joinSegments_segments]

theorem goesOn_below (segs : List (List Char)) : GoesOn (below segs) := by
  cases segs with
  | nil => exact Or.inl rfl
  | cons s segs => exact Or.inr ⟨_, below_cons s segs⟩

theorem way_below {segs : List (List Char)} (hPlain : ∀ s ∈ segs, '/' ∉ s) : way (below segs) = segs := by
  induction segs with
  | nil => rfl
  | cons s segs ih =>
    rw [List.forall_mem_cons] at hPlain
    rw [below_cons, way, (goesOn_below segs).segments_append, segments_of_no_slash hPlain.1, ih hPlain.2]
    rfl

theorem GoesOn.way_append {x y : List Char} (hX : GoesOn x) (hY : GoesOn y) :
    way (x ++ y) = way x ++ way y := by
  rcases hX with rfl | ⟨rest, rfl⟩
  · rfl
  · exact hY.segments_append rest

theorem slash_notMem_of_mem_way {x s : List Char} (h : s ∈ way x) : '/' ∉ s := by
  cases x with
  | nil => cases h
  | cons c x => exact slash_notMem_of_mem_segments h

theorem GoesOn.append {x : List Char} (h : GoesOn x) (rest : List Char) :
    GoesOn (x ++ '/' :: rest) := by
  rcases h with rfl | ⟨more, rfl⟩
  · exact Or.inr ⟨rest, rfl⟩
  · exact Or.inr ⟨_, rfl⟩

theorem GoesOn.concat {x y : List Char} (hX : GoesOn x) (hY : GoesOn y) : GoesOn (x ++ y) := by
  rcases hY with rfl | ⟨rest, rfl⟩
  · rwa [List.append_nil]
  · exact hX.append rest

theorem behind_behind (p : Path) (x y : List Char) : (p.behind x).behind y = p.behind (x ++ y) := by
  rw [behind, chars_behind, List.append_assoc]
  rfl

theorem EndsInName.joinText_eq {p : Path} (h : p.EndsInName) {text : String}
    (hRelative : isAbsolute ⟨text⟩ = false) : p.joinText text = p.behind ('/' :: text.toList) := by
  rw [joinText, join, if_neg (by simp [hRelative]), if_neg (not_or.mpr h)]
  rfl

section Moving

variable {names : List String}

/-- The segments that make a difference to where a path leads. -/
def moving (cs : List Char) : List (List Char) :=
  (segments cs).filter fun s => !isTrivial s

theorem moving_append_slash (front back : List Char) :
    moving (front ++ '/' :: back) = moving front ++ moving back := by
  rw [moving, segments_append_slash, List.filter_append]
  rfl

theorem moving_concat_slash (front : List Char) : moving (front ++ ['/']) = moving front := by
  rw [moving_append_slash]
  exact List.append_nil _

theorem moving_joinText {base : Path} {text : String} (h : Path.isAbsolute ⟨text⟩ = false) :
    moving (base.joinText text).chars = moving base.chars ++ moving text.toList := by
  rw [joinText, join, if_neg (by simp [h])]
  split
  · rename_i hEnd
    rw [chars_ofChars]
    rcases hEnd with hNil | hSlash
    · rw [hNil]
      rfl
    · obtain ⟨front, hFront⟩ := List.getLast?_eq_some_iff.mp hSlash
      rw [hFront, List.append_assoc, List.singleton_append, moving_append_slash, moving_concat_slash]
      rfl
  · rw [chars_ofChars, moving_append_slash]
    rfl

theorem GoesOn.moving_append {x : List Char} (h : GoesOn x) (front : List Char) :
    moving (front ++ x) = moving front ++ moving x := by
  rcases h with rfl | ⟨rest, rfl⟩
  · rw [List.append_nil]
    exact (List.append_nil _).symm
  · rw [moving_append_slash, ← List.nil_append ('/' :: rest), moving_append_slash]
    rfl

theorem GoesOn.moving_eq {x : List Char} (h : GoesOn x) :
    moving x = (way x).filter fun s => !isTrivial s := by
  rcases h with rfl | ⟨rest, rfl⟩
  · rfl
  · rw [← List.nil_append ('/' :: rest), moving_append_slash]
    rfl

theorem parent_mem_moving_iff {cs : List Char} : ['.', '.'] ∈ moving cs ↔ ['.', '.'] ∈ segments cs := by
  simp [moving, isTrivial]

theorem moving_names (hNames : ∀ n ∈ names, IsName n) :
    moving (below (names.map String.toList)) = names.map String.toList := by
  rw [(goesOn_below _).moving_eq, way_below (slash_notMem_of_mem_names hNames)]
  refine List.filter_eq_self.mpr fun s hS => ?_
  obtain ⟨n, hN, rfl⟩ := List.mem_map.mp hS
  simp [(hNames n hN).nontrivial]

end Moving

section Components

variable {p q : Path} {x y : List Char}

theorem components_of_absolute (h : p.isAbsolute = true) :
    p.components = .root :: (moving p.chars).map componentOf := by
  obtain ⟨rest, hChars⟩ := exists_chars_of_isAbsolute h
  rw [components, hChars, splitLead, ← List.nil_append ('/' :: rest), moving_append_slash]
  rfl

theorem isAbsolute_behind (h : p.isAbsolute = true) (x : List Char) :
    (p.behind x).isAbsolute = true := by
  obtain ⟨rest, hChars⟩ := exists_chars_of_isAbsolute h
  rw [isAbsolute, chars_behind, hChars]
  rfl

theorem components_behind (h : p.isAbsolute = true) (hX : GoesOn x) :
    (p.behind x).components = p.components ++ (moving x).map componentOf := by
  rw [components_of_absolute (isAbsolute_behind h x), components_of_absolute h, chars_behind,
    hX.moving_append, List.map_append, List.cons_append]

theorem componentOf_name {n : String} (h : IsName n) : componentOf n.toList = .name n := by
  rw [componentOf, if_neg h.notParent, String.ofList_toList]

theorem extension?_behind (hP : p.isAbsolute = true) (hQ : q.isAbsolute = true) (hX : GoesOn x)
    (hMoving : moving x ≠ []) : (p.behind x).extension? = (q.behind x).extension? := by
  have hSome : (moving x).map componentOf ≠ [] := by simpa using hMoving
  rw [extension?, extension?, fileName?, fileName?, components_behind hP hX, components_behind hQ hX,
    List.getLast?_append_of_ne_nil _ hSome, List.getLast?_append_of_ne_nil _ hSome]

theorem lexBefore_append {α : Type} [DecidableEq α] (before : α → α → Bool) (front as bs : List α) :
    lexBefore before (front ++ as) (front ++ bs) = lexBefore before as bs := by
  induction front with
  | nil => rfl
  | cons a front ih => rw [List.cons_append, List.cons_append, lexBefore, if_pos rfl, ih]

/-- Two paths with the same text behind the one path and behind the other. -/
def Beside (p q a b : Path) : Prop :=
  ∃ x, GoesOn x ∧ a = p.behind x ∧ b = q.behind x

theorem Beside.exists_tails {as bs : List Path} (h : List.Forall₂ (Beside p q) as bs) :
    ∃ tails : List (List Char), (∀ x ∈ tails, GoesOn x) ∧ as = tails.map p.behind ∧
      bs = tails.map q.behind := by
  induction h with
  | nil => exact ⟨[], nofun, rfl, rfl⟩
  | cons hHead _ ih =>
    obtain ⟨x, hX, rfl, rfl⟩ := hHead
    obtain ⟨tails, hTails, rfl, rfl⟩ := ih
    exact ⟨x :: tails, List.forall_mem_cons.mpr ⟨hX, hTails⟩, rfl, rfl⟩

variable {a b c d : Path} (hP : p.isAbsolute = true) (hQ : q.isAbsolute = true)
include hP hQ

theorem Beside.sameAs_eq (h : Beside p q a b) (h' : Beside p q c d) : a.sameAs c = b.sameAs d := by
  obtain ⟨x, hX, rfl, rfl⟩ := h
  obtain ⟨y, hY, rfl, rfl⟩ := h'
  rw [Bool.eq_iff_iff, sameAs_eq_true_iff, sameAs_eq_true_iff, components_behind hP hX,
    components_behind hP hY, components_behind hQ hX, components_behind hQ hY,
    List.append_right_inj, List.append_right_inj]

theorem Beside.before_eq (h : Beside p q a b) (h' : Beside p q c d) : a.before c = b.before d := by
  obtain ⟨x, hX, rfl, rfl⟩ := h
  obtain ⟨y, hY, rfl, rfl⟩ := h'
  rw [before, before, components_behind hP hX, components_behind hP hY, components_behind hQ hX,
    components_behind hQ hY, lexBefore_append, lexBefore_append]

theorem Beside.insert {as bs : List Path} (h : Beside p q a b)
    (hRest : List.Forall₂ (Beside p q) as bs) :
    List.Forall₂ (Beside p q) (a.insert as) (b.insert bs) := by
  induction hRest with
  | nil => exact .cons h .nil
  | cons hHead hTail ih =>
    rw [insert_cons, insert_cons, h.sameAs_eq hP hQ hHead, h.before_eq hP hQ hHead]
    split
    · exact .cons hHead hTail
    · split
      · exact .cons h (.cons hHead hTail)
      · exact .cons hHead ih

theorem foldl_insert_beside {as bs ps qs : List Path} (h : List.Forall₂ (Beside p q) as bs)
    (hMore : List.Forall₂ (Beside p q) ps qs) :
    List.Forall₂ (Beside p q) (ps.foldl (fun paths p => p.insert paths) as)
      (qs.foldl (fun paths p => p.insert paths) bs) := by
  induction hMore generalizing as bs with
  | nil => exact h
  | cons hHead _ ih => exact ih (hHead.insert hP hQ h)

/-- Where the same texts are behind two paths, in whatever order, the lists that come of them are the
same: the second one names each path in one way only. -/
theorem foldl_insert_beside_of_mem {as bs ps qs : List Path} (h : List.Forall₂ (Beside p q) as bs)
    (hOrdered : Ordered bs) (hPs : ∀ a ∈ ps, ∃ b ∈ qs, Beside p q a b)
    (hQs : ∀ b ∈ qs, ∃ a ∈ ps, Beside p q a b)
    (hOne : ∀ b ∈ qs, ∀ d ∈ qs, b.components = d.components → b = d) :
    List.Forall₂ (Beside p q) (ps.foldl (fun paths p => p.insert paths) as)
      (qs.foldl (fun paths p => p.insert paths) bs) := by
  obtain ⟨tails, hTails, rfl⟩ : ∃ tails : List (List Char),
      (∀ x ∈ tails, GoesOn x ∧ q.behind x ∈ qs) ∧
      ps = tails.map p.behind := by
    clear hQs
    induction ps with
    | nil => exact ⟨[], nofun, rfl⟩
    | cons a ps ih =>
      rw [List.forall_mem_cons] at hPs
      obtain ⟨b, hB, x, hX, rfl, rfl⟩ := hPs.1
      obtain ⟨tails, hTails, rfl⟩ := ih hPs.2
      exact ⟨x :: tails, List.forall_mem_cons.mpr ⟨⟨hX, hB⟩, hTails⟩, rfl⟩
  have hIn : ∀ b ∈ tails.map q.behind, b ∈ qs := by
    intro b hB
    obtain ⟨x, hX, rfl⟩ := List.mem_map.mp hB
    exact (hTails x hX).2
  have hMem : ∀ b, b ∈ tails.map q.behind ↔ b ∈ qs := by
    refine fun b => ⟨hIn b, fun hB => ?_⟩
    obtain ⟨a, hA, x, -, rfl, rfl⟩ := hQs b hB
    obtain ⟨y, hY, hSame⟩ := List.mem_map.mp hA
    rw [← behind_inj hSame]
    exact List.mem_map_of_mem hY
  have hFold : (tails.map q.behind).foldl (fun paths p => p.insert paths) bs =
      qs.foldl (fun paths p => p.insert paths) bs := by
    refine (hOrdered.foldl_insert _).eq_of_mem_iff (hOrdered.foldl_insert qs) fun c => ?_
    rw [hOrdered.mem_foldl_insert_iff hOne, hOrdered.mem_foldl_insert_iff fun b hB d hD =>
      hOne b (hIn b hB) d (hIn d hD), hMem]
  rw [← hFold]
  refine foldl_insert_beside hP hQ h ?_
  rw [List.forall₂_map_left_iff, List.forall₂_map_right_iff, List.forall₂_same]
  exact fun x hX => ⟨x, (hTails x hX).1, rfl, rfl⟩

end Components

end ExplicitModules.Path
