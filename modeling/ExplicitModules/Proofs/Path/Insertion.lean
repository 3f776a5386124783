import ExplicitModules.Path.Order
import Mathlib.Data.List.Pairwise
import Mathlib.Data.List.Sort

/-!
# Ordered lists of paths

An ordered list names no path twice, whatever the spelling, and is determined by its members. Putting
a path into it keeps it ordered and adds the path unless a spelling of it is there.
-/
namespace ExplicitModules.Path
set_option autoImplicit false

variable {p q : Path} {ps xs ys paths : List Path}

def Ordered (paths : List Path) : Prop :=
  paths.Pairwise fun p q => p.before q = true

theorem before_congr_left (h : p.components = q.components) (r : Path) : p.before r = q.before r := by
  rw [before, before, h]

theorem components_ne_of_before (h : p.before q = true) : p.components ≠ q.components := by
  intro hSame
  rw [before_congr_left hSame, before_irrefl] at h
  cases h

theorem Ordered.eq_of_mem_iff (hXs : Ordered xs) (hYs : Ordered ys)
    (h : ∀ p, p ∈ xs ↔ p ∈ ys) : xs = ys := by
  have hIrrefl : Std.Irrefl fun p q : Path => p.before q = true :=
    ⟨fun p hP => components_ne_of_before hP rfl⟩
  have hAntisymm : Std.Antisymm fun p q : Path => p.before q = true :=
    ⟨fun p q hPQ hQP => absurd rfl (components_ne_of_before (before_trans hPQ hQP))⟩
  exact List.Pairwise.eq_of_mem_iff hXs hYs h

/-- Ordered lists that name the same paths differ in their spellings only. -/
theorem Ordered.map_components_eq (hXs : Ordered xs) (hYs : Ordered ys)
    (h : ∀ c, c ∈ xs.map components ↔ c ∈ ys.map components) :
    xs.map components = ys.map components := by
  have hIrrefl : Std.Irrefl fun c d : List Component => lexBefore Component.before c d = true :=
    ⟨fun c hC => by simp [lexBefore_irrefl] at hC⟩
  have hAntisymm : Std.Antisymm fun c d : List Component => lexBefore Component.before c d = true :=
    ⟨fun c d hCD hDC =>
      absurd (lexBefore_trans Component.before_irrefl Component.before_trans hCD hDC)
        (by simp [lexBefore_irrefl])⟩
  have hMap : ∀ zs, Ordered zs →
      (zs.map components).Pairwise fun c d => lexBefore Component.before c d = true :=
    fun zs hZs => List.pairwise_map.mpr hZs
  exact List.Pairwise.eq_of_mem_iff (hMap xs hXs) (hMap ys hYs) h

theorem Ordered.eq_of_components (h : Ordered paths) (hP : p ∈ paths) (hQ : q ∈ paths)
    (hSame : p.components = q.components) : p = q := by
  have hSymm : Std.Symm fun p q : Path => p.components = q.components → p = q :=
    ⟨fun p q hPQ hSame => (hPQ hSame.symm).symm⟩
  have hApart : paths.Pairwise fun p q => p.components = q.components → p = q :=
    h.imp fun hBefore hSame => absurd hSame (components_ne_of_before hBefore)
  exact hApart.forall_of_forall (fun _ _ _ => rfl) hP hQ hSame

theorem mem_of_mem_insert (h : q ∈ p.insert paths) : q = p ∨ q ∈ paths := by
  induction paths with
  | nil => exact Or.inl (List.mem_singleton.mp h)
  | cons first rest ih =>
    rw [insert_cons] at h
    split at h
    · exact Or.inr h
    · split at h
      · exact List.mem_cons.mp h
      · rcases List.mem_cons.mp h with rfl | hRest
        · exact Or.inr List.mem_cons_self
        · exact (ih hRest).imp_right (List.mem_cons_of_mem first)

theorem mem_insert_of_mem (h : q ∈ paths) : q ∈ p.insert paths := by
  induction paths with
  | nil => cases h
  | cons first rest ih =>
    rw [insert_cons]
    split
    · exact h
    · split
      · exact List.mem_cons_of_mem p h
      · rcases List.mem_cons.mp h with rfl | hRest
        · exact List.mem_cons_self
        · exact List.mem_cons_of_mem first (ih hRest)

theorem exists_mem_insert (p : Path) (paths : List Path) :
    ∃ q ∈ p.insert paths, q.components = p.components := by
  induction paths with
  | nil => exact ⟨p, List.mem_singleton_self p, rfl⟩
  | cons first rest ih =>
    rw [insert_cons]
    split
    · rename_i hSame
      exact ⟨first, List.mem_cons_self, ((sameAs_eq_true_iff p first).mp hSame).symm⟩
    · split
      · exact ⟨p, List.mem_cons_self, rfl⟩
      · obtain ⟨q, hQ, hSame⟩ := ih
        exact ⟨q, List.mem_cons_of_mem first hQ, hSame⟩

theorem Ordered.insert (h : Ordered paths) (p : Path) : Ordered (p.insert paths) := by
  induction paths with
  | nil => exact List.pairwise_singleton _ p
  | cons first rest ih =>
    obtain ⟨hFirst, hRest⟩ := List.pairwise_cons.mp h
    rw [insert_cons]
    split
    · exact h
    · rename_i hOther
      split
      · rename_i hBefore
        refine List.pairwise_cons.mpr ⟨List.forall_mem_cons.mpr ⟨hBefore, fun q hQ => ?_⟩, h⟩
        exact before_trans hBefore (hFirst q hQ)
      · rename_i hBehind
        refine List.pairwise_cons.mpr ⟨fun q hQ => ?_, ih hRest⟩
        rcases mem_of_mem_insert hQ with rfl | hLater
        · exact (before_or_before (Bool.eq_false_iff.mpr hOther)).resolve_left hBehind
        · exact hFirst q hLater

theorem Ordered.mem_insert_iff (h : Ordered paths) : q ∈ p.insert paths ↔
    q ∈ paths ∨ (q = p ∧ ∀ r ∈ paths, r.components ≠ p.components) := by
  constructor
  · intro hMem
    rcases mem_of_mem_insert hMem with rfl | hOld
    · by_cases hSpelled : ∃ r ∈ paths, r.components = q.components
      · obtain ⟨r, hR, hSame⟩ := hSpelled
        obtain rfl := (h.insert q).eq_of_components (mem_insert_of_mem hR) hMem hSame
        exact Or.inl hR
      · exact Or.inr ⟨rfl, fun r hR hSame => hSpelled ⟨r, hR, hSame⟩⟩
    · exact Or.inl hOld
  · rintro (hOld | ⟨rfl, hNew⟩)
    · exact mem_insert_of_mem hOld
    · obtain ⟨r, hR, hSame⟩ := exists_mem_insert q paths
      rcases mem_of_mem_insert hR with rfl | hOld
      · exact hR
      · exact absurd hSame (hNew r hOld)

/-- Where the paths that are put into an ordered list are spelled in one way each, those are added of
which the list holds no spelling. -/
theorem Ordered.mem_foldl_insert_iff (h : Ordered paths)
    (hOne : ∀ p ∈ ps, ∀ q ∈ ps, p.components = q.components → p = q) :
    q ∈ ps.foldl (fun paths p => p.insert paths) paths ↔
      q ∈ paths ∨ (q ∈ ps ∧ ∀ r ∈ paths, r.components ≠ q.components) := by
  induction ps generalizing paths with
  | nil => simp
  | cons p ps ih =>
    have hRest : ∀ x ∈ ps, ∀ y ∈ ps, x.components = y.components → x = y := fun x hX y hY =>
      hOne x (List.mem_cons_of_mem p hX) y (List.mem_cons_of_mem p hY)
    rw [List.foldl_cons, ih (h.insert p) hRest, h.mem_insert_iff, List.mem_cons]
    constructor
    · rintro ((hOld | ⟨rfl, hNew⟩) | ⟨hLater, hNew⟩)
      · exact Or.inl hOld
      · exact Or.inr ⟨Or.inl rfl, hNew⟩
      · exact Or.inr ⟨Or.inr hLater, fun r hR => hNew r (mem_insert_of_mem hR)⟩
    · rintro (hOld | ⟨rfl | hLater, hNew⟩)
      · exact Or.inl (Or.inl hOld)
      · exact Or.inl (Or.inr ⟨rfl, hNew⟩)
      · by_cases hSame : p.components = q.components
        · obtain rfl := hOne p List.mem_cons_self q (List.mem_cons_of_mem p hLater) hSame
          exact Or.inl (Or.inr ⟨rfl, hNew⟩)
        · refine Or.inr ⟨hLater, fun r hR => ?_⟩
          rcases mem_of_mem_insert hR with rfl | hOld
          · exact hSame
          · exact hNew r hOld

theorem mem_of_mem_foldl_insert (h : q ∈ ps.foldl (fun paths p => p.insert paths) paths) :
    q ∈ ps ∨ q ∈ paths := by
  induction ps generalizing paths with
  | nil => exact Or.inr h
  | cons p ps ih =>
    rcases ih h with hLater | hInserted
    · exact Or.inl (List.mem_cons_of_mem p hLater)
    · rcases mem_of_mem_insert hInserted with rfl | hEarlier
      · exact Or.inl List.mem_cons_self
      · exact Or.inr hEarlier

theorem Ordered.foldl_insert (h : Ordered paths) (ps : List Path) :
    Ordered (ps.foldl (fun paths p => p.insert paths) paths) := by
  induction ps generalizing paths with
  | nil => exact h
  | cons p ps ih => exact ih (h.insert p)

theorem mem_foldl_insert_of_mem (ps : List Path) (h : q ∈ paths) :
    q ∈ ps.foldl (fun paths p => p.insert paths) paths := by
  induction ps generalizing paths with
  | nil => exact h
  | cons p ps ih => exact ih (mem_insert_of_mem h)

theorem exists_mem_foldl_insert (paths : List Path) (h : p ∈ ps) :
    ∃ q ∈ ps.foldl (fun paths p => p.insert paths) paths, q.components = p.components := by
  induction ps generalizing paths with
  | nil => cases h
  | cons first ps ih =>
    rcases List.mem_cons.mp h with rfl | hLater
    · obtain ⟨q, hQ, hSame⟩ := exists_mem_insert p paths
      exact ⟨q, mem_foldl_insert_of_mem ps hQ, hSame⟩
    · exact ih (first.insert paths) hLater

/-- From an empty list on, a spelling of each path that is put in is kept, and nothing else. -/
theorem mem_map_components_foldl_insert {c : List Component} :
    c ∈ (ps.foldl (fun paths p => p.insert paths) []).map components ↔ c ∈ ps.map components := by
  constructor
  · intro hKept
    obtain ⟨p, hP, rfl⟩ := List.mem_map.mp hKept
    exact List.mem_map_of_mem ((mem_of_mem_foldl_insert hP).resolve_right List.not_mem_nil)
  · intro hPut
    obtain ⟨p, hP, rfl⟩ := List.mem_map.mp hPut
    obtain ⟨q, hQ, hSame⟩ := exists_mem_foldl_insert [] hP
    exact List.mem_map.mpr ⟨q, hQ, hSame⟩

end ExplicitModules.Path
