/-!
# Segments of a slash-separated text

Splitting at every slash keeps empty segments, so joining gives the text back.
-/
namespace ExplicitModules.Path
set_option autoImplicit false

def segments : List Char → List (List Char)
  | [] => [[]]
  | c :: cs =>
    if c = '/' then [] :: segments cs
    else
      match segments cs with
      | [] => [[c]]
      | s :: rest => (c :: s) :: rest

def joinSegments : List (List Char) → List Char
  | [] => []
  | [s] => s
  | s :: t :: rest => s ++ '/' :: joinSegments (t :: rest)

def lastSegment (cs : List Char) : List Char :=
  (cs.reverse.takeWhile (· != '/')).reverse

theorem segments_ne_nil (cs : List Char) : segments cs ≠ [] := by
  cases cs with
  | nil => simp [segments]
  | cons c cs =>
    simp only [segments]
    split
    · simp
    · split <;> simp

@[simp] theorem joinSegments_segments (cs : List Char) : joinSegments (segments cs) = cs := by
  induction cs with
  | nil => rfl
  | cons c cs ih =>
    simp only [segments]
    cases hRest : segments cs with
    | nil => exact absurd hRest (segments_ne_nil cs)
    | cons s rest =>
      rw [hRest] at ih
      split
      · rename_i hSlash
        subst hSlash
        simp only [joinSegments, List.nil_append, ih]
      · cases rest with
        | nil =>
          simp only [joinSegments] at ih ⊢
          rw [ih]
        | cons t rest =>
          simp only [joinSegments, List.cons_append] at ih ⊢
          rw [ih]

theorem slash_notMem_of_mem_segments {cs s : List Char} (h : s ∈ segments cs) : '/' ∉ s := by
  induction cs generalizing s with
  | nil => simp_all [segments]
  | cons c cs ih =>
    simp only [segments] at h
    split at h
    · rcases List.mem_cons.mp h with rfl | hRest
      · simp
      · exact ih hRest
    · rename_i hSlash
      split at h
      · rename_i hNil
        exact absurd hNil (segments_ne_nil cs)
      · rename_i t rest hRest
        rw [hRest] at ih
        rcases List.mem_cons.mp h with rfl | hMem
        · simp [Ne.symm hSlash, ih (List.mem_cons_self)]
        · exact ih (List.mem_cons_of_mem t hMem)

theorem length_joinSegments_append_singleton (segs : List (List Char)) (s : List Char) :
    (joinSegments (segs ++ [s])).length =
      if segs = [] then s.length else (joinSegments segs).length + 1 + s.length := by
  induction segs with
  | nil => simp [joinSegments]
  | cons t rest ih =>
    cases rest with
    | nil => simp [joinSegments]; omega
    | cons u rest =>
      simp only [List.cons_append, joinSegments, List.length_append, List.length_cons,
        reduceCtorEq, if_false] at ih ⊢
      omega

theorem length_joinSegments_le_append (segs rest : List (List Char)) :
    (joinSegments segs).length ≤ (joinSegments (segs ++ rest)).length := by
  induction rest generalizing segs with
  | nil => simp
  | cons s rest ih =>
    have hOne := length_joinSegments_append_singleton segs s
    have hRest := ih (segs ++ [s])
    rw [List.append_assoc, List.singleton_append] at hRest
    split at hOne
    · subst segs
      simp [joinSegments]
    · omega

end ExplicitModules.Path
