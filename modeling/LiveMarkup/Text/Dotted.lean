/-! Dotted text: segments with a point between each two. -/
namespace LiveMarkup.Text

/-- Cuts at every point; the pieces may be empty and there is at least one. -/
def splitDots : List Char → List (List Char)
  | [] => [[]]
  | c :: rest =>
    if c = '.' then [] :: splitDots rest
    else match splitDots rest with
      | [] => [[c]]
      | piece :: pieces => (c :: piece) :: pieces

theorem splitDots_ne_nil (s : List Char) : splitDots s ≠ [] := by
  cases s with
  | nil => simp [splitDots]
  | cons c rest => unfold splitDots; split <;> (try split) <;> simp

/-- No piece has a point. -/
theorem not_mem_of_mem_splitDots {s piece : List Char} (h : piece ∈ splitDots s) :
    '.' ∉ piece := by
  induction s generalizing piece with
  | nil =>
    rw [splitDots, List.mem_singleton] at h
    rw [h]
    exact List.not_mem_nil
  | cons c rest ih =>
    rw [splitDots] at h
    split at h
    · rcases List.mem_cons.1 h with rfl | h
      · exact List.not_mem_nil
      · exact ih h
    · next hc =>
      split at h
      · next hnone => exact absurd hnone (splitDots_ne_nil rest)
      · next first pieces hsplit =>
        rw [hsplit] at ih
        rcases List.mem_cons.1 h with rfl | h
        · rw [List.mem_cons, not_or]
          exact ⟨Ne.symm hc, ih (List.mem_cons_self ..)⟩
        · exact ih (List.mem_cons_of_mem _ h)

theorem splitDots_eq_singleton {s : List Char} (h : '.' ∉ s) : splitDots s = [s] := by
  induction s with
  | nil => rfl
  | cons c rest ih =>
    rw [List.mem_cons, not_or] at h
    rw [splitDots, if_neg (Ne.symm h.1), ih h.2]

/-- A point parts the pieces before it from those behind it. -/
theorem splitDots_append_point (s rest : List Char) :
    splitDots (s ++ '.' :: rest) = splitDots s ++ splitDots rest := by
  induction s with
  | nil => simp [splitDots]
  | cons c s ih =>
    rw [List.cons_append, splitDots, splitDots, ih]
    cases hsplit : splitDots s with
    | nil => exact absurd hsplit (splitDots_ne_nil s)
    | cons piece pieces => split <;> rfl

def segments (path : String) : List String := (splitDots path.toList).map String.ofList

def joinDots (parts : List String) : String := ".".intercalate parts

theorem segments_ne_nil (path : String) : segments path ≠ [] := by
  rw [segments, Ne, List.map_eq_nil_iff]
  exact splitDots_ne_nil _

theorem not_mem_of_mem_segments {path segment : String} (h : segment ∈ segments path) :
    '.' ∉ segment.toList := by
  obtain ⟨piece, hpiece, rfl⟩ := List.mem_map.1 h
  rw [String.toList_ofList]
  exact not_mem_of_mem_splitDots hpiece

/-- A path that goes on from another one has the segments of both. -/
theorem segments_append_point (p q : String) :
    segments (p ++ "." ++ q) = segments p ++ segments q := by
  have hpoint : ".".toList = ['.'] := rfl
  simp only [segments, String.toList_append, hpoint, List.append_assoc, List.singleton_append,
    splitDots_append_point, List.map_append]

/-- Parts without points are the segments of what they are joined to. -/
theorem segments_joinDots {parts : List String} (hne : parts ≠ [])
    (h : ∀ part ∈ parts, '.' ∉ part.toList) : segments (joinDots parts) = parts := by
  induction parts with
  | nil => exact absurd rfl hne
  | cons part rest ih =>
    rw [List.forall_mem_cons] at h
    cases rest with
    | nil =>
      rw [joinDots, String.intercalate_singleton, segments, splitDots_eq_singleton h.1,
        List.map_singleton, String.ofList_toList]
    | cons next rest =>
      have hpoint : ".".toList = ['.'] := rfl
      specialize ih (List.cons_ne_nil _ _) h.2
      rw [joinDots, segments] at ih
      rw [joinDots, String.intercalate_cons_cons, segments, String.toList_append,
        String.toList_append, List.append_assoc, hpoint, List.singleton_append,
        splitDots_append_point, splitDots_eq_singleton h.1, List.singleton_append, List.map_cons,
        String.ofList_toList, ih]

/-- Cuts a dotted path at its last point into container and entry; without a point the container
is the empty path. -/
def splitEntry (path : String) : String × String :=
  match (segments path).reverse with
  | [] => ("", path)
  | entry :: container => (joinDots container.reverse, entry)

/-- The container keeps all segments but the last one, which is the entry. -/
theorem splitEntry_eq {path : String} {container : List String} {entry : String}
    (h : segments path = container ++ [entry]) :
    splitEntry path = (joinDots container, entry) := by
  rw [splitEntry, h, List.reverse_append, List.reverse_singleton, List.singleton_append]
  dsimp only
  rw [List.reverse_reverse]

example : segments "a..b" = ["a", "", "b"] ∧ segments "" = [""] := by decide +kernel
example : splitEntry "a.b.c" = ("a.b", "c") ∧ splitEntry "a" = ("", "a") := by decide +kernel

end LiveMarkup.Text
