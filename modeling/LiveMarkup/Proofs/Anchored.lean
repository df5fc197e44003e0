import LiveMarkup.Proofs.Fits

/-! The anchors of shapes, each with the run of marked shapes that stands right before it. -/
namespace LiveMarkup

namespace Shape

mutual

/-- The anchors of a shape that comes right after a run: itself, or those below a plain element. -/
def anchored (s : Settings) (run : List NodeId) : Shape → List (NodeId × List NodeId)
  | ⟨id, .element tag attributes, _, kids⟩ =>
    if Entries.get? s.generatedAttribute attributes == some "true" then []
    else if (s.directive? tag).isSome then [(id, run)]
    else anchoredAll s [] kids
  | _ => []

def anchoredAll (s : Settings) (run : List NodeId) : List Shape → List (NodeId × List NodeId)
  | [] => []
  | x :: rest => x.anchored s run ++ anchoredAll s (if x.isMarked s then run ++ [x.id] else []) rest

end

variable {s : Settings} {run : List NodeId} {x : Shape} {shapes rest start others : List Shape}

/-- Marked shapes lengthen the run before what comes next. -/
theorem anchoredAll_of_marked (h : ∀ x ∈ shapes, x.isMarked s = true) :
    anchoredAll s run (shapes ++ rest) = anchoredAll s (run ++ shapes.map id) rest := by
  induction shapes generalizing run with
  | nil => simp
  | cons x others ih =>
    rw [List.forall_mem_cons] at h
    have hnone : x.anchored s run = [] := by
      obtain ⟨id, kind, notes, kids⟩ := x
      cases kind with
      | root => rfl
      | element tag attributes => exact if_pos h.1
      | text content => rfl
    rw [List.cons_append, anchoredAll, hnone, List.nil_append, if_pos h.1, ih h.2, List.map_cons,
      List.append_assoc, List.singleton_append]

/-- What ends in an unmarked shape leaves no run behind. -/
theorem anchoredAll_append (hx : x.isMarked s = false) :
    anchoredAll s run ((start ++ [x]) ++ others) =
      anchoredAll s run (start ++ [x]) ++ anchoredAll s [] others := by
  induction start generalizing run with
  | nil => simp [anchoredAll, hx]
  | cons y rest ih => simp [anchoredAll, ← ih]

variable {q : NodeId} {tag : String} {attributes notes : List (String × String)} {kids : List Shape}

theorem anchoredAll_anchor (h : ∀ x ∈ shapes, x.isMarked s = true)
    (hmark : Entries.get? s.generatedAttribute attributes ≠ some "true")
    (htag : (s.directive? tag).isSome = true) :
    anchoredAll s [] (shapes ++ [⟨q, .element tag attributes, notes, kids⟩]) =
      [(q, shapes.map id)] := by
  rw [anchoredAll_of_marked h]
  simp [anchoredAll, anchored, hmark, htag]

theorem anchoredAll_plain (hmark : Entries.get? s.generatedAttribute attributes = none)
    (htag : s.directive? tag = none) :
    anchoredAll s [] [⟨q, .element tag attributes, notes, kids⟩] = anchoredAll s [] kids := by
  simp [anchoredAll, anchored, hmark, htag]

/-- Marked shapes are elements, each with a tree of its own. -/
theorem length_treesAll_of_marked (h : ∀ x ∈ shapes, x.isMarked s = true) :
    (treesAll shapes).length = shapes.length := by
  induction shapes with
  | nil => rfl
  | cons x rest ih =>
    rw [List.forall_mem_cons] at h
    have hone : x.trees.length = 1 := by
      obtain ⟨id, kind, notes, kids⟩ := x
      cases kind with
      | root => cases h.1
      | element tag attributes => rfl
      | text content => cases h.1
    rw [treesAll, List.length_append, hone, ih h.2, List.length_cons, Nat.add_comm]

end Shape

namespace Outline

variable {s : Settings} {tree : TreeId} {cache : Cache} {l : Outline} {ls : List Outline}
  {group kids : List Shape}

theorem FitsAll.map_length_of_forall (h : FitsAll s tree cache ls kids)
    (heach : ∀ l ∈ ls, ∀ group, l.Fits s tree cache group →
      (Shape.anchoredAll s [] group).map (·.2.length) = l.runs.map List.length) :
    (Shape.anchoredAll s [] kids).map (·.2.length) = (runsAll ls).map List.length := by
  induction ls generalizing kids with
  | nil =>
    obtain rfl : kids = [] := h
    rfl
  | cons l rest ih =>
    obtain ⟨group, others, rfl, hl, hrest⟩ := h
    have hgroup := heach l (List.mem_cons_self ..) group hl
    obtain ⟨start, x, rfl, hx⟩ := hl.ends
    rw [Shape.anchoredAll_append hx, List.map_append, hgroup,
      ih hrest fun m hm => heach m (List.mem_cons_of_mem _ hm), runsAll, List.map_append]

theorem Fits.map_length (h : l.Fits s tree cache group) :
    (Shape.anchoredAll s [] group).map (·.2.length) = l.runs.map List.length := by
  induction l generalizing group with
  | text content =>
    obtain ⟨id, notes, rfl⟩ := h
    rfl
  | plain tag attributes sources source inner ih =>
    obtain ⟨id, notes, kids, rfl, htag, hmark, -, -, -, hinner⟩ := h
    have hkids := hinner.map_length_of_forall fun m hm group => ih m hm
    rw [Shape.anchoredAll_plain hmark htag, hkids, runs]
  | anchor tag attributes template inside run =>
    obtain ⟨id, notes, kids, shapes, rfl, htag, hmark, -, rfl, hmarked, -⟩ := h
    simp [Shape.anchoredAll_anchor hmarked hmark htag, runs,
      Shape.length_treesAll_of_marked hmarked]

/-- The runs before the anchors are as long as those of the outlines. -/
theorem FitsAll.map_length (h : FitsAll s tree cache ls kids) :
    (Shape.anchoredAll s [] kids).map (·.2.length) = (runsAll ls).map List.length :=
  h.map_length_of_forall fun _ _ _ => Fits.map_length

end Outline
end LiveMarkup
