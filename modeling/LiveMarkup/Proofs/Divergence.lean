import LiveMarkup.Tree

/-! Where written trees part. A text that is not empty never begins like an element, so rows of
trees of which one goes on with a text and the other with an element are written differently,
whatever comes after. -/
namespace LiveMarkup

/-- Two rows of characters part behind a common beginning. -/
def Diverges (x y : List Char) : Prop :=
  ∃ common a b u v, a ≠ b ∧ x = common ++ a :: u ∧ y = common ++ b :: v

namespace Diverges

variable {x y : List Char}

theorem ne (h : Diverges x y) : x ≠ y := by
  obtain ⟨common, a, b, u, v, hne, rfl, rfl⟩ := h
  intro heq
  exact hne (List.cons.inj (List.append_cancel_left heq)).1

theorem append_left (h : Diverges x y) (before : List Char) :
    Diverges (before ++ x) (before ++ y) := by
  obtain ⟨common, a, b, u, v, hne, rfl, rfl⟩ := h
  exact ⟨before ++ common, a, b, u, v, hne, (List.append_assoc ..).symm,
    (List.append_assoc ..).symm⟩

theorem append_right (h : Diverges x y) (after after' : List Char) :
    Diverges (x ++ after) (y ++ after') := by
  obtain ⟨common, a, b, u, v, hne, rfl, rfl⟩ := h
  exact ⟨common, a, b, u ++ after, v ++ after', hne, by simp, by simp⟩

end Diverges

namespace Tree

theorem markupAll_append (left right : List Tree) :
    markupAll (left ++ right) = markupAll left ++ markupAll right := by
  induction left with
  | nil => rfl
  | cons t rest ih => rw [List.cons_append, markupAll, markupAll, ih, List.append_assoc]

/-- An element that has children is written around them. -/
theorem markup_element {children : List Tree} (h : children ≠ []) (tag : String)
    (attributes : List (String × String)) : (element tag attributes children).markup =
      tagMarkup tag attributes ++ ['>'] ++
        (markupAll children ++ ('<' :: '/' :: tag.toList ++ ['>'])) := by
  obtain ⟨child, rest, rfl⟩ := List.exists_cons_of_ne_nil h
  rw [markup, markupAll]
  simp

/-- Elements part where their children do. -/
theorem diverges_element {left right : List Tree} (h : Diverges (markupAll left) (markupAll right))
    (tag : String) (attributes : List (String × String)) :
    Diverges (markupAll [element tag attributes left])
      (markupAll [element tag attributes right]) := by
  have hleft : left ≠ [] := by
    rintro rfl
    obtain ⟨common, a, b, u, v, -, hx, -⟩ := h
    simp [markupAll] at hx
  have hright : right ≠ [] := by
    rintro rfl
    obtain ⟨common, a, b, u, v, -, -, hy⟩ := h
    simp [markupAll] at hy
  have hone : ∀ t : Tree, markupAll [t] = t.markup := fun t => List.append_nil _
  rw [hone, hone, markup_element hleft, markup_element hright]
  exact (h.append_right _ _).append_left _

theorem exists_markup_element (tag : String) (attributes : List (String × String))
    (children : List Tree) : ∃ rest, (element tag attributes children).markup = '<' :: rest := by
  cases children with
  | nil => exact ⟨_, rfl⟩
  | cons child rest => exact ⟨_, rfl⟩

theorem exists_markup_text {content : String} (h : content ≠ "") :
    ∃ c rest, c ≠ '<' ∧ (text content).markup = c :: rest := by
  obtain ⟨c, rest, hcontent⟩ := List.exists_cons_of_ne_nil (mt String.toList_eq_nil_iff.1 h)
  have hescape : ∃ a u, a ≠ '<' ∧ Markup.escapeChar false c = a :: u := by
    rw [Markup.escapeChar]
    split
    · exact ⟨'&', _, by decide, rfl⟩
    split
    · exact ⟨'&', _, by decide, rfl⟩
    split
    · exact ⟨'&', _, by decide, rfl⟩
    split
    · exact ⟨'&', _, by decide, rfl⟩
    · next hne _ _ => exact ⟨c, [], hne, rfl⟩
  obtain ⟨a, u, ha, hescape⟩ := hescape
  refine ⟨a, u ++ Markup.escape false rest, ha, ?_⟩
  rw [markup, hcontent, Markup.escape, List.flatMap_cons, hescape]
  rfl

/-- A text and an element in front part two rows at once. -/
theorem diverges_of_text_element {content tag : String} (h : content ≠ "")
    (attributes : List (String × String)) (children left right : List Tree) :
    Diverges (markupAll (text content :: left))
      (markupAll (element tag attributes children :: right)) := by
  obtain ⟨c, rest, hc, htext⟩ := exists_markup_text h
  obtain ⟨rest', helement⟩ := exists_markup_element tag attributes children
  rw [markupAll, markupAll, htext, helement]
  exact ⟨[], c, '<', _, _, hc, rfl, rfl⟩

end Tree
end LiveMarkup
