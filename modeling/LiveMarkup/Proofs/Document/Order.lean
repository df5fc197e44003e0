import LiveMarkup.Proofs.Document.Shape

/-! Document order: a node comes before all that hangs below it, and what hangs below a node before
the siblings that follow it. What hangs below a node is one piece of what hangs below any node above
it. -/
namespace LiveMarkup

/-- A node and all that hangs below it, in document order. The fuel bounds the depth. -/
def Document.preorder (d : Document) : (fuel : Nat) → NodeId → List NodeId
  | 0, _ => []
  | fuel + 1, id => id :: (d.children id).flatMap (preorder d fuel)

/-- No line of children is longer than the number of slots. -/
def Document.subtree (d : Document) (id : NodeId) : List NodeId := d.preorder d.slots.size id

variable {d : Document} {p : Option NodeId} {w : Shape} {x y : NodeId}

namespace Shape

theorem idsAll_eq_flatMap (shapes : List Shape) : idsAll shapes = shapes.flatMap ids := by
  induction shapes with
  | nil => rfl
  | cons w shapes ih => simp [idsAll, ih]

/-- The order in which a shape holds its nodes, given fuel for them. -/
theorem In.preorder (hw : w.In d p) {fuel : Nat} (hfuel : w.ids.length ≤ fuel) :
    d.preorder fuel w.id = w.ids := by
  induction w generalizing p fuel with
  | mk id kind notes kids ih =>
    rw [ids, List.length_cons] at hfuel
    obtain ⟨fuel, rfl⟩ := Nat.exists_eq_add_of_le' (Nat.le_trans (Nat.le_add_left 1 _) hfuel)
    rw [Document.preorder, id_mk, Document.children_of_node? hw.1, List.flatMap_map, ids,
      idsAll_eq_flatMap]
    refine congrArg _ (List.flatMap_congr fun c hc => ih c hc (inAll_iff.1 hw.2 c hc) ?_)
    have hlength := length_ids_le hc
    omega

end Shape

namespace Document.Sound

theorem subtree_eq (hd : d.Sound) (hw : w.In d p) : d.subtree w.id = w.ids :=
  hw.preorder (length_le_size_of_nodup (hd.nodup_ids hw) fun _ hx => hw.contains hx)

/-- A node comes first, then what hangs below its children, child by child. -/
theorem subtree_eq_cons (hd : d.Sound) (hx : d.contains x = true) :
    d.subtree x = x :: (d.children x).flatMap d.subtree := by
  obtain ⟨⟨x, kind, notes, kids⟩, rfl, hw⟩ := hd.exists_shape hx
  rw [hd.subtree_eq hw, Shape.ids, Shape.idsAll_eq_flatMap, Shape.id_mk, children_of_node? hw.1,
    List.flatMap_map]
  exact congrArg _ (List.flatMap_congr fun c hc =>
    (hd.subtree_eq (Shape.inAll_iff.1 hw.2 c hc)).symm)

/-- What hangs below a live node is what it is above of. -/
theorem mem_subtree_iff (hd : d.Sound) (hx : d.contains x = true) :
    y ∈ d.subtree x ↔ d.Above x y := by
  obtain ⟨w, rfl, hw⟩ := hd.exists_shape hx
  rw [hd.subtree_eq hw, hd.mem_ids_iff hw]

theorem subtree_child_infix (hd : d.Sound) (hy : d.parent? y = some x) :
    d.subtree y <:+: d.subtree x := by
  obtain ⟨⟨x, kind, notes, kids⟩, rfl, hw⟩ := hd.exists_shape (hd.contains_of_parent? hy).2
  have hmem : y ∈ d.children x := hd.mem_children_iff.2 hy
  rw [children_of_node? hw.1] at hmem
  obtain ⟨c, hc, rfl⟩ := List.mem_map.1 hmem
  rw [hd.subtree_eq hw, hd.subtree_eq (Shape.inAll_iff.1 hw.2 c hc)]
  obtain ⟨before, after, rfl⟩ := List.append_of_mem hc
  exact ⟨x :: Shape.idsAll before, Shape.idsAll after, by simp [Shape.ids, Shape.idsAll]⟩

/-- What hangs below a node is one piece of what hangs below a node above it. -/
theorem subtree_infix (hd : d.Sound) (h : d.Above x y) : d.subtree y <:+: d.subtree x := by
  induction h with
  | refl => exact List.infix_rfl
  | tail hy hz ih => exact (hd.subtree_child_infix hz).trans ih

end Document.Sound
end LiveMarkup
