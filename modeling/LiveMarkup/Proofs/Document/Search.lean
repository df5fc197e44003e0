import LiveMarkup.Proofs.Document.Order
import LiveMarkup.Proofs.Document.Reachable
import LiveMarkup.Proofs.Document.Walk

/-! The search for an id. It works off a stack, where the address on top makes way for its children,
the last one pushed first. So it passes nodes in document order and stops at the first one that has
the id; what is not below the root never gets onto the stack. -/
namespace LiveMarkup.Document

/-- An element whose attribute `id` has a given value. -/
def HasId (d : Document) (id : String) (x : NodeId) : Prop :=
  (d.tagName? x).isSome = true ∧ d.attribute? x "id" = some id

instance (d : Document) (id : String) (x : NodeId) : Decidable (d.HasId id x) :=
  inferInstanceAs (Decidable (_ ∧ _))

variable {d : Document} {id : String} {x : NodeId} {stack passed : List NodeId}
  {result : Option NodeId} {ss : List Shape}

/-- Only elements have attributes. -/
theorem hasId_iff : d.HasId id x ↔ d.attribute? x "id" = some id := by
  refine and_iff_right_of_imp fun h => ?_
  rw [attribute?, attributes] at h
  split at h
  · next hx => simp [tagName?, hx]
  · cases h

namespace Searches

theorem not_hasId_of_mem (h : d.Searches id stack passed result) :
    ∀ y ∈ passed, ¬ d.HasId id y := by
  induction h with
  | exhausted | found _ => exact fun y hy => absurd hy (List.not_mem_nil)
  | pass hx _ ih => exact List.forall_mem_cons.2 ⟨fun h => hx (hasId_iff.1 h), ih⟩

theorem hasId (h : d.Searches id stack passed (some x)) : d.HasId id x := by
  generalize hresult : some x = result at h
  induction h with
  | exhausted => cases hresult
  | found hy =>
    cases hresult
    exact hasId_iff.2 hy
  | pass _ _ ih => exact ih hresult

/-- From a stack of shapes, what is passed is the document order of their nodes, up to the node that
the search gives. -/
theorem exists_idsAll_eq (h : d.Searches id stack passed result)
    (hstack : stack.reverse = ss.map Shape.id) (hss : ∀ s ∈ ss, ∃ p, s.In d p) :
    ∃ after, Shape.idsAll ss = passed ++ after ∧ after.head? = result := by
  induction h generalizing ss with
  | exhausted =>
    obtain rfl := List.map_eq_nil_iff.1 hstack.symm
    exact ⟨[], rfl, rfl⟩
  | found hx =>
    rw [List.reverse_concat] at hstack
    obtain ⟨⟨y, kind, notes, kids⟩, ss, rfl, rfl, -⟩ := List.map_eq_cons_iff.1 hstack.symm
    exact ⟨_, rfl, rfl⟩
  | @pass stack passed x result hx _ ih =>
    rw [List.reverse_concat] at hstack
    obtain ⟨⟨y, kind, notes, kids⟩, ss, rfl, rfl, hrest⟩ := List.map_eq_cons_iff.1 hstack.symm
    obtain ⟨p, hs⟩ := hss _ (List.mem_cons_self ..)
    have hnext : (stack ++ (d.children y).reverse).reverse = (kids ++ ss).map Shape.id := by
      rw [List.reverse_append, List.reverse_reverse, children_of_node? hs.1, List.map_append, hrest]
    have hin : ∀ t ∈ kids ++ ss, ∃ p, t.In d p := fun t ht =>
      hs.exists_in_of_mem (List.forall_mem_cons.1 hss).2 (List.mem_append.1 ht)
    obtain ⟨after, hids, hhead⟩ := ih hnext hin
    rw [Shape.idsAll_append] at hids
    refine ⟨after, ?_, hhead⟩
    rw [Shape.idsAll, Shape.ids, List.cons_append, hids, List.cons_append, Shape.id_mk]

end Searches

/-- The search under the root comes to its end, and has passed all that is in front of what it
gives. -/
theorem Sound.searches (hd : d.Sound) (id : String) : ∃ passed after,
    d.Searches id [.root] passed (d.elementById? id) ∧ d.subtree .root = passed ++ after ∧
      after.head? = d.elementById? id := by
  have hend : d.walk^[d.slots.size] ([.root] : List NodeId).reverse = [] :=
    hd.walk_iterate_eq_nil hd.contains_root
  obtain ⟨passed, result, hsearch, hlength⟩ := exists_searches id hend
  obtain rfl : d.elementById? id = result := hsearch.searchById_eq (Nat.lt_succ_of_le hlength)
  obtain ⟨s, hid, hs⟩ := hd.exists_shape hd.contains_root
  have hstack : ([.root] : List NodeId).reverse = [s].map Shape.id := by simp [hid]
  obtain ⟨after, hids, hhead⟩ :=
    hsearch.exists_idsAll_eq hstack (List.forall_mem_singleton.2 ⟨_, hs⟩)
  refine ⟨passed, after, hsearch, ?_, hhead⟩
  rw [← hids, ← hid, hd.subtree_eq hs, Shape.idsAll_singleton]

/-- What a search gives is the first node with the id in the order that it goes through. -/
theorem Searches.find?_append (h : d.Searches id stack passed result) {after : List NodeId}
    (hhead : after.head? = result) : (passed ++ after).find? (fun x => d.HasId id x) = result := by
  have hpassed : passed.find? (fun x => d.HasId id x) = none :=
    List.find?_eq_none.2 fun y hy => by simpa using h.not_hasId_of_mem y hy
  rw [List.find?_append, hpassed, Option.none_or]
  cases after with
  | nil => exact hhead
  | cons x after =>
    obtain rfl : some x = result := hhead
    rw [List.find?_cons_of_pos (by simpa using h.hasId)]

/-- The search for an id comes to its end. It takes nodes in document order, each node before what
hangs below it, and each child before the next one; all that hangs below the root is in that order,
and nothing else. What it gives is the first element there with the id, and it gives nothing only if
no element below the root has the id. -/
theorem Reachable.finds_first_by_id (hd : d.Reachable) (id : String) :
    (∃ passed after, d.Searches id [.root] passed (d.elementById? id) ∧
      d.subtree .root = passed ++ after ∧ after.head? = d.elementById? id) ∧
    d.elementById? id = (d.subtree .root).find? (fun x => d.HasId id x) ∧
    (d.elementById? id = none ↔ ∀ x, d.Above .root x → ¬ d.HasId id x) ∧
    (∀ x, x ∈ d.subtree .root ↔ d.Above .root x) ∧
    ∀ x, d.Above .root x → d.subtree x = x :: (d.children x).flatMap d.subtree := by
  have hsound := hd.sound
  have hmem : ∀ x, x ∈ d.subtree .root ↔ d.Above .root x := fun x =>
    hsound.mem_subtree_iff hsound.contains_root
  obtain ⟨passed, after, hsearch, horder, hhead⟩ := hsound.searches id
  have hfind : d.elementById? id = (d.subtree .root).find? (fun x => d.HasId id x) := by
    rw [horder, hsearch.find?_append hhead]
  refine ⟨⟨passed, after, hsearch, horder, hhead⟩, hfind, ?_, hmem, fun x hx => ?_⟩
  · rw [hfind, List.find?_eq_none]
    simp only [hmem, decide_eq_true_eq]
  · exact hsound.subtree_eq_cons (hsound.contains_of_below hx hsound.contains_root)

/-- Two elements with one id, the nested one in front of the one that was made first, and an element
with another id that hangs nowhere. -/
theorem finds_first_by_id_nested :
    let p : NodeId := ⟨1, 0⟩
    let i : NodeId := ⟨2, 0⟩
    let loose : NodeId := ⟨3, 0⟩
    let div : NodeId := ⟨4, 0⟩
    let d := Operation.performAll ⟨0⟩ [.createElement "p", .createElement "i", .createElement "b",
      .createElement "div", .setAttribute p "id" "x", .setAttribute i "id" "x",
      .setAttribute loose "id" "y", .append .root p, .append div i, .insertBefore .root div p]
    d.Reachable ∧ d.subtree .root = [.root, div, i, p] ∧ d.HasId "x" p ∧ d.HasId "y" loose ∧
      d.Searches "x" [.root] [.root, div] (some i) ∧ ∀ x, d.Above .root x → ¬ d.HasId "y" x := by
  intro p i loose div d
  have hd : d.Reachable := .of_derives (.empty ⟨0⟩) ⟨_, rfl⟩
  have horder : d.subtree .root = [.root, div, i, p] := by decide +kernel
  have hx : d.elementById? "x" = some i := by decide +kernel
  have hy : d.elementById? "y" = none := by decide +kernel
  obtain ⟨⟨passed, after, hsearch, hcut, hhead⟩, -⟩ := hd.finds_first_by_id "x"
  rw [hx] at hsearch hhead
  obtain ⟨after, rfl⟩ := List.head?_eq_some_iff.1 hhead
  have hcut : [.root, div] ++ i :: [p] = passed ++ i :: after := horder.symm.trans hcut
  obtain ⟨rfl, -, -⟩ := (List.append_cons_inj_of_notMem (by decide) (by decide)).1 hcut
  exact ⟨hd, horder, by decide +kernel, by decide +kernel, hsearch,
    (hd.finds_first_by_id "y").2.2.1.1 hy⟩

end LiveMarkup.Document
