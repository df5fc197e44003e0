import LiveMarkup.Proofs.Document.Shape

/-! Giving slots back. What is taken out of a document is given back address by address: that of a
node first, then those of its last child and all below it, and so on to the first one. -/
namespace LiveMarkup

namespace Shape

mutual

/-- The addresses with a node before its children and a later child before an earlier one. -/
def lastFirst : Shape → List NodeId
  | ⟨id, _, _, children⟩ => id :: lastFirstAll children

def lastFirstAll : List Shape → List NodeId
  | [] => []
  | s :: rest => lastFirstAll rest ++ s.lastFirst

end

theorem lastFirstAll_eq (ss : List Shape) : lastFirstAll ss = ss.reverse.flatMap lastFirst := by
  induction ss with
  | nil => rfl
  | cons s ss ih => simp [lastFirstAll, ih]

theorem lastFirst_perm (s : Shape) : s.lastFirst.Perm s.ids := by
  induction s with
  | mk id kind notes children ih =>
    refine List.Perm.cons id ?_
    clear kind notes
    induction children with
    | nil => exact .refl _
    | cons c rest ihrest =>
      obtain ⟨hc, hrest⟩ := List.forall_mem_cons.1 ih
      exact List.perm_append_comm.trans (hc.append (ihrest hrest))

theorem flatMap_lastFirst_perm (ss : List Shape) : (ss.flatMap lastFirst).Perm (idsAll ss) := by
  induction ss with
  | nil => exact .refl _
  | cons s ss ih => exact s.lastFirst_perm.append ih

end Shape

namespace Document

variable {d : Document} {id x : NodeId} {order : List NodeId} {ss : List Shape}

/-- Gives back the slots of nodes, one after another. -/
def vacateAll (d : Document) (order : List NodeId) : Document := order.foldl vacate d

theorem vacateAll_cons (d : Document) (id : NodeId) (order : List NodeId) :
    d.vacateAll (id :: order) = (d.vacate id).vacateAll order := rfl

/-- The slot given back last is the first one to be taken again. -/
theorem free_vacateAll (d : Document) (order : List NodeId) :
    (d.vacateAll order).free = (order.map NodeId.slot).reverse ++ d.free := by
  induction order generalizing d with
  | nil => rfl
  | cons id order ih => simp [vacateAll_cons, ih, vacate]

/-- The nodes that are still to be given back stay until their turn. -/
theorem contains_vacate (hlive : ∀ y ∈ id :: order, d.contains y = true)
    (hnodup : (id :: order).Nodup) : ∀ y ∈ order, (d.vacate id).contains y = true := by
  intro y hy
  obtain ⟨n, hn⟩ := contains_iff.1 (hlive id (List.mem_cons_self ..))
  obtain ⟨m, hm⟩ := contains_iff.1 (hlive y (List.mem_cons_of_mem _ hy))
  refine contains_iff.2 ⟨m, ?_⟩
  rw [node?_vacate hn, if_neg, hm]
  rintro rfl
  exact (List.nodup_cons.1 hnodup).1 hy

theorem node?_vacateAll (hlive : ∀ y ∈ order, d.contains y = true) (hnodup : order.Nodup)
    (x : NodeId) : (d.vacateAll order).node? x = if x ∈ order then none else d.node? x := by
  induction order generalizing d with
  | nil => rfl
  | cons id order ih =>
    obtain ⟨n, hn⟩ := contains_iff.1 (hlive id (List.mem_cons_self ..))
    rw [vacateAll_cons, ih (contains_vacate hlive hnodup) hnodup.of_cons, node?_vacate hn]
    by_cases hx : x = id <;> simp [hx]

theorem Accounted.vacateAll (hd : d.Accounted) (hlive : ∀ y ∈ order, d.contains y = true)
    (hnodup : order.Nodup) : (d.vacateAll order).Accounted := by
  induction order generalizing d with
  | nil => exact hd
  | cons id order ih =>
    obtain ⟨n, hn⟩ := contains_iff.1 (hlive id (List.mem_cons_self ..))
    exact ih (hd.vacate hn) (contains_vacate hlive hnodup) hnodup.of_cons

theorem nodeCount_vacateAll (hlive : ∀ y ∈ order, d.contains y = true) (hnodup : order.Nodup) :
    (d.vacateAll order).nodeCount + order.length = d.nodeCount := by
  induction order generalizing d with
  | nil => rfl
  | cons id order ih =>
    obtain ⟨n, hn⟩ := contains_iff.1 (hlive id (List.mem_cons_self ..))
    rw [← nodeCount_vacate hn, ← ih (contains_vacate hlive hnodup) hnodup.of_cons]
    rfl

/-- Only the slots of the nodes are touched. -/
theorem slots_vacateAll_of_not_mem {i : Nat} (hi : i ∉ order.map NodeId.slot) :
    (d.vacateAll order).slots[i]? = d.slots[i]? := by
  induction order generalizing d with
  | nil => rfl
  | cons id order ih =>
    rw [List.map_cons, List.mem_cons, not_or] at hi
    rw [vacateAll_cons, ih hi.2, vacate, Array.getElem?_modify, if_neg (Ne.symm hi.1)]

/-- A slot that is given back is vacant, and of the next generation. -/
theorem slots_vacateAll (hlive : ∀ y ∈ order, d.contains y = true) (hnodup : order.Nodup)
    (hx : x ∈ order) : (d.vacateAll order).slots[x.slot]? = some ⟨x.generation + 1, none⟩ := by
  induction order generalizing d with
  | nil => cases hx
  | cons id order ih =>
    have hrest := contains_vacate hlive hnodup
    rw [vacateAll_cons]
    rcases List.mem_cons.1 hx with rfl | hx
    · obtain ⟨n, hn⟩ := contains_iff.1 (hlive x (List.mem_cons_self ..))
      obtain ⟨s, hs, hgeneration, -⟩ := node?_eq_some_iff.1 hn
      have hslot : x.slot ∉ order.map NodeId.slot := by
        rw [List.mem_map]
        rintro ⟨y, hy, heq⟩
        obtain ⟨m, hm⟩ := contains_iff.1 (hlive y (List.mem_cons_of_mem _ hy))
        exact (List.nodup_cons.1 hnodup).1 (eq_of_slot_eq hm hn heq ▸ hy)
      rw [slots_vacateAll_of_not_mem hslot, vacate, Array.getElem?_modify, if_pos rfl, hs,
        Option.map_some, hgeneration]
    · exact ih hrest hnodup.of_cons hx

/-- A worklist of separate shapes is given back shape by shape. -/
theorem release_eq_vacateAll (hss : ∀ s ∈ ss, ∃ p, s.In d p) (hnodup : (Shape.idsAll ss).Nodup) :
    d.release (ss.map Shape.id) = d.vacateAll (ss.flatMap Shape.lastFirst) := by
  obtain ⟨size, hsize⟩ : ∃ size, (Shape.idsAll ss).length = size := ⟨_, rfl⟩
  induction size using Nat.strong_induction_on generalizing d ss with
  | _ size ih =>
    rcases ss with _ | ⟨⟨id, kind, notes, children⟩, ss⟩
    · rw [List.map_nil, release_nil]
      rfl
    · obtain ⟨p, hs⟩ := hss _ (List.mem_cons_self ..)
      have hids : Shape.idsAll (⟨id, kind, notes, children⟩ :: ss) =
          id :: (Shape.idsAll children ++ Shape.idsAll ss) := rfl
      rw [hids] at hnodup hsize
      obtain ⟨hid, hnodup⟩ := List.nodup_cons.1 hnodup
      have hperm : (Shape.idsAll (children.reverse ++ ss)).Perm
          (Shape.idsAll children ++ Shape.idsAll ss) := by
        rw [Shape.idsAll_append]
        exact (Shape.idsAll_perm (List.reverse_perm _)).append_right _
      have hrest : ∀ t ∈ children.reverse ++ ss, ∃ p, t.In (d.vacate id) p := by
        intro t ht
        obtain ⟨q, hq⟩ := hs.exists_in_of_mem (List.forall_mem_cons.1 hss).2
          ((List.mem_append.1 ht).imp_left List.mem_reverse.1)
        refine ⟨q, hq.congr fun y hy => ?_⟩
        rw [node?_vacate hs.1, if_neg]
        rintro rfl
        exact hid (hperm.subset (Shape.mem_idsAll_iff.2 ⟨t, ht, hy⟩))
      rw [List.map_cons, Shape.id_mk, release_live hs.1, ← List.map_reverse, ← List.map_append,
        ih _ (by rw [← hsize, hperm.length_eq, List.length_cons]; omega) hrest
          (hperm.nodup_iff.2 hnodup) rfl, List.flatMap_append, List.flatMap_cons, Shape.lastFirst,
        Shape.lastFirstAll_eq, List.cons_append, vacateAll_cons]

end Document
end LiveMarkup
