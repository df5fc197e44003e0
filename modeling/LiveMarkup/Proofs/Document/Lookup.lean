import LiveMarkup.Document.Edit

/-! What the steps of an edit do to the look-up of nodes, and the account of the vacant slots. After
each step every address finds what it found before, but for the ones that the step names. -/
namespace LiveMarkup.Document

variable {d d' : Document} {id x : NodeId} {n : Node}

theorem node?_eq_some_iff : d.node? id = some n ↔
    ∃ s, d.slots[id.slot]? = some s ∧ s.generation = id.generation ∧ s.node = some n := by
  simp only [node?, Option.bind_eq_some_iff]
  constructor
  · rintro ⟨s, hs, h⟩
    split at h
    · exact ⟨s, hs, ‹_›, h⟩
    · cases h
  · rintro ⟨s, hs, hgeneration, hnode⟩
    exact ⟨s, hs, by rw [if_pos hgeneration, hnode]⟩

theorem contains_iff : d.contains id = true ↔ ∃ n, d.node? id = some n := by
  rw [contains, Option.isSome_iff_exists]

theorem not_contains_iff : d.contains id = false ↔ d.node? id = none := by
  rw [contains, Option.isSome_eq_false_iff, Option.isNone_iff_eq_none]

/-- A slot holds one live node at a time. -/
theorem eq_of_slot_eq {a b : NodeId} {m : Node} (ha : d.node? a = some n) (hb : d.node? b = some m)
    (h : a.slot = b.slot) : a = b := by
  obtain ⟨s, hs, hsa, -⟩ := node?_eq_some_iff.1 ha
  obtain ⟨t, ht, htb, -⟩ := node?_eq_some_iff.1 hb
  obtain ⟨slot, generation⟩ := a
  obtain ⟨slot', generation'⟩ := b
  obtain rfl : slot = slot' := h
  obtain rfl : s = t := Option.some.inj (hs.symm.trans ht)
  rw [NodeId.mk.injEq]
  exact ⟨rfl, hsa.symm.trans htb⟩

theorem slot_lt_size (h : d.node? id = some n) : id.slot < d.slots.size :=
  (lt_size_of_node? h).1

theorem children_of_node? (h : d.node? id = some n) : d.children id = n.children := by
  simp [children, h]

theorem parent?_of_node? (h : d.node? id = some n) : d.parent? id = n.parent := by
  simp [parent?, h]

theorem note?_of_node? (h : d.node? id = some n) (key : String) :
    d.note? id key = Entries.get? key n.notes := by
  simp [note?, h]

/-- A new document has its root and nothing else. -/
theorem node?_empty (tree : TreeId) (x : NodeId) :
    (empty tree).node? x = if x = .root then some (.detached .root) else none := by
  obtain ⟨slot, generation⟩ := x
  rcases slot with _ | slot
  · simp [node?, empty, NodeId.root, eq_comm]
  · simp [node?, empty, NodeId.root]

/-- Nodes of one kind at an address, or none at all. -/
theorem node?_cases_of_kind (h : (d'.node? x).map Node.kind = (d.node? x).map Node.kind) :
    (d'.node? x = none ∧ d.node? x = none) ∨
      ∃ n' n, d'.node? x = some n' ∧ d.node? x = some n ∧ n'.kind = n.kind := by
  cases hn : d.node? x with
  | none =>
    rw [hn, Option.map_none, Option.map_eq_none_iff] at h
    exact Or.inl ⟨h, rfl⟩
  | some n =>
    rw [hn, Option.map_some, Option.map_eq_some_iff] at h
    obtain ⟨n', hn', hkind⟩ := h
    exact Or.inr ⟨n', n, hn', rfl, hkind⟩

theorem tagName?_congr (h : (d'.node? x).map Node.kind = (d.node? x).map Node.kind) :
    d'.tagName? x = d.tagName? x := by
  rw [tagName?, tagName?]
  obtain ⟨hn', hn⟩ | ⟨n', n, hn', hn, hkind⟩ := node?_cases_of_kind h
  · rw [hn', hn]
  · rw [hn', hn, Option.bind_some, Option.bind_some, hkind]

theorem text?_congr (h : (d'.node? x).map Node.kind = (d.node? x).map Node.kind) :
    d'.text? x = d.text? x := by
  rw [text?, text?]
  obtain ⟨hn', hn⟩ | ⟨n', n, hn', hn, hkind⟩ := node?_cases_of_kind h
  · rw [hn', hn]
  · rw [hn', hn, Option.bind_some, Option.bind_some, hkind]

theorem text?_eq_none_of_tagName? {tag : String} (h : d.tagName? x = some tag) :
    d.text? x = none := by
  rw [tagName?, Option.bind_eq_some_iff] at h
  obtain ⟨n, hn, htag⟩ := h
  rw [text?, hn, Option.bind_some]
  split at htag
  · next hkind => rw [hkind]
  · cases htag

theorem attributes_congr (h : (d'.node? x).map Node.kind = (d.node? x).map Node.kind) :
    d'.attributes x = d.attributes x := by
  rw [attributes, attributes]
  obtain ⟨hn', hn⟩ | ⟨⟨kind', _, _, _⟩, ⟨kind, _, _, _⟩, hn', hn, hkind⟩ := node?_cases_of_kind h
  · rw [hn', hn]
  · obtain rfl : kind' = kind := hkind
    rw [hn', hn]
    cases kind' <;> rfl

@[simp] theorem vacate_tree (d : Document) (id : NodeId) : (d.vacate id).tree = d.tree := rfl

@[simp] theorem attach_tree (d : Document) (p c : NodeId) (place : List NodeId → List NodeId) :
    (d.attach p c place).tree = d.tree := rfl

@[simp] theorem detach_tree (d : Document) (id : NodeId) : (d.detach id).tree = d.tree := by
  unfold detach
  split <;> rfl

@[simp] theorem release_tree (d : Document) (work : List NodeId) :
    (d.release work).tree = d.tree := by
  induction d, work using release_induction with
  | nil d => rw [release_nil]
  | dead d id rest h ih => rw [release_dead h, ih]
  | live d id rest n h ih => rw [release_live h, ih, vacate_tree]

theorem allocate_tree {kind : NodeKind} {d' : Document} (h : d.allocate kind = .ok (id, d')) :
    d'.tree = d.tree := by
  unfold allocate at h
  split at h
  · split at h
    · cases h
      rfl
    · cases h
  · split at h
    · cases h
      rfl
    · cases h

theorem remove_tree {d' : Document} (h : d.remove id = .ok d') : d'.tree = d.tree := by
  unfold remove at h
  split at h
  · cases h
  · split at h
    · cases h
      simp
    · cases h

/-- The free list names the vacant slots, each once. -/
structure Accounted (d : Document) : Prop where
  nodup : d.free.Nodup
  mem_iff : ∀ i, i ∈ d.free ↔ ∃ s, d.slots[i]? = some s ∧ s.node = none

/-- A slot is left for one more node. -/
def HasRoom (d : Document) : Prop := d.free ≠ [] ∨ d.slots.size < slotLimit

theorem hasRoom_update (d : Document) (id : NodeId) (f : Node → Node) :
    (d.update id f).HasRoom ↔ d.HasRoom := by
  rw [HasRoom, HasRoom, update_free, update_slots_size]

theorem Accounted.empty (tree : TreeId) : (empty tree).Accounted where
  nodup := List.nodup_nil
  mem_iff i := by
    rcases i with _ | i <;> simp [Document.empty]

theorem Accounted.update (hd : d.Accounted) (id : NodeId) (f : Node → Node) :
    (d.update id f).Accounted where
  nodup := hd.nodup
  mem_iff i := by
    rw [update_free, hd.mem_iff]
    simp only [Document.update, Array.getElem?_modify]
    by_cases h : id.slot = i
    · cases d.slots[i]? with
      | none => simp [h]
      | some s => by_cases hs : s.generation = id.generation <;> simp [h, hs]
    · simp [h]

/-- A slot is taken whenever there is room, and only then. -/
theorem allocate_error_iff (hd : d.Accounted) (kind : NodeKind) (e : TreeError) :
    d.allocate kind = .error e ↔ e = .outOfSlots ∧ ¬ d.HasRoom := by
  cases hfree : d.free with
  | nil =>
    by_cases h : d.slots.size < slotLimit <;> simp [allocate, HasRoom, hfree, h, eq_comm]
  | cons slot free =>
    obtain ⟨s, hs, -⟩ := (hd.mem_iff slot).1 (by simp [hfree])
    simp [allocate, HasRoom, hfree, hs]

/-- Allocation makes one node, at an address where there was none. -/
theorem node?_allocate {kind : NodeKind} {d' : Document} (hd : d.Accounted)
    (h : d.allocate kind = .ok (id, d')) : d.node? id = none ∧
      ∀ x, d'.node? x = if x = id then some (.detached kind) else d.node? x := by
  cases hfree : d.free with
  | nil =>
    simp only [allocate, hfree] at h
    split at h
    · cases h
      refine ⟨by simp [node?], fun x => ?_⟩
      obtain ⟨slot, generation⟩ := x
      simp only [node?, Array.getElem?_push, NodeId.mk.injEq]
      by_cases hslot : slot = d.slots.size
      · subst hslot
        by_cases hg : generation = 0 <;> simp [hg, eq_comm]
      · simp [hslot]
    · cases h
  | cons slot free =>
    obtain ⟨s, hs, hvacant⟩ := (hd.mem_iff slot).1 (by simp [hfree])
    simp only [allocate, hfree, hs] at h
    cases h
    refine ⟨by simp [node?, hs, hvacant], fun x => ?_⟩
    obtain ⟨slot', generation⟩ := x
    simp only [node?, Array.getElem?_setIfInBounds, NodeId.mk.injEq]
    by_cases hslot : slot = slot'
    · subst hslot
      obtain ⟨hlt, rfl⟩ := Array.getElem?_eq_some_iff.1 hs
      by_cases hg : generation = d.slots[slot].generation <;>
        simp [hg, hlt, eq_comm]
    · simp [hslot, Ne.symm hslot]

theorem Accounted.allocate {kind : NodeKind} {d' : Document} (hd : d.Accounted)
    (h : d.allocate kind = .ok (id, d')) : d'.Accounted := by
  cases hfree : d.free with
  | nil =>
    simp only [Document.allocate, hfree] at h
    split at h
    · cases h
      refine ⟨List.nodup_nil, fun i => ?_⟩
      have hi := hd.mem_iff i
      rw [hfree] at hi
      simp only [Array.getElem?_push]
      split
      · simp
      · exact hi
    · cases h
  | cons slot free =>
    obtain ⟨s, hs, hvacant⟩ := (hd.mem_iff slot).1 (by simp [hfree])
    simp only [Document.allocate, hfree, hs] at h
    cases h
    have hnodup := hd.nodup
    rw [hfree, List.nodup_cons] at hnodup
    refine ⟨hnodup.2, fun i => ?_⟩
    have hi := hd.mem_iff i
    rw [hfree, List.mem_cons] at hi
    simp only [Array.getElem?_setIfInBounds]
    by_cases hslot : slot = i
    · subst hslot
      have hlt : slot < d.slots.size := (Array.getElem?_eq_some_iff.1 hs).1
      simp [hlt, hnodup.1]
    · simp only [hslot, if_false]
      rw [← hi]
      simp [Ne.symm hslot]

theorem nodeCount_allocate {kind : NodeKind} {d' : Document} (hd : d.Accounted)
    (h : d.allocate kind = .ok (id, d')) : d'.nodeCount = d.nodeCount + 1 := by
  cases hfree : d.free with
  | nil =>
    simp only [Document.allocate, hfree] at h
    split at h
    · cases h
      simp [nodeCount]
    · cases h
  | cons slot free =>
    obtain ⟨s, hs, hvacant⟩ := (hd.mem_iff slot).1 (by simp [hfree])
    obtain ⟨hlt, rfl⟩ := Array.getElem?_eq_some_iff.1 hs
    simp only [Document.allocate, hfree, hs] at h
    cases h
    simp only [nodeCount]
    rw [Array.setIfInBounds_def, dif_pos hlt, Array.countP_set]
    simp [hvacant]

theorem node?_vacate (h : d.node? id = some n) (x : NodeId) :
    (d.vacate id).node? x = if x = id then none else d.node? x := by
  obtain ⟨s, hs, hgeneration, -⟩ := node?_eq_some_iff.1 h
  obtain ⟨slot, generation⟩ := id
  obtain ⟨slot', generation'⟩ := x
  simp only [node?, vacate, Array.getElem?_modify, NodeId.mk.injEq] at hs hgeneration ⊢
  by_cases hslot : slot = slot'
  · subst hslot
    subst hgeneration
    by_cases hg : generation' = s.generation
    · simp [hs, hg]
    · simp [hs, hg, Ne.symm hg]
  · simp [hslot, Ne.symm hslot]

theorem Accounted.vacate (hd : d.Accounted) (h : d.node? id = some n) :
    (d.vacate id).Accounted := by
  obtain ⟨s, hs, -, hnode⟩ := node?_eq_some_iff.1 h
  refine ⟨List.nodup_cons.2 ⟨fun hmem => ?_, hd.nodup⟩, fun i => ?_⟩
  · obtain ⟨t, ht, hvacant⟩ := (hd.mem_iff _).1 hmem
    obtain rfl : s = t := Option.some.inj (hs.symm.trans ht)
    rw [hnode] at hvacant
    cases hvacant
  · have hi := hd.mem_iff i
    simp only [Document.vacate, Array.getElem?_modify, List.mem_cons]
    by_cases hslot : id.slot = i
    · subst hslot
      simp [hs]
    · simp [hslot, Ne.symm hslot, hi]

theorem node?_update_eq_map (f : Node → Node) (x : NodeId) : (d.update id f).node? x =
    (d.node? x).map fun n => if x = id then f n else n := by
  rw [node?_update]
  by_cases h : x = id <;> simp [h]

/-- Detaching touches the link between a node and its parent. -/
theorem node?_detach {p : NodeId} (hp : d.parent? id = some p) (x : NodeId) :
    (d.detach id).node? x = (d.node? x).map fun n =>
      { n with
        parent := if x = id then none else n.parent
        children := if x = p then n.children.filter (· ≠ id) else n.children } := by
  simp only [detach, hp, node?_update_eq_map, Option.map_map]
  congr 1
  funext ⟨kind, parent, children, notes⟩
  grind

theorem detach_of_parent?_eq_none (h : d.parent? id = none) : d.detach id = d := by
  simp [detach, h]

theorem Accounted.detach (hd : d.Accounted) (id : NodeId) : (d.detach id).Accounted := by
  unfold Document.detach
  split
  · exact hd
  · exact (hd.update _ _).update _ _

/-- Attaching touches the link between the child and the parent. -/
theorem node?_attach (p c : NodeId) (place : List NodeId → List NodeId) (x : NodeId) :
    (d.attach p c place).node? x = (d.node? x).map fun n =>
      { n with
        parent := if x = c then some p else n.parent
        children := if x = p then place n.children else n.children } := by
  simp only [attach, node?_update_eq_map, Option.map_map]
  congr 1
  funext ⟨kind, parent, children, notes⟩
  grind

theorem Accounted.attach (hd : d.Accounted) (p c : NodeId) (place : List NodeId → List NodeId) :
    (d.attach p c place).Accounted :=
  (hd.update _ _).update _ _

end LiveMarkup.Document
