import LiveMarkup.Proofs.Document.Ages
import LiveMarkup.Proofs.Document.Refusal

/-! All that moves and removals do. A move changes the rows of children of the two parents and the
parent of the node that moves; a removal frees the slots of the node and of what hangs below it and
changes the row of the parent. There is nothing else that they change. -/
namespace LiveMarkup

/-- A slot without what its node says. -/
def Slot.outline (s : Slot) : UInt32 × Bool := (s.generation, s.node.isSome)

namespace Document

variable {d d' : Document} {id p c : NodeId} {s : Shape}

/-- The same slots are vacant, and the generations are the same. -/
structure SameSlots (d d' : Document) : Prop where
  tree : d'.tree = d.tree
  free : d'.free = d.free
  outlines : d'.slots.map Slot.outline = d.slots.map Slot.outline

namespace SameSlots

theorem updatesKeep : UpdatesKeep SameSlots where
  refl _ := ⟨rfl, rfl, rfl⟩
  trans h h' :=
    ⟨h'.tree.trans h.tree, h'.free.trans h.free, h'.outlines.trans h.outlines⟩
  update d id f := by
    refine ⟨rfl, rfl, Array.ext_getElem? fun i => ?_⟩
    rw [Array.getElem?_map, Array.getElem?_map, Document.update, Array.getElem?_modify]
    split
    · cases d.slots[i]? with
      | none => rfl
      | some s =>
        simp only [Option.map_some, Slot.outline]
        split <;> simp
    · rfl

theorem generation? (h : SameSlots d d') (slot : Nat) :
    d'.generation? slot = d.generation? slot := by
  have hslot : (d'.slots.map Slot.outline)[slot]? = (d.slots.map Slot.outline)[slot]? :=
    congrArg (·[slot]?) h.outlines
  rw [Array.getElem?_map, Array.getElem?_map] at hslot
  have hfst : ∀ a : Option Slot, (a.map Slot.outline).map Prod.fst = a.map Slot.generation :=
    fun a => Option.map_map ..
  rw [Document.generation?, Document.generation?, ← hfst, hslot, hfst]

theorem nodeCount (h : SameSlots d d') : d'.nodeCount = d.nodeCount := by
  have hcount : ∀ d : Document, d.nodeCount = (d.slots.map Slot.outline).countP Prod.snd :=
    fun d => by
      rw [Array.countP_map]
      rfl
  rw [hcount, hcount, h.outlines]

end SameSlots

/-- A node has become a child of another one, which now has a row of children. -/
structure Moved (d d' : Document) (p c : NodeId) (row : List NodeId) : Prop where
  parent : ∃ n, d.node? p = some n ∧ d'.node? p = some { n with children := row }
  child : ∃ n, d.node? c = some n ∧ d'.node? c = some { n with parent := some p }
  /-- Another parent that the node had before has lost it. -/
  former : ∀ q, d.parent? c = some q → q ≠ p → ∃ n, d.node? q = some n ∧
    d'.node? q = some { n with children := n.children.filter (· ≠ c) }
  other : ∀ x, x ≠ p → x ≠ c → d.parent? c ≠ some x → d'.node? x = d.node? x
  /-- The node with all that hangs below it is as it was, in its new place. -/
  subtree : ∀ (s : Shape) q, s.In d q → s.id = c → s.In d' (some p)
  slots : SameSlots d d'

/-- A move that succeeds is a move to the place, with the other children as they were. -/
theorem Sound.moved {place : List NodeId → List NodeId} (hd : d.Sound)
    (hplace : ∀ l, (place l).Perm (c :: l)) (h : (do
      d.checkPlacement p c
      pure ((d.detach c).attach p c place)) = Except.ok d') :
    Moved d d' p c (place ((d.children p).filter (· ≠ c))) := by
  obtain ⟨hp, hc, -, -, hline⟩ := hd.checkPlacement_eq_ok_iff.1 (eq_of_place_eq_ok h).1
  obtain ⟨-, -, hnode⟩ := hd.place_eq_ok hplace h
  have hpc : p ≠ c := fun h => hline (h ▸ .refl)
  have hchild : ∃ n, d.node? c = some n ∧ d'.node? c = some { n with parent := some p } := by
    obtain ⟨n, hn⟩ := contains_iff.1 hc
    have hself : d.parent? c ≠ some c := fun h => hd.not_above_parent h .refl
    refine ⟨n, hn, ?_⟩
    rw [hnode, hn, Option.map_some, if_pos rfl, if_neg hpc.symm, hd.filter_children hn hself]
  have hother : ∀ x, x ≠ p → x ≠ c → d.parent? c ≠ some x → d'.node? x = d.node? x := by
    intro x hxp hxc hparent
    rw [hnode]
    cases hn : d.node? x with
    | none => rfl
    | some n => rw [Option.map_some, if_neg hxc, if_neg hxp, hd.filter_children hn hparent]
  refine ⟨?_, hchild, fun q hq hqp => ?_, hother, fun s q hs hid => ?_,
    SameSlots.updatesKeep.place h⟩
  · obtain ⟨n, hn⟩ := contains_iff.1 hp
    refine ⟨n, hn, ?_⟩
    rw [hnode, hn, Option.map_some, if_neg hpc, if_pos rfl, children_of_node? hn]
  · obtain ⟨n, hn⟩ := contains_iff.1 (hd.contains_of_parent? hq).2
    have hqc : q ≠ c := by
      rintro rfl
      exact hd.not_above_parent hq .refl
    refine ⟨n, hn, ?_⟩
    rw [hnode, hn, Option.map_some, if_neg hqc, if_neg hqp]
  · obtain ⟨c', kind, notes, kids⟩ := s
    obtain rfl : c' = c := hid
    obtain ⟨n, hn, hn'⟩ := hchild
    obtain rfl : _ = n := Option.some.inj (hs.1.symm.trans hn)
    refine ⟨hn', hs.2.congr fun x hx => ?_⟩
    have habove : d.Above c' x := (hd.mem_ids_iff hs).1 (List.mem_cons_of_mem _ hx)
    refine hother x (fun h => hline (h ▸ habove)) (fun h => ?_) fun h =>
      hd.not_above_parent h habove
    exact hd.not_mem_idsAll hs (h ▸ hx)

/-- Moves succeed exactly where the node may hang, under a parent of the reference if there is one,
and put the node last or right before the reference among the other children. -/
theorem Reachable.moves_exactly (hd : d.Reachable) (p c : NodeId) :
    ((∃ d', d.append p c = .ok d') ↔ d.MayHang p c) ∧
    (∀ d', d.append p c = .ok d' → Moved d d' p c ((d.children p).filter (· ≠ c) ++ [c])) ∧
    ∀ r, c ≠ r →
      ((∃ d', d.insertBefore p c r = .ok d') ↔ d.MayHang p c ∧ r ∈ d.children p) ∧
      ∀ d', d.insertBefore p c r = .ok d' → ∃ before after,
        (d.children p).filter (· ≠ c) = before ++ r :: after ∧
        Moved d d' p c (before ++ c :: r :: after) := by
  have hs := hd.sound
  refine ⟨hs.place_isOk_iff, fun d' h => hs.moved (fun l => List.perm_append_singleton c l) h,
    fun r hne => ?_⟩
  rw [hs.mem_children_iff]
  have heq := insertBefore_of_ne (d := d) (p := p) hne
  by_cases hr : d.parent? r = some p
  · rw [if_neg (not_not_intro hr)] at heq
    rw [heq, and_iff_left hr]
    refine ⟨hs.place_isOk_iff, fun d' h => ?_⟩
    have hmem : r ∈ (d.children p).filter (· ≠ c) :=
      List.mem_filter.2 ⟨hs.mem_children_iff.2 hr, decide_eq_true hne.symm⟩
    obtain ⟨before, after, hsplit, hbefore⟩ := List.eq_append_cons_of_mem hmem
    have hmoved := hs.moved (perm_placeBefore c r) h
    rw [hsplit, placeBefore_append hbefore] at hmoved
    exact ⟨before, after, hsplit, hmoved⟩
  · rw [if_pos hr] at heq
    rw [heq]
    exact ⟨iff_of_false (fun ⟨_, h⟩ => nomatch h) fun h => hr h.2, fun d' h => nomatch h⟩

/-- Of three elements under the root, the first is put right before the last one. -/
theorem moves_exactly_within :
    let d := Operation.performAll ⟨0⟩ [.createElement "a", .createElement "b", .createElement "c",
      .append .root ⟨1, 0⟩, .append .root ⟨2, 0⟩, .append .root ⟨3, 0⟩]
    d.Reachable ∧ ∃ d', d.insertBefore .root ⟨1, 0⟩ ⟨3, 0⟩ = .ok d' ∧
      Moved d d' .root ⟨1, 0⟩ [⟨2, 0⟩, ⟨1, 0⟩, ⟨3, 0⟩] := by
  intro d
  have hd : d.Reachable := .of_derives (.empty ⟨0⟩) ⟨_, rfl⟩
  obtain ⟨d', hd'⟩ : ∃ d', d.insertBefore .root ⟨1, 0⟩ ⟨3, 0⟩ = .ok d' := ⟨_, rfl⟩
  obtain ⟨before, after, hrow, hmoved⟩ :=
    ((hd.moves_exactly .root ⟨1, 0⟩).2.2 ⟨3, 0⟩ (by decide)).2 d' hd'
  have hothers : (d.children .root).filter (· ≠ ⟨1, 0⟩) = [⟨2, 0⟩, ⟨3, 0⟩] := by decide
  rw [hothers] at hrow
  refine ⟨hd, d', hd', ?_⟩
  rcases before with _ | ⟨a, _ | ⟨b, before⟩⟩ <;> simp_all

/-- A node with all that hangs below it has been taken away, slot by slot in an order. -/
structure Removed (d d' : Document) (id : NodeId) (order : List NodeId) : Prop where
  tree : d'.tree = d.tree
  dead : ∀ x, d.Above id x → d'.contains x = false
  /-- The parent loses the node and nothing else. -/
  former : ∀ q, d.parent? id = some q → ∃ n, d.node? q = some n ∧
    d'.node? q = some { n with children := n.children.filter (· ≠ id) }
  other : ∀ x, ¬ d.Above id x → d.parent? id ≠ some x → d'.node? x = d.node? x
  nodeCount : d'.nodeCount + order.length = d.nodeCount
  /-- The slot that is given back last comes first. -/
  free : d'.free = (order.map NodeId.slot).reverse ++ d.free
  vacant : ∀ x ∈ order, d'.slots[x.slot]? = some ⟨x.generation + 1, none⟩
  generation? : ∀ i ∉ order.map NodeId.slot, d'.generation? i = d.generation? i

theorem Sound.removed (hd : d.Sound) (hs : s.In d (d.parent? s.id)) (hroot : s.id ≠ .root) :
    ∃ d', d.remove s.id = .ok d' ∧ Removed d d' s.id s.lastFirst := by
  obtain ⟨d', hok, -, -, hnode⟩ := hd.remove hs hroot
  have hids : ∀ x, x ∈ s.ids ↔ d.Above s.id x := fun x => hd.mem_ids_iff hs
  have hslots : SameSlots d (d.detach s.id) := SameSlots.updatesKeep.detach d s.id
  have hin := hd.in_detach hs
  have hlive : ∀ x ∈ s.lastFirst, (d.detach s.id).contains x = true := fun x hx =>
    hin.contains (s.lastFirst_perm.subset hx)
  have hnodup : s.lastFirst.Nodup := s.lastFirst_perm.nodup_iff.2 (hd.nodup_ids hs)
  have heq : d' = (d.detach s.id).vacateAll s.lastFirst := by
    have hrelease : (d.detach s.id).release ([s].map Shape.id) =
        (d.detach s.id).vacateAll ([s].flatMap Shape.lastFirst) :=
      release_eq_vacateAll (List.forall_mem_singleton.2 ⟨none, hin⟩)
        (by simpa [Shape.idsAll] using hd.nodup_ids hs)
    rw [Document.remove, if_neg hroot, if_pos (hs.contains s.id_mem_ids)] at hok
    rw [← Except.ok.inj hok]
    simpa using hrelease
  refine ⟨d', hok, remove_tree hok, fun x hx => ?_, fun q hq => ?_, fun x hx hparent => ?_, ?_, ?_,
    fun x hx => ?_, fun i hi => ?_⟩
  · rw [not_contains_iff, hnode, if_pos ((hids x).2 hx)]
  · obtain ⟨n, hn⟩ := contains_iff.1 (hd.contains_of_parent? hq).2
    refine ⟨n, hn, ?_⟩
    rw [hnode, if_neg fun h => hd.not_above_parent hq ((hids q).1 h), hn, Option.map_some,
      if_pos hq]
  · rw [hnode, if_neg fun h => hx ((hids x).1 h)]
    simp [hparent]
  · rw [heq, nodeCount_vacateAll hlive hnodup, hslots.nodeCount]
  · rw [heq, free_vacateAll, hslots.free]
  · rw [heq, slots_vacateAll hlive hnodup hx]
  · rw [heq, ← hslots.generation?, generation?, slots_vacateAll_of_not_mem hi, generation?]

/-- Every live node but the root can be removed, which takes away the node and what hangs below it,
each once, a node before its children and a later child before an earlier one. -/
theorem Reachable.remove_frees_subtree (hd : d.Reachable) (hlive : d.contains id = true)
    (hroot : id ≠ .root) : ∃ (s : Shape) (d' : Document), s.id = id ∧ s.In d (d.parent? id) ∧
      (∀ x, x ∈ s.lastFirst ↔ d.Above id x) ∧ s.lastFirst.Nodup ∧
      d.remove id = .ok d' ∧ Removed d d' id s.lastFirst := by
  obtain ⟨s, rfl, hs⟩ := hd.sound.exists_shape hlive
  obtain ⟨d', hok, hremoved⟩ := hd.sound.removed hs hroot
  refine ⟨s, d', rfl, hs, fun x => ?_, ?_, hok, hremoved⟩
  · rw [s.lastFirst_perm.mem_iff, hd.sound.mem_ids_iff hs]
  · exact s.lastFirst_perm.nodup_iff.2 (hd.sound.nodup_ids hs)

/-- An element with a text and an element in it, the latter with a text of its own: their slots
come free from the outer element on, the inner one before the text in front of it. -/
theorem remove_frees_subtree_nested :
    let d := Operation.performAll ⟨0⟩ [.createElement "a", .createText "x", .createElement "b",
      .createText "y", .append .root ⟨1, 0⟩, .append ⟨1, 0⟩ ⟨2, 0⟩, .append ⟨1, 0⟩ ⟨3, 0⟩,
      .append ⟨3, 0⟩ ⟨4, 0⟩]
    d.Reachable ∧ d.contains ⟨1, 0⟩ = true ∧ ∃ (s : Shape) (d' : Document),
      d.remove ⟨1, 0⟩ = .ok d' ∧ Removed d d' ⟨1, 0⟩ s.lastFirst ∧ d'.free = [2, 4, 3, 1] := by
  intro d
  have hd : d.Reachable := .of_derives (.empty ⟨0⟩) ⟨_, rfl⟩
  have hlive : d.contains ⟨1, 0⟩ = true := by decide
  obtain ⟨s, d', -, -, -, -, hok, hremoved⟩ := hd.remove_frees_subtree hlive (by decide)
  refine ⟨hd, hlive, s, d', hok, hremoved, ?_⟩
  have hfree : (d.remove ⟨1, 0⟩).map Document.free = .ok [2, 4, 3, 1] := by decide
  rw [hok] at hfree
  exact Except.ok.inj hfree

end Document
end LiveMarkup
