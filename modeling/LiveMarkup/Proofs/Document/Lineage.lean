import Mathlib.Data.List.Nodup
import LiveMarkup.Proofs.Document.Sound

/-! Lines of parents in a sound document: they end, they repeat no node, and they are no longer than
the number of slots, so the bounded walk upwards sees all that is above a node. -/
namespace LiveMarkup.Document

variable {d : Document} {id c x : NodeId}

/-- Live nodes take a slot each. -/
theorem length_le_size_of_nodup {l : List NodeId} (hnodup : l.Nodup)
    (hlive : ∀ y ∈ l, d.contains y = true) : l.length ≤ d.slots.size := by
  have hslots : (l.map NodeId.slot).Nodup := by
    refine hnodup.map_on fun a ha b hb h => ?_
    obtain ⟨n, hn⟩ := contains_iff.1 (hlive a ha)
    obtain ⟨m, hm⟩ := contains_iff.1 (hlive b hb)
    exact eq_of_slot_eq hn hm h
  have hrange : l.map NodeId.slot ⊆ List.range d.slots.size := by
    intro i hi
    obtain ⟨y, hy, rfl⟩ := List.mem_map.1 hi
    obtain ⟨n, hn⟩ := contains_iff.1 (hlive y hy)
    exact List.mem_range.2 (slot_lt_size hn)
  simpa using (hslots.subperm hrange).length_le

theorem above_iff_of_parent?_eq_none (h : d.parent? x = none) : d.Above c x ↔ c = x := by
  refine ⟨fun hc => ?_, fun hc => hc ▸ .refl⟩
  obtain rfl | ⟨y, -, hy⟩ := Relation.ReflTransGen.cases_tail hc
  · rfl
  · rw [h] at hy
    cases hy

theorem above_iff_of_parent? {p : NodeId} (h : d.parent? x = some p) :
    d.Above c x ↔ c = x ∨ d.Above c p := by
  refine ⟨fun hc => ?_, ?_⟩
  · obtain rfl | ⟨y, hy, hyx⟩ := Relation.ReflTransGen.cases_tail hc
    · exact Or.inl rfl
    · obtain rfl : y = p := Option.some.inj (hyx.symm.trans h)
      exact Or.inr hy
  · rintro (rfl | hc)
    · exact .refl
    · exact hc.tail h

/-- The whole line of a node: what a walk with enough fuel gives. -/
theorem Sound.exists_line (hd : d.Sound) (x : NodeId) : ∃ line : List NodeId,
    (∀ fuel, line.length ≤ fuel → d.lineage fuel x = line) ∧ (∀ y, y ∈ line ↔ d.Above y x) ∧
      line.Nodup ∧ ∃ top ∈ line, d.parent? top = none := by
  induction x using hd.grounded.induction with
  | _ x ih =>
    cases hp : d.parent? x with
    | none =>
      refine ⟨[x], fun fuel hfuel => ?_, fun y => ?_, List.nodup_singleton x, x,
        List.mem_singleton_self x, hp⟩
      · rcases fuel with _ | fuel
        · cases hfuel
        · simp [lineage, hp]
      · rw [List.mem_singleton, above_iff_of_parent?_eq_none hp]
    | some p =>
      obtain ⟨line, hline, hmem, hnodup, top, htop, hnone⟩ := ih p hp
      refine ⟨x :: line, fun fuel hfuel => ?_, fun y => ?_, List.nodup_cons.2 ⟨fun h => ?_, hnodup⟩,
        top, List.mem_cons_of_mem _ htop, hnone⟩
      · rcases fuel with _ | fuel
        · cases hfuel
        · simp [lineage, hp, hline fuel (Nat.le_of_succ_le_succ hfuel)]
      · rw [List.mem_cons, hmem, above_iff_of_parent? hp]
      · exact hd.not_above_parent hp ((hmem x).1 h)

theorem Sound.length_line_le (hd : d.Sound) (hx : d.contains x = true) {line : List NodeId}
    (hmem : ∀ y, y ∈ line ↔ d.Above y x) (hnodup : line.Nodup) : line.length ≤ d.slots.size :=
  length_le_size_of_nodup hnodup fun y hy => hd.contains_of_above ((hmem y).1 hy) hx

/-- Following parents from a live node ends, within the number of slots, at a node without one. -/
theorem Sound.exists_top (hd : d.Sound) (hx : d.contains x = true) :
    ∃ top ∈ d.lineage d.slots.size x, d.contains top = true ∧ d.parent? top = none := by
  obtain ⟨line, hline, hmem, hnodup, top, htop, hnone⟩ := hd.exists_line x
  refine ⟨top, ?_, hd.contains_of_above ((hmem top).1 htop) hx, hnone⟩
  rwa [hline _ (hd.length_line_le hx hmem hnodup)]

/-- The bounded walk decides what is above a node. -/
theorem Sound.isAncestorOrSelf_iff (hd : d.Sound) :
    d.isAncestorOrSelf c x = true ↔ d.Above c x := by
  obtain ⟨line, hline, hmem, hnodup, -⟩ := hd.exists_line x
  have hle : line.length ≤ d.slots.size + 1 := by
    by_cases hx : d.contains x = true
    · exact Nat.le_succ_of_le (hd.length_line_le hx hmem hnodup)
    · have hp : d.parent? x = none := by
        rw [parent?, not_contains_iff.1 (Bool.eq_false_iff.2 hx)]
        rfl
      have hsub : line ⊆ [x] := fun y hy =>
        List.mem_singleton.2 ((above_iff_of_parent?_eq_none hp).1 ((hmem y).1 hy))
      have := (hnodup.subperm hsub).length_le
      rw [List.length_singleton] at this
      omega
  rw [isAncestorOrSelf, decide_eq_true_eq, hline _ hle, hmem]

end LiveMarkup.Document
