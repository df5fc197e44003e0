import LiveMarkup.Proofs.Document.Shape

/-! What has changed between two documents: some addresses have made way for others, and every other
address finds what it found before. -/
namespace LiveMarkup

namespace Document

variable {d d₁ d₂ : Document} {x : NodeId} {A B C A' B' : List NodeId}

/-- The old addresses have made way for the new ones, which were old or not in use. -/
structure Replaces (d d' : Document) (old new : List NodeId) : Prop where
  tree : d'.tree = d.tree
  same : ∀ x, x ∉ old → x ∉ new → d'.node? x = d.node? x
  fresh : ∀ x ∈ new, x ∈ old ∨ d.node? x = none
  gone : ∀ x ∈ old, x ∈ new ∨ d'.node? x = none

namespace Replaces

theorem refl (d : Document) (A : List NodeId) : d.Replaces d A A :=
  ⟨rfl, fun _ _ _ => rfl, fun _ h => Or.inl h, fun _ h => Or.inl h⟩

theorem trans (h : d.Replaces d₁ A B) (h' : d₁.Replaces d₂ B C) : d.Replaces d₂ A C where
  tree := h'.tree.trans h.tree
  same x hA hC := by
    by_cases hB : x ∈ B
    · rw [((h.fresh x hB).resolve_left hA), ((h'.gone x hB).resolve_left hC)]
    · rw [h'.same x hB hC, h.same x hA hB]
  fresh x hC := by
    by_cases hA : x ∈ A
    · exact Or.inl hA
    · rcases h'.fresh x hC with hB | hnone
      · exact h.fresh x hB
      · by_cases hB : x ∈ B
        · exact h.fresh x hB
        · exact Or.inr ((h.same x hA hB).symm.trans hnone)
  gone x hA := by
    by_cases hC : x ∈ C
    · exact Or.inl hC
    · rcases h.gone x hA with hB | hnone
      · exact h'.gone x hB
      · by_cases hB : x ∈ B
        · exact h'.gone x hB
        · exact Or.inr ((h'.same x hB hC).trans hnone)

/-- Addresses that stay may be counted in. -/
theorem widen (h : d.Replaces d₁ A B) (hA : A ⊆ A') (hB : B ⊆ B')
    (hA' : ∀ x ∈ A', x ∈ A ∨ x ∈ B') (hB' : ∀ x ∈ B', x ∈ B ∨ x ∈ A') :
    d.Replaces d₁ A' B' where
  tree := h.tree
  same x hxA hxB := h.same x (fun hx => hxA (hA hx)) fun hx => hxB (hB hx)
  fresh x hx := by
    rcases hB' x hx with hx | hx
    · exact (h.fresh x hx).imp_left fun hx => hA hx
    · exact Or.inl hx
  gone x hx := by
    rcases hA' x hx with hx | hx
    · exact (h.gone x hx).imp_left fun hx => hB hx
    · exact Or.inl hx

theorem of_mem_iff (h : d.Replaces d₁ A B) (hA : ∀ x, x ∈ A' ↔ x ∈ A) (hB : ∀ x, x ∈ B' ↔ x ∈ B) :
    d.Replaces d₁ A' B' where
  tree := h.tree
  same x hxA hxB := h.same x (fun hx => hxA ((hA x).2 hx)) fun hx => hxB ((hB x).2 hx)
  fresh x hx := (h.fresh x ((hB x).1 hx)).imp_left (hA x).2
  gone x hx := (h.gone x ((hA x).1 hx)).imp_left (hB x).2

theorem append_left (h : d.Replaces d₁ A B) (C : List NodeId) :
    d.Replaces d₁ (C ++ A) (C ++ B) :=
  h.widen (List.subset_append_right ..) (List.subset_append_right ..) (by grind) (by grind)

theorem append_right (h : d.Replaces d₁ A B) (C : List NodeId) :
    d.Replaces d₁ (A ++ C) (B ++ C) :=
  h.widen (List.subset_append_left ..) (List.subset_append_left ..) (by grind) (by grind)

theorem cons (h : d.Replaces d₁ A B) (c : NodeId) : d.Replaces d₁ (c :: A) (c :: B) :=
  h.append_left [c]

theorem node?_eq (h : d.Replaces d₁ A B) {n : Node} (hx : d.node? x = some n) (hA : x ∉ A) :
    d₁.node? x = some n := by
  rw [h.same x hA fun hB => ?_, hx]
  rw [(h.fresh x hB).resolve_left hA] at hx
  cases hx

end Replaces

end Document

namespace Shape

variable {d d' : Document} {p : Option NodeId} {s : Shape} {ss : List Shape} {A B : List NodeId}

/-- A shape apart from the old addresses is still there. -/
theorem In.of_replaces (hs : s.In d p) (h : d.Replaces d' A B) (hdisj : List.Disjoint s.ids A) :
    s.In d' p :=
  hs.congr fun x hx => by
    obtain ⟨n, hn⟩ := Document.contains_iff.1 (hs.contains hx)
    rw [hn, h.node?_eq hn (hdisj hx)]

theorem InAll.of_replaces (hs : InAll d p ss) (h : d.Replaces d' A B)
    (hdisj : List.Disjoint (idsAll ss) A) : InAll d' p ss :=
  inAll_iff.2 fun _ hmem => (inAll_iff.1 hs _ hmem).of_replaces h fun _ hx =>
    hdisj (mem_idsAll_iff.2 ⟨_, hmem, hx⟩)

end Shape

/-- A child that has changed leaves the rest of its parent's shape. -/
theorem Document.Sound.in_of_child {d d' : Document} {p : Option NodeId} {id : NodeId}
    {kind : NodeKind} {notes : List (String × String)} {before after : List Shape} {s s' : Shape}
    (hd : d.Sound) (hs : (⟨id, kind, notes, before ++ s :: after⟩ : Shape).In d p)
    (hs' : s'.In d' (some id)) (hid : s'.id = s.id) (hrep : d.Replaces d' s.ids s'.ids) :
    (⟨id, kind, notes, before ++ s' :: after⟩ : Shape).In d' p ∧
      d.Replaces d' (id :: Shape.idsAll (before ++ s :: after))
        (id :: Shape.idsAll (before ++ s' :: after)) := by
  have hnodup := hd.nodup_ids hs
  rw [Shape.ids, List.nodup_cons, Shape.idsAll_append, Shape.idsAll, List.mem_append,
    List.mem_append, not_or, not_or] at hnodup
  obtain ⟨⟨-, hids, -⟩, hnodup⟩ := hnodup
  rw [List.nodup_append', List.nodup_append'] at hnodup
  obtain ⟨-, ⟨-, -, hafter⟩, hbefore⟩ := hnodup
  obtain ⟨hleft, hright⟩ := Shape.inAll_append.1 hs.2
  refine ⟨⟨?_, Shape.inAll_append.2 ⟨?_, hs', ?_⟩⟩, ?_⟩
  · rw [hrep.node?_eq hs.1 hids]
    simp [hid]
  · exact hleft.of_replaces hrep fun x hx hxs => hbefore hx (List.mem_append_left _ hxs)
  · exact hright.2.of_replaces hrep fun x hx hxs => hafter hxs hx
  · simp only [Shape.idsAll_append, Shape.idsAll]
    exact ((hrep.append_right (Shape.idsAll after)).append_left (Shape.idsAll before)).cons id

end LiveMarkup
