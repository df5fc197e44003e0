import LiveMarkup.Proofs.Document.Links
import LiveMarkup.Proofs.Document.Releasing
import LiveMarkup.Proofs.Runs

/-! Removing a node frees the addresses of its shape, takes the node out of its parent's children
and leaves the rest of a sound document as it is. -/
namespace LiveMarkup.Document

variable {d : Document} {id x : NodeId} {p : Option NodeId} {n : Node} {s : Shape}
  {ss : List Shape}

/-- Slots that are free stay free. -/
theorem free_suffix_release (d : Document) (work : List NodeId) :
    d.free <:+ (d.release work).free := by
  induction d, work using release_induction with
  | nil d => simp [release_nil]
  | dead d id rest h ih => rwa [release_dead h]
  | live d id rest n h ih =>
    rw [release_live h]
    exact (List.suffix_cons id.slot d.free).trans ih

theorem hasRoom_release_live (h : d.node? id = some n) (rest : List NodeId) :
    (d.release (id :: rest)).HasRoom := by
  rw [release_live h]
  have hmem : id.slot ∈ (d.vacate id).free := List.mem_cons_self ..
  exact Or.inl (List.ne_nil_of_mem ((free_suffix_release _ _).subset hmem))

/-- A worklist of separate shapes is freed with all that hangs below it, and nothing else is. -/
theorem release_map_id (hd : d.Accounted) (hss : ∀ s ∈ ss, ∃ p, s.In d p)
    (hnodup : (Shape.idsAll ss).Nodup) : (d.release (ss.map Shape.id)).Accounted ∧
      ∀ x, (d.release (ss.map Shape.id)).node? x =
        if x ∈ Shape.idsAll ss then none else d.node? x := by
  have hperm := Shape.flatMap_lastFirst_perm ss
  have horder := hperm.nodup_iff.2 hnodup
  have hlive : ∀ x ∈ ss.flatMap Shape.lastFirst, d.contains x = true := by
    intro x hx
    obtain ⟨s, hmem, hxs⟩ := Shape.mem_idsAll_iff.1 (hperm.subset hx)
    obtain ⟨p, hs⟩ := hss s hmem
    exact hs.contains hxs
  rw [release_eq_vacateAll hss hnodup]
  refine ⟨hd.vacateAll hlive horder, fun x => ?_⟩
  simp only [node?_vacateAll hlive horder, hperm.mem_iff]

/-- Freeing a detached node with all that hangs below it. -/
theorem Sound.release (hd : d.Sound) (hs : s.In d none) (hroot : s.id ≠ .root) :
    (d.release [s.id]).Sound ∧
      ∀ x, (d.release [s.id]).node? x = if x ∈ s.ids then none else d.node? x := by
  have hone : ∀ t ∈ [s], ∃ p, t.In d p := List.forall_mem_singleton.2 ⟨none, hs⟩
  obtain ⟨hacc, hnode⟩ := release_map_id hd.accounted hone
    (by simpa only [Shape.idsAll_singleton] using hd.nodup_ids hs)
  simp only [List.map_cons, List.map_nil, Shape.idsAll_singleton] at hacc hnode
  refine ⟨?_, hnode⟩
  have hback : ∀ {x n}, (d.release [s.id]).node? x = some n → x ∉ s.ids ∧ d.node? x = some n := by
    intro x n h
    rw [hnode] at h
    split at h
    · cases h
    · exact ⟨‹_›, h⟩
  have hforth : ∀ {x n}, x ∉ s.ids → d.node? x = some n →
      (d.release [s.id]).node? x = some n := by
    intro x n hx h
    rw [hnode, if_neg hx, h]
  have hlink : ∀ {p c}, d.parent? c = some p → (c ∈ s.ids ↔ p ∈ s.ids) := by
    intro p c h
    rw [hd.mem_ids_iff hs, hd.mem_ids_iff hs, above_iff_of_parent? h]
    refine or_iff_right ?_
    rintro rfl
    rw [hs.parent?] at h
    cases h
  refine ⟨?_, ?_, ?_, ?_, ?_, ?_, hacc⟩
  · obtain ⟨n, hn, hkind, hp⟩ := hd.root
    refine ⟨n, hforth (fun h => hroot ?_) hn, hkind, hp⟩
    exact (above_iff_of_parent?_eq_none hd.parent?_root).1 ((hd.mem_ids_iff hs).1 h)
  · intro p c n hp hc
    obtain ⟨hps, hp⟩ := hback hp
    obtain ⟨m, hm, hmp⟩ := hd.child hp hc
    exact ⟨m, hforth (fun h => hps ((hlink (parent?_eq_some_iff.2 ⟨m, hm, hmp⟩)).1 h)) hm, hmp⟩
  · intro p c m hc hp
    obtain ⟨hcs, hc⟩ := hback hc
    obtain ⟨n, hn, hmem⟩ := hd.parent hc hp
    exact ⟨n, hforth (fun h => hcs ((hlink (parent?_eq_some_iff.2 ⟨m, hc, hp⟩)).2 h)) hn, hmem⟩
  · intro p n hp
    exact hd.nodup (hback hp).2
  · intro id n h
    exact hd.valid (hback h).2
  · refine Subrelation.wf (fun {q y} h => ?_) hd.grounded
    obtain ⟨m, hm, hp⟩ := parent?_eq_some_iff.1 h
    exact parent?_eq_some_iff.2 ⟨m, (hback hm).2, hp⟩

theorem Sound.in_detach (hd : d.Sound) (hs : s.In d p) : s.In (d.detach s.id) none := by
  cases hp : p with
  | none =>
    rw [detach_of_parent?_eq_none (by rw [hs.parent?, hp])]
    rwa [hp] at hs
  | some q =>
    subst hp
    have hq : d.parent? s.id = some q := hs.parent?
    have hnodup := hd.nodup_ids hs
    obtain ⟨id, kind, notes, children⟩ := s
    obtain ⟨hid, -⟩ := List.nodup_cons.1 hnodup
    have hnot : ∀ y ∈ id :: Shape.idsAll children, y ≠ q := by
      rintro y hy rfl
      exact hd.not_above_parent hq ((hd.mem_ids_iff hs).1 hy)
    refine ⟨?_, hs.2.congr fun y hy => ?_⟩
    · rw [node?_detach hq, hs.1]
      simp [hnot id (List.mem_cons_self ..)]
    · obtain ⟨m, hm⟩ := contains_iff.1 (hs.2.contains hy)
      have hyid : y ≠ id := fun h => hid (h ▸ hy)
      rw [node?_detach hq, hm]
      simp [hyid, hnot y (List.mem_cons_of_mem _ hy)]

/-- A live node other than the root can be removed, which leaves room for another one. -/
theorem Sound.remove (hd : d.Sound) (hs : s.In d p) (hroot : s.id ≠ .root) :
    ∃ d', d.remove s.id = .ok d' ∧ d'.Sound ∧ d'.HasRoom ∧ ∀ x, d'.node? x =
      if x ∈ s.ids then none
      else (d.node? x).map fun n =>
        if p = some x then { n with children := n.children.filter (· ≠ s.id) } else n := by
  obtain ⟨hsound, hnode⟩ := (hd.detach s.id).release (hd.in_detach hs) hroot
  obtain ⟨k, hk⟩ := contains_iff.1 ((hd.in_detach hs).contains s.id_mem_ids)
  refine ⟨_, ?_, hsound, hasRoom_release_live hk [], fun x => ?_⟩
  · rw [Document.remove, if_neg hroot, if_pos (hs.contains s.id_mem_ids)]
  · rw [hnode]
    split
    · rfl
    · next hx =>
      have hxs : x ≠ s.id := fun h => hx (h ▸ s.id_mem_ids)
      cases hp : p with
      | none => simp [detach_of_parent?_eq_none (hs.parent?.trans hp)]
      | some q =>
        rw [node?_detach (hs.parent?.trans hp)]
        congr 1
        funext ⟨kind, parent, children, notes⟩
        by_cases hq : x = q
        · simp [← hq, hxs]
        · simp [hq, Ne.symm hq, hxs]

/-- Removing children of one node, one after another. -/
theorem Sound.forM_remove {q : NodeId} (hd : d.Sound) (hss : Shape.InAll d (some q) ss)
    (hnodup : (ss.map Shape.id).Nodup) :
    ∃ d', (ss.map Shape.id).forM (fun id => Edit.apply (·.remove id)) d = .ok ⟨⟩ d' ∧ d'.Sound ∧
      (ss = [] ∧ d' = d ∨ d'.HasRoom) ∧ d'.tree = d.tree ∧ ∀ x, d'.node? x =
        if x ∈ Shape.idsAll ss then none
        else (d.node? x).map fun n =>
          if x = q then { n with children := n.children.filter (· ∉ ss.map Shape.id) } else n := by
  induction ss generalizing d with
  | nil => exact ⟨d, rfl, hd, Or.inl ⟨rfl, rfl⟩, rfl, fun x => by simp [Shape.idsAll]⟩
  | cons s ss ih =>
    rw [List.map_cons, List.nodup_cons] at hnodup
    have hroot : s.id ≠ .root := by
      intro h
      have := hss.1.parent?
      rw [h, hd.parent?_root] at this
      cases this
    obtain ⟨d₁, hok, hsound, hroom, hnode⟩ := hd.remove hss.1 hroot
    have hrest : Shape.InAll d₁ (some q) ss := hss.2.congr fun x hx => by
      obtain ⟨t, ht, hxt⟩ := Shape.mem_idsAll_iff.1 hx
      have hts := Shape.inAll_iff.1 hss.2 t ht
      have hne : s.id ≠ t.id := fun h => hnodup.1 (h ▸ List.mem_map_of_mem ht)
      have hxq : q ≠ x := by
        rintro rfl
        exact hd.not_above_parent hts.parent? ((hd.mem_ids_iff hts).1 hxt)
      rw [hnode, if_neg fun h => hd.disjoint_ids hss.1 hts hne h hxt]
      simp [hxq]
    obtain ⟨d₂, hok₂, hsound₂, hroom₂, htree₂, hnode₂⟩ := ih hsound hrest hnodup.2
    refine ⟨d₂, ?_, hsound₂, Or.inr ?_, htree₂.trans (remove_tree hok), fun x => ?_⟩
    · exact (bind_eq_of_ok (Edit.apply_of_eq_ok (f := (·.remove s.id)) hok)).trans hok₂
    · rcases hroom₂ with ⟨-, rfl⟩ | h
      · exact hroom
      · exact h
    · rw [hnode₂, hnode]
      by_cases hxs : x ∈ s.ids
      · simp [Shape.idsAll, hxs]
      · simp only [Shape.idsAll, List.mem_append, hxs, false_or, if_false, Option.map_map]
        split
        · rfl
        · congr 1
          funext n
          obtain ⟨kind, parent, children, notes⟩ := n
          by_cases hq : x = q
          · have hkept : ∀ y ∈ children, (decide (y ∉ ss.map Shape.id) && decide (y ≠ s.id)) =
                decide (y ∉ (s :: ss).map Shape.id) := by
              intro y _
              by_cases h : y = s.id <;> simp [h]
            simp only [hq, if_true, Function.comp_apply, List.filter_filter,
              List.filter_congr hkept]
          · simp [hq, Ne.symm hq]

end LiveMarkup.Document
