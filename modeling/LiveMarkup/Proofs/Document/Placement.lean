import LiveMarkup.Proofs.Document.Edits
import LiveMarkup.Proofs.Document.Replaces

/-! Edits of a sound document, seen from the shapes they touch: what a node says, a new node, a
detached shape put among the children of a node. Everything else is as it was. -/
namespace LiveMarkup.Document

variable {d d' : Document} {id : NodeId} {p : Option NodeId} {kind : NodeKind}
  {notes : List (String × String)} {kids kids' before after : List Shape} {s a : Shape}

theorem Sound.not_mem_idsAll (hd : d.Sound) (hs : (⟨id, kind, notes, kids⟩ : Shape).In d p) :
    id ∉ Shape.idsAll kids :=
  (List.nodup_cons.1 (hd.nodup_ids hs)).1

/-- A change of what one node says leaves its links. -/
theorem Sound.in_update (hd : d.Sound) (hs : (⟨id, kind, notes, kids⟩ : Shape).In d p)
    (kind' : NodeKind) (notes' : List (String × String)) {f : Node → Node} (hf : ∀ parent children,
      f ⟨kind, parent, children, notes⟩ = ⟨kind', parent, children, notes'⟩) :
    (⟨id, kind', notes', kids⟩ : Shape).In (d.update id f) p ∧
      d.Replaces (d.update id f) (id :: Shape.idsAll kids) (id :: Shape.idsAll kids) := by
  refine ⟨⟨?_, hs.2.congr fun x hx => ?_⟩, rfl, fun x hold _ => ?_, fun x hx => Or.inl hx,
    fun x hx => Or.inl hx⟩
  · rw [node?_update, if_pos rfl, hs.1, Option.map_some, hf]
  · rw [node?_update, if_neg]
    rintro rfl
    exact hd.not_mem_idsAll hs hx
  · rw [node?_update, if_neg]
    rintro rfl
    exact hold (List.mem_cons_self ..)

theorem Sound.setNote_in (hd : d.Sound) (hs : (⟨id, kind, notes, kids⟩ : Shape).In d p)
    (key value : String) : ∃ d', d.setNote id key value = .ok d' ∧ d'.Sound ∧
      (⟨id, kind, Entries.put key value notes, kids⟩ : Shape).In d' p ∧
      d.Replaces d' (id :: Shape.idsAll kids) (id :: Shape.idsAll kids) := by
  have hok : d.setNote id key value =
      .ok (d.update id fun n => { n with notes := Entries.put key value n.notes }) := by
    rw [Document.setNote, if_pos (contains_iff.2 ⟨_, hs.1⟩)]
  obtain ⟨hin, hrep⟩ := hd.in_update hs kind (Entries.put key value notes)
    (f := fun n => { n with notes := Entries.put key value n.notes }) fun _ _ => rfl
  exact ⟨_, hok, hd.setNote hok, hin, hrep⟩

theorem Sound.setAttribute_in (hd : d.Sound) {tag : String} {attributes : List (String × String)}
    (hs : (⟨id, .element tag attributes, notes, kids⟩ : Shape).In d p) {name : String}
    (hname : Markup.isAttributeName name = true) (value : String) :
    ∃ d', d.setAttribute id name value = .ok d' ∧ d'.Sound ∧
      (⟨id, .element tag (Entries.put name value attributes), notes, kids⟩ : Shape).In d' p ∧
      d.Replaces d' (id :: Shape.idsAll kids) (id :: Shape.idsAll kids) := by
  have hok : d.setAttribute id name value = _ := setAttribute_of_element hname hs.1 rfl
  obtain ⟨hin, hrep⟩ := hd.in_update hs (.element tag (Entries.put name value attributes)) notes
    (f := fun n => { n with kind := .element tag (Entries.put name value attributes) })
    fun _ _ => rfl
  exact ⟨_, hok, hd.setAttribute hok, hin, hrep⟩

/-- A new node is a shape of its own. -/
theorem Sound.allocate_in (hd : d.Sound) (h : d.allocate kind = .ok (id, d')) :
    (⟨id, kind, [], []⟩ : Shape).In d' none ∧ d.Replaces d' [] [id] := by
  obtain ⟨hid, hnode⟩ := node?_allocate hd.accounted h
  refine ⟨⟨?_, trivial⟩, allocate_tree h, fun x _ hx => ?_, fun x hx => ?_, fun x hx => by cases hx⟩
  · rw [hnode, if_pos rfl]
    rfl
  · rw [hnode, if_neg fun hxid => hx (List.mem_singleton.2 hxid)]
  · rw [List.mem_singleton.1 hx]
    exact Or.inr hid

theorem Sound.createElement_in (hd : d.Sound) {tag : String} (htag : Markup.isTagName tag = true) :
    (¬ d.HasRoom ∧ d.createElement tag = .error .outOfSlots) ∨
    ∃ id d', d.createElement tag = .ok (id, d') ∧ d'.Sound ∧
      (⟨id, .element tag [], [], []⟩ : Shape).In d' none ∧ d.Replaces d' [] [id] := by
  have hmake : d.createElement tag = d.allocate (.element tag []) := by
    rw [Document.createElement, if_pos htag]
  cases hok : d.allocate (.element tag []) with
  | error e =>
    obtain ⟨rfl, hfull⟩ := (allocate_error_iff hd.accounted _ e).1 hok
    exact Or.inl ⟨hfull, hmake.trans hok⟩
  | ok r =>
    obtain ⟨id, d'⟩ := r
    obtain ⟨hin, hrep⟩ := hd.allocate_in hok
    exact Or.inr ⟨id, d', hmake.trans hok, hd.createElement (hmake.trans hok), hin, hrep⟩

theorem text?_eq_none_of_kind {n : Node} (h : d.node? id = some n) (hkind : ∀ s, n.kind ≠ .text s) :
    d.text? id = none := by
  simp only [text?, h, Option.bind_some]

section

variable {place : List NodeId → List NodeId}

theorem node?_attach_of_ne {c x : NodeId} (hx : x ≠ id) (hxc : x ≠ c) :
    (d.attach id c place).node? x = d.node? x := by
  rw [node?_attach]
  simp [hx, hxc]

/-- A detached shape hangs from the node that it is attached to. -/
theorem Sound.in_attach (hd : d.Sound) (hs : s.In d none) (hdisj : id ∉ s.ids) :
    s.In (d.attach id s.id place) (some id) := by
  have hsid : s.id ≠ id := fun h => hdisj (h ▸ s.id_mem_ids)
  have hnodup := hd.nodup_ids hs
  obtain ⟨sid, skind, snotes, skids⟩ := s
  obtain ⟨hsnot, -⟩ := List.nodup_cons.1 hnodup
  refine ⟨?_, hs.2.congr fun x hx => node?_attach_of_ne ?_ ?_⟩
  · rw [node?_attach, hs.1]
    simp only [Shape.id_mk] at hsid
    simp [hsid]
  · rintro rfl
    exact hdisj (List.mem_cons_of_mem _ hx)
  · rintro rfl
    exact hsnot hx

/-- Where a detached shape is attached, all that hangs somewhere stays as it is. -/
theorem Sound.in_attach_of_parent {q : NodeId} (hd : d.Sound) (ha : a.In d (some q))
    (hid : id ∉ a.ids) (hs : s.In d none) : a.In (d.attach id s.id place) (some q) := by
  have hnone : d.parent? s.id = none := hs.parent?
  refine ha.congr fun x hx => node?_attach_of_ne (fun h => hid (h ▸ hx)) ?_
  rintro rfl
  have heq := (above_iff_of_parent?_eq_none hnone).1 ((hd.mem_ids_iff ha).1 hx)
  have hparent := ha.parent?
  rw [heq, hnone] at hparent
  cases hparent

/-- A detached shape put among the children of a node. -/
theorem Sound.move_in (hd : d.Sound) (hq : (⟨id, kind, notes, kids⟩ : Shape).In d p)
    (hkind : ∀ content, kind ≠ .text content) (hs : s.In d none) (hroot : s.id ≠ .root)
    (hdisj : id ∉ s.ids) (hplace : ∀ l, (place l).Perm (s.id :: l))
    (hkids : place (kids.map Shape.id) = kids'.map Shape.id) (hperm : kids'.Perm (s :: kids)) :
    d.checkPlacement id s.id = .ok () ∧ ((d.detach s.id).attach id s.id place).Sound ∧
      (⟨id, kind, notes, kids'⟩ : Shape).In ((d.detach s.id).attach id s.id place) p ∧
      d.Replaces ((d.detach s.id).attach id s.id place) (s.ids ++ id :: Shape.idsAll kids)
        (id :: Shape.idsAll kids') := by
  have hline : ¬ d.Above s.id id := fun h => hdisj ((hd.mem_ids_iff hs).2 h)
  have hcheck : d.checkPlacement id s.id = .ok () :=
    hd.checkPlacement_eq_ok_iff.2 ⟨contains_iff.2 ⟨_, hq.1⟩, hs.contains s.id_mem_ids, hroot,
      text?_eq_none_of_kind hq.1 hkind, hline⟩
  have hsound := hd.move hcheck hplace
  rw [detach_of_parent?_eq_none hs.parent?] at hsound ⊢
  have hids : ∀ x, x ∈ Shape.idsAll kids' ↔ x ∈ s.ids ∨ x ∈ Shape.idsAll kids := fun x =>
    ((Shape.idsAll_perm hperm).mem_iff).trans List.mem_append
  refine ⟨hcheck, hsound, ⟨?_, Shape.inAll_iff.2 fun t ht => ?_⟩, rfl, fun x hx _ => ?_,
    fun x hx => Or.inl ?_, fun x hx => Or.inl ?_⟩
  · have hsid : id ≠ s.id := fun h => hdisj (h ▸ s.id_mem_ids)
    rw [node?_attach, hq.1]
    simp [hsid, hkids]
  · rcases List.mem_cons.1 (hperm.subset ht) with rfl | ht
    · exact hd.in_attach hs hdisj
    · exact hd.in_attach_of_parent (Shape.inAll_iff.1 hq.2 t ht)
        (fun hx => hd.not_mem_idsAll hq (Shape.mem_idsAll_iff.2 ⟨t, ht, hx⟩)) hs
  · rw [List.mem_append, List.mem_cons, not_or, not_or] at hx
    exact node?_attach_of_ne hx.2.1 fun h => hx.1 (h ▸ s.id_mem_ids)
  · rw [List.mem_cons, hids] at hx
    rw [List.mem_append, List.mem_cons]
    exact hx.elim (fun h => Or.inr (Or.inl h)) fun h => h.imp_right Or.inr
  · rw [List.mem_append, List.mem_cons] at hx
    rw [List.mem_cons, hids]
    exact hx.elim (fun h => Or.inr (Or.inl h)) fun h => h.imp_right Or.inr

end

theorem Sound.append_in (hd : d.Sound) (hq : (⟨id, kind, notes, kids⟩ : Shape).In d p)
    (hkind : ∀ content, kind ≠ .text content) (hs : s.In d none) (hroot : s.id ≠ .root)
    (hdisj : id ∉ s.ids) : ∃ d', d.append id s.id = .ok d' ∧ d'.Sound ∧
      (⟨id, kind, notes, kids ++ [s]⟩ : Shape).In d' p ∧
      d.Replaces d' (s.ids ++ id :: Shape.idsAll kids) (id :: Shape.idsAll (kids ++ [s])) := by
  obtain ⟨hcheck, hsound, hin, hrep⟩ := hd.move_in hq hkind hs hroot hdisj
    (fun l => List.perm_append_singleton s.id l) (by rw [List.map_append]; rfl)
    (List.perm_append_singleton s kids)
  refine ⟨_, ?_, hsound, hin, hrep⟩
  simp only [Document.append, hcheck, bind, Except.bind, pure, Except.pure]

theorem Sound.insertBefore_in (hd : d.Sound)
    (hq : (⟨id, kind, notes, before ++ a :: after⟩ : Shape).In d p)
    (hkind : ∀ content, kind ≠ .text content) (hs : s.In d none) (hroot : s.id ≠ .root)
    (hdisj : id ∉ s.ids) : ∃ d', d.insertBefore id s.id a.id = .ok d' ∧ d'.Sound ∧
      (⟨id, kind, notes, before ++ s :: a :: after⟩ : Shape).In d' p ∧
      d.Replaces d' (s.ids ++ id :: Shape.idsAll (before ++ a :: after))
        (id :: Shape.idsAll (before ++ s :: a :: after)) := by
  have hparent : d.parent? a.id = some id :=
    (Shape.inAll_iff.1 hq.2 a (by simp)).parent?
  have hne : s.id ≠ a.id := by
    intro h
    rw [← h, hs.parent?] at hparent
    cases hparent
  have hplace : placeBefore s.id a.id ((before ++ a :: after).map Shape.id) =
      (before ++ s :: a :: after).map Shape.id := by
    have hnodup := hd.nodup hq.1
    rw [List.map_append, List.map_cons, List.nodup_append'] at hnodup
    rw [List.map_append, List.map_cons,
      placeBefore_append fun h => hnodup.2.2 h (List.mem_cons_self ..)]
    simp
  obtain ⟨hcheck, hsound, hin, hrep⟩ := hd.move_in hq hkind hs hroot hdisj
    (perm_placeBefore s.id a.id) hplace List.perm_middle
  refine ⟨_, ?_, hsound, hin, hrep⟩
  rw [Document.insertBefore, if_neg hne, if_neg (not_not_intro hparent)]
  simp only [hcheck, bind, Except.bind, pure, Except.pure]

end LiveMarkup.Document
