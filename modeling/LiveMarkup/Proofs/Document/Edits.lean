import LiveMarkup.Proofs.Document.Removal

/-! Each edit of a sound document: when it succeeds, what it leaves at every address, and that the
outcome is sound again. -/
namespace LiveMarkup

/-- Work that succeeds succeeds part by part. -/
theorem exists_of_bind_eq_ok {ε α β : Type} {work : Except ε α} {next : α → Except ε β} {b : β}
    (h : work >>= next = .ok b) : ∃ a, work = .ok a ∧ next a = .ok b := by
  cases work with
  | error e => cases h
  | ok a => exact ⟨a, rfl, h⟩

theorem Edit.apply_eq_ok {d d' : Document} {f : Document → Except TreeError Document}
    (h : Edit.apply f d = .ok () d') : f d = .ok d' := by
  rw [Edit.apply] at h
  split at h
  · cases h
    assumption
  · cases h

namespace Document

variable {d d' : Document} {id p c x : NodeId} {n m : Node}

theorem Sound.createElement (hd : d.Sound) {tag : String}
    (h : d.createElement tag = .ok (id, d')) : d'.Sound := by
  rw [Document.createElement] at h
  split at h
  · exact hd.allocate h ⟨‹_›, List.nodup_nil, fun _ hmem => by cases hmem⟩
  · cases h

theorem Sound.createText (hd : d.Sound) {content : String}
    (h : d.createText content = .ok (id, d')) : d'.Sound :=
  hd.allocate h rfl

theorem setAttribute_of_element {name value tag : String} {attributes : List (String × String)}
    (hname : Markup.isAttributeName name = true) (h : d.node? id = some n)
    (hkind : n.kind = .element tag attributes) : d.setAttribute id name value =
      .ok (d.update id fun n =>
        { n with kind := .element tag (Entries.put name value attributes) }) := by
  obtain ⟨kind, parent, children, notes⟩ := n
  obtain rfl : kind = _ := hkind
  simp [setAttribute, hname, h]

/-- An element may get any distinct attributes with valid names. -/
theorem Sound.update_attributes (hd : d.Sound) {tag : String}
    {attributes others : List (String × String)} (hid : d.node? id = some n)
    (hkind : n.kind = .element tag attributes) (hnodup : (Entries.keys others).Nodup)
    (hnames : ∀ name ∈ Entries.keys others, Markup.isAttributeName name = true) :
    (d.update id fun n => { n with kind := .element tag others }).Sound := by
  refine hd.update id (fun _ => rfl) (fun _ => rfl) (Or.inl ?_) fun m hm hvalid => ?_
  · rintro rfl
    obtain ⟨k, hk, hroot, -⟩ := hd.root
    cases hid.symm.trans hk
    cases hkind.symm.trans hroot
  · cases hid.symm.trans hm
    rw [Node.Valid, hkind] at hvalid
    exact ⟨hvalid.1, hnodup, hnames⟩

theorem Sound.setAttribute (hd : d.Sound) {name value : String}
    (h : d.setAttribute id name value = .ok d') : d'.Sound := by
  rw [Document.setAttribute] at h
  split at h
  · cases h
  · next hname =>
    split at h
    · cases h
    · next tag attributes parent children notes hid =>
      cases h
      obtain ⟨-, hnodup, hnames⟩ := hd.valid hid
      refine hd.update_attributes hid rfl ?_ fun k hk => ?_
      · rw [Entries.keys_put]
        split
        · exact hnodup
        · next hnew =>
          exact List.nodup_append'.2 ⟨hnodup, List.nodup_singleton _, by simpa using hnew⟩
      · rw [Entries.keys_put] at hk
        split at hk
        · exact hnames k hk
        · rcases List.mem_append.1 hk with hk | hk
          · exact hnames k hk
          · obtain rfl := List.mem_singleton.1 hk
            simpa using hname
    · cases h

theorem Sound.removeAttribute (hd : d.Sound) {name : String}
    (h : d.removeAttribute id name = .ok d') : d'.Sound := by
  rw [Document.removeAttribute] at h
  split at h
  · cases h
  · next tag attributes parent children notes hid =>
    cases h
    obtain ⟨-, hnodup, hnames⟩ := hd.valid hid
    have hsub : (Entries.keys (Entries.erase name attributes)).Sublist
        (Entries.keys attributes) := List.filter_sublist.map _
    exact hd.update_attributes hid rfl (hnodup.sublist hsub) fun k hk => hnames k (hsub.subset hk)
  · cases h
    exact hd

theorem Sound.setNote (hd : d.Sound) {key value : String}
    (h : d.setNote id key value = .ok d') : d'.Sound := by
  rw [Document.setNote] at h
  split at h
  · cases h
    exact hd.update id (fun _ => rfl) (fun _ => rfl) (Or.inr fun _ => rfl) fun m _ hvalid => hvalid
  · cases h

theorem setAttribute_eq_ok {name value : String} (h : d.setAttribute id name value = .ok d') :
    Markup.isAttributeName name = true ∧ ∃ tag attributes n, d.node? id = some n ∧
      n.kind = .element tag attributes ∧
      d'.node? id = some { n with kind := .element tag (Entries.put name value attributes) } ∧
      d'.tree = d.tree ∧ ∀ x, x ≠ id → d'.node? x = d.node? x := by
  rw [Document.setAttribute] at h
  split at h
  · cases h
  · next hname =>
    split at h
    · cases h
    · next tag attributes parent children notes hid =>
      cases h
      refine ⟨by simpa using hname, tag, attributes, _, hid, rfl, ?_, rfl, fun x hx => ?_⟩
      · rw [node?_update, if_pos rfl, hid]
        rfl
      · rw [node?_update, if_neg hx]
    · cases h

theorem hasRoom_setAttribute {name value : String} (h : d.setAttribute id name value = .ok d') :
    d'.HasRoom ↔ d.HasRoom := by
  rw [Document.setAttribute] at h
  split at h
  · cases h
  · split at h
    · cases h
    · cases h
      exact hasRoom_update ..
    · cases h

theorem tagName?_setAttribute {name value : String} (h : d.setAttribute id name value = .ok d')
    (x : NodeId) : d'.tagName? x = d.tagName? x := by
  obtain ⟨-, tag, attributes, n, hn, hkind, hn', -, hsame⟩ := setAttribute_eq_ok h
  by_cases hx : x = id
  · rw [hx, tagName?, tagName?, hn', hn, Option.bind_some, Option.bind_some, hkind]
  · rw [tagName?, tagName?, hsame x hx]

theorem parent?_setAttribute {name value : String} (h : d.setAttribute id name value = .ok d')
    (x : NodeId) : d'.parent? x = d.parent? x := by
  obtain ⟨-, tag, attributes, n, hn, -, hn', -, hsame⟩ := setAttribute_eq_ok h
  by_cases hx : x = id
  · rw [hx, parent?_of_node? hn', parent?_of_node? hn]
  · rw [parent?, parent?, hsame x hx]

theorem attribute?_setAttribute {name value : String}
    (h : d.setAttribute id name value = .ok d') (k : String) :
    d'.attribute? id k = if name = k then some value else d.attribute? id k := by
  obtain ⟨-, tag, attributes, ⟨kind, parent, children, notes⟩, hn, rfl, hn', -⟩ :=
    setAttribute_eq_ok h
  rw [attribute?, attribute?, Document.attributes, Document.attributes, hn', hn]
  exact Entries.get?_put name value attributes k

theorem note?_setAttribute {name value : String} (h : d.setAttribute id name value = .ok d')
    (key : String) : d'.note? id key = d.note? id key := by
  obtain ⟨-, tag, attributes, n, hn, -, hn', -⟩ := setAttribute_eq_ok h
  rw [note?_of_node? hn', note?_of_node? hn]

theorem setNote_eq_ok {key value : String} (h : d.setNote id key value = .ok d') :
    ∃ n, d.node? id = some n ∧
      d'.node? id = some { n with notes := Entries.put key value n.notes } ∧
      d'.tree = d.tree ∧ ∀ x, x ≠ id → d'.node? x = d.node? x := by
  rw [Document.setNote] at h
  split at h
  · next hlive =>
    cases h
    obtain ⟨n, hn⟩ := contains_iff.1 hlive
    refine ⟨n, hn, ?_, rfl, fun x hx => ?_⟩
    · rw [node?_update, if_pos rfl, hn]
      rfl
    · rw [node?_update, if_neg hx]
  · cases h

theorem hasRoom_setNote {key value : String} (h : d.setNote id key value = .ok d') :
    d'.HasRoom ↔ d.HasRoom := by
  rw [Document.setNote] at h
  split at h
  · cases h
    exact hasRoom_update ..
  · cases h

theorem tagName?_setNote {key value : String} (h : d.setNote id key value = .ok d') (x : NodeId) :
    d'.tagName? x = d.tagName? x := by
  obtain ⟨n, hn, hn', -, hsame⟩ := setNote_eq_ok h
  by_cases hx : x = id
  · rw [hx, tagName?, tagName?, hn', hn, Option.bind_some, Option.bind_some]
  · rw [tagName?, tagName?, hsame x hx]

theorem note?_setNote {key value : String} (h : d.setNote id key value = .ok d') (k : String) :
    d'.note? id k = if key = k then some value else d.note? id k := by
  obtain ⟨n, hn, hn', -⟩ := setNote_eq_ok h
  rw [note?_of_node? hn', Entries.get?_put, note?_of_node? hn]

/-- A node may become a child of another one: both are there, the child is not the root, the parent
is not a text, and it is not below the child. -/
structure MayHang (d : Document) (p c : NodeId) : Prop where
  parent : d.contains p = true
  child : d.contains c = true
  ne_root : c ≠ .root
  not_text : d.text? p = none
  apart : ¬ d.Above c p

theorem Sound.checkPlacement_eq_ok_iff (hd : d.Sound) :
    d.checkPlacement p c = .ok () ↔ d.MayHang p c := by
  have hparts : d.MayHang p c ↔ d.contains p = true ∧ d.contains c = true ∧ c ≠ .root ∧
      d.text? p = none ∧ ¬ d.Above c p :=
    ⟨fun ⟨hp, hc, hroot, htext, hline⟩ => ⟨hp, hc, hroot, htext, hline⟩,
      fun ⟨hp, hc, hroot, htext, hline⟩ => ⟨hp, hc, hroot, htext, hline⟩⟩
  rw [hparts, checkPlacement]
  by_cases hp : d.contains p = true
  · by_cases hc : d.contains c = true
    · by_cases hroot : c = .root
      · subst hroot
        simp [hp, hc]
      · cases htext : d.text? p with
        | some s => simp [hp, hc, hroot]
        | none =>
          by_cases hline : d.Above c p
          · simp [hp, hc, hroot, hd.isAncestorOrSelf_iff.2 hline, hline]
          · simp [hp, hc, hroot, mt hd.isAncestorOrSelf_iff.1 hline, hline]
    · simp [hp, hc]
  · simp [hp]

/-- Moving a node that may be placed. -/
theorem Sound.move (hd : d.Sound) (h : d.checkPlacement p c = .ok ())
    {place : List NodeId → List NodeId} (hplace : ∀ l, (place l).Perm (c :: l)) :
    ((d.detach c).attach p c place).Sound := by
  obtain ⟨hp, hc, hroot, htext, hline⟩ := hd.checkPlacement_eq_ok_iff.1 h
  obtain ⟨n, hn⟩ := contains_iff.1 hp
  obtain ⟨m, hm⟩ := contains_iff.1 hc
  have hnkind : ∀ s, n.kind ≠ .text s := by
    intro s hs
    simp [text?, hn, hs] at htext
  have hsound := hd.detach c
  cases hq : d.parent? c with
  | none =>
    rw [detach_of_parent?_eq_none hq] at hsound ⊢
    exact hsound.attach hn hnkind hm (by rwa [← parent?_of_node? hm]) hroot hline hplace
  | some q =>
    have hnode := node?_detach hq
    refine hsound.attach (n := _) (m := _) ((hnode p).trans (congrArg (Option.map _) hn)) hnkind
      ((hnode c).trans (congrArg (Option.map _) hm)) (if_pos rfl) hroot (fun h => hline ?_) hplace
    refine Relation.ReflTransGen.mono (fun a b hab => ?_) _ _ h
    obtain ⟨k, hk, hka⟩ := parent?_eq_some_iff.1 hab
    obtain ⟨l, hl, rfl⟩ := Option.map_eq_some_iff.1 ((hnode b).symm.trans hk)
    dsimp only at hka
    split at hka
    · cases hka
    · exact parent?_eq_some_iff.2 ⟨l, hl, hka⟩

theorem Sound.filter_children (hd : d.Sound) (hn : d.node? x = some n)
    (hc : d.parent? c ≠ some x) : n.children.filter (· ≠ c) = n.children := by
  refine List.filter_eq_self.2 fun y hy => decide_eq_true ?_
  rintro rfl
  obtain ⟨m, hm, hparent⟩ := hd.child hn hy
  exact hc ((parent?_of_node? hm).trans hparent)

/-- What taking a node out leaves at every address. -/
theorem Sound.node?_detach (hd : d.Sound) (c x : NodeId) :
    (d.detach c).node? x = (d.node? x).map fun n =>
      { n with
        parent := if x = c then none else n.parent
        children := n.children.filter (· ≠ c) } := by
  cases hn : d.node? x with
  | none =>
    cases hq : d.parent? c with
    | none => rw [detach_of_parent?_eq_none hq, hn]; rfl
    | some q => rw [Document.node?_detach hq, hn]; rfl
  | some n =>
    cases hq : d.parent? c with
    | none =>
      have hparent : (if x = c then none else n.parent) = n.parent := by
        split
        · next hxc => rw [← parent?_of_node? hn, hxc, hq]
        · rfl
      have hchildren := hd.filter_children hn (c := c) (by rw [hq]; nofun)
      rw [detach_of_parent?_eq_none hq, hn, Option.map_some, hparent, hchildren]
    | some q =>
      have hchildren : (if x = q then n.children.filter (· ≠ c) else n.children) =
          n.children.filter (· ≠ c) := by
        split
        · rfl
        · next hxq => exact (hd.filter_children hn (by rw [hq]; simpa using Ne.symm hxq)).symm
      rw [Document.node?_detach hq, hn, Option.map_some, Option.map_some, hchildren]

/-- A placement that succeeds is allowed, and it gives the moved node in its place. -/
theorem eq_of_place_eq_ok {place : List NodeId → List NodeId} (h : (do
      d.checkPlacement p c
      pure ((d.detach c).attach p c place)) = Except.ok d') :
    d.checkPlacement p c = .ok () ∧ (d.detach c).attach p c place = d' := by
  obtain ⟨_, hcheck, hplaced⟩ := exists_of_bind_eq_ok h
  exact ⟨hcheck, Except.ok.inj hplaced⟩

theorem Sound.place_isOk_iff {place : List NodeId → List NodeId} (hd : d.Sound) : (∃ d', (do
      d.checkPlacement p c
      pure ((d.detach c).attach p c place)) = Except.ok d') ↔ d.MayHang p c := by
  rw [← hd.checkPlacement_eq_ok_iff]
  constructor
  · rintro ⟨d', h⟩
    exact (eq_of_place_eq_ok h).1
  · intro h
    rw [h]
    exact ⟨_, rfl⟩

/-- To put a node before another is a placement, unless the two are the same. -/
theorem insertBefore_eq_ok {r : NodeId} (h : d.insertBefore p c r = .ok d') :
    d' = d ∨ (do
      d.checkPlacement p c
      pure ((d.detach c).attach p c (placeBefore c r))) = Except.ok d' := by
  rw [Document.insertBefore] at h
  split at h
  · cases h
    exact Or.inl rfl
  · split at h
    · cases h
    · exact Or.inr h

/-- What a move leaves at every address. -/
theorem Sound.place_eq_ok {place : List NodeId → List NodeId} (hd : d.Sound)
    (hplace : ∀ l, (place l).Perm (c :: l)) (h : (do
      d.checkPlacement p c
      pure ((d.detach c).attach p c place)) = Except.ok d') :
    d'.Sound ∧ d'.tree = d.tree ∧ ∀ x, d'.node? x = (d.node? x).map fun n =>
      { n with
        parent := if x = c then some p else n.parent
        children := if x = p then place (n.children.filter (· ≠ c))
          else n.children.filter (· ≠ c) } := by
  obtain ⟨hcheck, rfl⟩ := eq_of_place_eq_ok h
  refine ⟨hd.move hcheck hplace, by rw [attach_tree, detach_tree], fun x => ?_⟩
  rw [node?_attach, hd.node?_detach, Option.map_map]
  congr 1
  funext n
  grind

theorem Sound.tagName?_place {place : List NodeId → List NodeId} (hd : d.Sound)
    (hplace : ∀ l, (place l).Perm (c :: l)) (h : (do
      d.checkPlacement p c
      pure ((d.detach c).attach p c place)) = Except.ok d') (x : NodeId) :
    d'.tagName? x = d.tagName? x := by
  obtain ⟨-, -, hnode⟩ := hd.place_eq_ok hplace h
  refine tagName?_congr ?_
  rw [hnode, Option.map_map]
  rfl

theorem Sound.append (hd : d.Sound) (h : d.append p c = .ok d') : d'.Sound :=
  (hd.place_eq_ok (fun l => List.perm_append_singleton c l) h).1

theorem perm_placeBefore (c r : NodeId) (l : List NodeId) : (placeBefore c r l).Perm (c :: l) := by
  refine List.perm_middle.trans (List.Perm.cons _ ?_)
  rw [List.takeWhile_append_dropWhile]

theorem placeBefore_append {c r : NodeId} {before : List NodeId} (h : r ∉ before)
    (after : List NodeId) :
    placeBefore c r (before ++ r :: after) = before ++ c :: r :: after := by
  have hbefore : ∀ x ∈ before, decide (x ≠ r) = true := fun x hx =>
    decide_eq_true fun heq => h (heq ▸ hx)
  rw [placeBefore, List.takeWhile_append_of_pos hbefore, List.dropWhile_append_of_pos hbefore]
  simp

theorem Sound.insertBefore {r : NodeId} (hd : d.Sound) (h : d.insertBefore p c r = .ok d') :
    d'.Sound := by
  obtain rfl | h := insertBefore_eq_ok h
  · exact hd
  · exact (hd.place_eq_ok (perm_placeBefore c r) h).1

/-- What a removal leaves at every address: nothing of the node and what is below it. -/
theorem Sound.remove_eq_ok (hd : d.Sound) (h : d.remove id = .ok d') :
    d.contains id = true ∧ d'.Sound ∧ ∀ x, (d.Above id x → d'.node? x = none) ∧
      (¬ d.Above id x → d'.node? x = (d.node? x).map fun n =>
        { n with children := n.children.filter (· ≠ id) }) := by
  have hroot : id ≠ .root := by
    rintro rfl
    simp [Document.remove] at h
  have hlive : d.contains id = true := by
    by_contra hdead
    simp [Document.remove, hroot, hdead] at h
  obtain ⟨s, rfl, hs⟩ := hd.exists_shape hlive
  obtain ⟨d'', hok, hsound, -, hnode⟩ := hd.remove hs hroot
  obtain rfl : d' = d'' := Except.ok.inj (h.symm.trans hok)
  refine ⟨hlive, hsound, fun x => ⟨fun habove => ?_, fun habove => ?_⟩⟩
  · rw [hnode, if_pos ((hd.mem_ids_iff hs).2 habove)]
  · rw [hnode, if_neg fun hx => habove ((hd.mem_ids_iff hs).1 hx)]
    cases hn : d.node? x with
    | none => rfl
    | some n =>
      rw [Option.map_some, Option.map_some]
      split
      · rfl
      · next hparent => rw [hd.filter_children hn (hs.parent? ▸ hparent)]

theorem Sound.remove_ok (hd : d.Sound) (h : d.remove id = .ok d') : d'.Sound :=
  (hd.remove_eq_ok h).2.1

end Document
end LiveMarkup
