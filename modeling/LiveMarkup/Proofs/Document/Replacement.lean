import LiveMarkup.Proofs.Document.Ages

/-! All that replacing the direct text of a node does. The other children stay as they are, the new
text takes the place of the first old one, and the old ones are gone for good: the new text has an
address of its own even where it takes a slot of theirs. -/
namespace LiveMarkup

/-- Two documents that hold one shape agree on its nodes. -/
theorem Shape.In.node?_eq {d d' : Document} {p : Option NodeId} {s : Shape} {x : NodeId}
    (hs : s.In d p) (hs' : s.In d' p) (hx : x ∈ s.ids) : d'.node? x = d.node? x := by
  induction s generalizing p with
  | mk id kind notes children ih =>
    rcases List.mem_cons.1 hx with rfl | hx
    · exact hs'.1.trans hs.1.symm
    · obtain ⟨c, hc, hx⟩ := mem_idsAll_iff.1 hx
      exact ih c hc (inAll_iff.1 hs.2 c hc) (inAll_iff.1 hs'.2 c hc) hx

namespace Document

variable {d d₁ d' : Document} {id x : NodeId} {p : Option NodeId} {kind : NodeKind}
  {notes : List (String × String)} {kids kids' new : List Shape} {content : String}

/-- What hangs below a node is one of its texts, or it is below another child. -/
theorem Sound.mem_idsAll_cases (hd : d.Sound) (hs : (⟨id, kind, notes, kids⟩ : Shape).In d p)
    (hx : x ∈ Shape.idsAll kids) :
    x ∈ d.childTexts id ∨ ∃ s ∈ kids.filter (!·.isText), x ∈ s.ids := by
  obtain ⟨s, hmem, hxs⟩ := Shape.mem_idsAll_iff.1 hx
  cases htext : s.isText with
  | false => exact Or.inr ⟨s, List.mem_filter.2 ⟨hmem, by rw [htext]; rfl⟩, hxs⟩
  | true =>
    refine Or.inl ?_
    rw [childTexts_eq hs]
    obtain ⟨t, tkind, tnotes, tkids⟩ := s
    have hin := Shape.inAll_iff.1 hs.2 _ hmem
    cases tkind with
    | root | element _ _ => cases htext
    | text content =>
      obtain rfl : tkids = [] := List.map_eq_nil_iff.1 (hd.valid hin.1)
      obtain rfl : x = t := List.mem_singleton.1 hxs
      exact List.mem_map.2 ⟨_, List.mem_filter.2 ⟨hmem, rfl⟩, rfl⟩

/-- Nothing comes back to the address of a node whose slot has been released once. -/
theorem Fades.contains_eq_false (h : d.Fades d₁) (hlive : d.contains x = true)
    (hdead : d₁.contains x = false) (h' : d₁.Stays d') : d'.contains x = false := by
  obtain ⟨n, hn⟩ := contains_iff.1 hlive
  obtain ⟨a, ha, hgeneration, hnode⟩ := node?_eq_some_iff.1 hn
  obtain ⟨b, hb, hcases⟩ := h x.slot a ha
  obtain ⟨c, hc, hgeneration', -⟩ := h' x.slot b hb
  rw [not_contains_iff] at hdead ⊢
  rcases hcases with ⟨hsame, hstill⟩ | ⟨hnext, -⟩
  · obtain ⟨m, hm⟩ := Option.isSome_iff_exists.1 (hstill.trans (by rw [hnode]; rfl))
    cases hdead.symm.trans (node?_eq_some_iff.2 ⟨b, hb, hsame.trans hgeneration, hm⟩)
  · rw [Option.eq_none_iff_forall_ne_some]
    intro m hm
    obtain ⟨c', hc', hgeneration'', -⟩ := node?_eq_some_iff.1 hm
    cases hc.symm.trans hc'
    rw [hgeneration', hnext, hgeneration] at hgeneration''
    simp at hgeneration''

/-- The old texts are released before the new one is made. -/
theorem Sound.setDirectText_gone (hd : d.Sound) (hs : (⟨id, kind, notes, kids⟩ : Shape).In d p)
    (h : Document.setDirectText id content d = .ok () d') :
    ∀ x ∈ d.childTexts id, d'.contains x = false := by
  have hin : Shape.InAll d (some id) (kids.filter Shape.isText) :=
    Shape.inAll_iff.2 fun s hmem => Shape.inAll_iff.1 hs.2 s (List.mem_filter.1 hmem).1
  have hnodup : ((kids.filter Shape.isText).map Shape.id).Nodup :=
    (hd.nodup hs.1).sublist (List.filter_sublist.map _)
  obtain ⟨d₁, hok, -, -, -, hnode⟩ := hd.forM_remove hin hnodup
  rw [← childTexts_eq hs] at hok
  have hstays : d₁.Stays d' := by
    rw [setDirectText_of_live (contains_iff.2 ⟨_, hs.1⟩), bind_eq_of_ok hok] at h
    split at h
    · exact ((moves_stays_insertText d₁ id _ content).of_run h).1
    · cases h
      exact updatesKeep_stays.refl _
  intro x hx
  obtain ⟨s, hmem, rfl⟩ := List.mem_map.1 (childTexts_eq hs ▸ hx)
  refine ((moves_fades_forM_remove d _).of_run hok).1.contains_eq_false ?_ ?_ hstays
  · exact (Shape.inAll_iff.1 hin s hmem).contains s.id_mem_ids
  · rw [not_contains_iff, hnode, if_pos (Shape.mem_idsAll_iff.2 ⟨s, hmem, s.id_mem_ids⟩)]

/-- The direct text of a node has been replaced, and nothing else has changed. -/
structure TextReplaced (d d' : Document) (id : NodeId) (content : String) : Prop where
  others : (d'.children id).filter (fun c => (d'.text? c).isNone) =
    (d.children id).filter fun c => (d.text? c).isNone
  /-- The new text stands where the first old one stood, or in front where there was none. -/
  text : if content = "" then d'.childTexts id = [] else ∃ t, d'.childTexts id = [t] ∧
    d.contains t = false ∧ d'.node? t = some ⟨.text content, some id, [], []⟩ ∧
    (d'.children id)[((d.children id).findIdx? fun c => (d.text? c).isSome).getD 0]? = some t
  directText : d'.directText id = Text.trim content
  gone : ∀ x ∈ d.childTexts id, d'.contains x = false
  self : ∃ n, d.node? id = some n ∧ d'.node? id = some { n with children := d'.children id }
  other : ∀ x ≠ id, x ∉ d.childTexts id → x ∉ d'.childTexts id → d'.node? x = d.node? x

theorem filter_not_isText_eq (hs : (⟨id, kind, notes, kids⟩ : Shape).In d p) :
    (d.children id).filter (fun c => (d.text? c).isNone) =
      (kids.filter (!·.isText)).map Shape.id := by
  rw [children_of_node? hs.1, List.filter_map]
  congr 1
  refine List.filter_congr fun c hc => ?_
  rw [← (Shape.inAll_iff.1 hs.2 c hc).isSome_text?, Function.comp_apply]
  cases d.text? c.id <;> rfl

/-- The place of the new text among the children that are left. -/
theorem getElem?_replaceWhere (hs : (⟨id, kind, notes, kids⟩ : Shape).In d p) (s : Shape) :
    (replaceWhere Shape.isText [s] kids)[((d.children id).findIdx? fun c =>
      (d.text? c).isSome).getD 0]? = some s := by
  have htext : ∀ c ∈ kids, (d.text? c.id).isSome = c.isText := fun c hc =>
    (Shape.inAll_iff.1 hs.2 c hc).isSome_text?
  rw [children_of_node? hs.1, List.findIdx?_map]
  rcases none_or_first Shape.isText kids with hnone | ⟨before, a, rest, rfl, hbefore, ha⟩
  · have hplace : kids.findIdx? ((fun c => (d.text? c).isSome) ∘ Shape.id) = none :=
      List.findIdx?_eq_none_iff.2 fun c hc => (htext c hc).trans (hnone c hc)
    rw [hplace, replaceWhere_of_none hnone]
    rfl
  · have hplace : (before ++ a :: rest).findIdx? ((fun c => (d.text? c).isSome) ∘ Shape.id) =
        some before.length := by
      have hnone : before.findIdx? ((fun c => (d.text? c).isSome) ∘ Shape.id) = none :=
        List.findIdx?_eq_none_iff.2 fun c hc =>
          (htext c (List.mem_append_left _ hc)).trans (hbefore c hc)
      rw [List.findIdx?_append, hnone, List.findIdx?_cons, Function.comp_apply,
        htext a (by simp), ha]
      simp
    rw [hplace, replaceWhere_append_cons hbefore ha]
    simp

/-- Below a child that stays, nothing has changed. -/
theorem node?_eq_below (hs : (⟨id, kind, notes, kids⟩ : Shape).In d p)
    (hs' : (⟨id, kind, notes, kids'⟩ : Shape).In d' p)
    (hothers : kids'.filter (!·.isText) = kids.filter (!·.isText))
    (hbelow : ∃ s ∈ kids.filter (!·.isText), x ∈ s.ids) : d'.node? x = d.node? x := by
  obtain ⟨s, hmem, hxs⟩ := hbelow
  have hmem' := hothers.symm ▸ hmem
  exact (Shape.inAll_iff.1 hs.2 s (List.mem_filter.1 hmem).1).node?_eq
    (Shape.inAll_iff.1 hs'.2 s (List.mem_filter.1 hmem').1) hxs

/-- Where the other children stay, nothing but texts has changed below a node. -/
theorem Sound.node?_of_not_text (hd : d.Sound) (hd' : d'.Sound)
    (hs : (⟨id, kind, notes, kids⟩ : Shape).In d p)
    (hs' : (⟨id, kind, notes, kids'⟩ : Shape).In d' p)
    (hothers : kids'.filter (!·.isText) = kids.filter (!·.isText))
    (hrep : d.Replaces d' (id :: Shape.idsAll kids) (id :: Shape.idsAll kids')) (hid : x ≠ id)
    (hold : x ∉ d.childTexts id) (hnew : x ∉ d'.childTexts id) : d'.node? x = d.node? x := by
  by_cases hbelow : ∃ s ∈ kids.filter (!·.isText), x ∈ s.ids
  · exact node?_eq_below hs hs' hothers hbelow
  · refine hrep.same x (fun h => ?_) fun h => ?_
    · have hmem := (List.mem_cons.1 h).resolve_left hid
      exact hbelow ((hd.mem_idsAll_cases hs hmem).resolve_left hold)
    · have hmem := (List.mem_cons.1 h).resolve_left hid
      exact hbelow (hothers ▸ (hd'.mem_idsAll_cases hs' hmem).resolve_left hnew)

/-- A text with an address of its own: had there been a node, it would be one of the old texts. -/
theorem Sound.node?_new_eq_none {t : NodeId} {text : String} (hd : d.Sound)
    (hs : (⟨id, kind, notes, kids⟩ : Shape).In d p)
    (hs' : (⟨id, kind, notes, kids'⟩ : Shape).In d' p)
    (hothers : kids'.filter (!·.isText) = kids.filter (!·.isText))
    (hrep : d.Replaces d' (id :: Shape.idsAll kids) (id :: Shape.idsAll kids'))
    (ht : d'.node? t = some ⟨.text text, some id, [], []⟩) (hid : t ≠ id)
    (hold : t ∉ d.childTexts id) : d.node? t = none := by
  by_contra hlive
  obtain ⟨n, hn⟩ := Option.ne_none_iff_exists'.1 hlive
  have hsame : d'.node? t = d.node? t := by
    by_cases hmem : t ∈ id :: Shape.idsAll kids
    · have hbelow := (List.mem_cons.1 hmem).resolve_left hid
      exact node?_eq_below hs hs' hothers ((hd.mem_idsAll_cases hs hbelow).resolve_left hold)
    · rw [hrep.node?_eq hn hmem, hn]
  rw [ht] at hsame
  refine hold (List.mem_filter.2 ⟨hd.mem_children_iff.2 (parent?_of_node? hsame.symm), ?_⟩)
  rw [text?, ← hsame]
  rfl

/-- On any live node but a text, the call succeeds if a slot is free or an old text makes way, and
else changes nothing; then the new text has replaced the old ones. -/
theorem Reachable.replaces_direct_text (hd : d.Reachable) (hlive : d.contains id = true)
    (htext : d.text? id = none) (content : String) :
    (content ≠ "" ∧ ¬ d.HasTextRoom id ∧
      setDirectText id content d = .error .outOfSlots d) ∨
    ∃ d', setDirectText id content d = .ok () d' ∧ TextReplaced d d' id content := by
  obtain ⟨⟨id, kind, notes, kids⟩, rfl, hs⟩ := hd.sound.exists_shape hlive
  rw [Shape.id_mk] at hs htext
  rw [Shape.id_mk]
  have hkind : ∀ s, kind ≠ .text s := by
    rintro s rfl
    cases htext.symm.trans hs.text?
  obtain ⟨hroom, hcontent, herror⟩ | ⟨d', new, hok, hd', hnew, -, hs', hrep⟩ :=
    hd.sound.setDirectText hs hkind content
  · exact Or.inl ⟨hcontent, hroom, herror⟩
  have hgone := hd.sound.setDirectText_gone hs hok
  have hothers := filter_replaceWhere hnew.isText kids
  have htexts : d'.childTexts id = new.map Shape.id := by
    rw [childTexts_eq hs', filter_picked_replaceWhere hnew.isText]
  refine Or.inr ⟨d', hok, ?_, ?_, ?_, hgone, ⟨_, hs.1, ?_⟩, fun x =>
    hd.sound.node?_of_not_text hd' hs hs' hothers hrep⟩
  · rw [filter_not_isText_eq hs', filter_not_isText_eq hs, hothers]
  · obtain ⟨rfl, rfl⟩ | ⟨hcontent, t, rfl⟩ := hnew
    · rw [if_pos rfl, htexts]
      rfl
    rw [if_neg hcontent]
    have hrow := getElem?_replaceWhere hs ⟨t, .text content, [], []⟩
    have ht := (Shape.inAll_iff.1 hs'.2 _ (List.mem_of_getElem? hrow)).1
    refine ⟨t, htexts, ?_, ht, ?_⟩
    · refine not_contains_iff.2 (hd.sound.node?_new_eq_none hs hs' hothers hrep ht ?_ fun h => ?_)
      · rintro rfl
        exact hkind content (congrArg Node.kind (Option.some.inj (hs'.1.symm.trans ht)))
      · cases (not_contains_iff.1 (hgone t h)).symm.trans ht
    · rw [children_of_node? hs'.1, List.getElem?_map, hrow]
      rfl
  · rw [directText_of_shape hs', Shape.filterMap_content?_replaceWhere hnew.isText,
      hnew.filterMap_content?]
  · rw [children_of_node? hs'.1]
    exact hs'.1

/-- Two texts of an element make way for one, between the same two elements as the first of them. -/
theorem replaces_direct_text_between :
    let d := Operation.performAll ⟨0⟩ [.createElement "p", .append .root ⟨1, 0⟩,
      .createElement "a", .append ⟨1, 0⟩ ⟨2, 0⟩, .createText "x", .append ⟨1, 0⟩ ⟨3, 0⟩,
      .createElement "b", .append ⟨1, 0⟩ ⟨4, 0⟩, .createText "y", .append ⟨1, 0⟩ ⟨5, 0⟩]
    d.Reachable ∧ d.contains ⟨1, 0⟩ = true ∧ d.text? ⟨1, 0⟩ = none ∧
      ∃ d', setDirectText ⟨1, 0⟩ " z" d = .ok () d' ∧ TextReplaced d d' ⟨1, 0⟩ " z" ∧
        d'.directText ⟨1, 0⟩ = "z" ∧ d'.children ⟨1, 0⟩ = [⟨2, 0⟩, ⟨5, 1⟩, ⟨4, 0⟩] := by
  intro d
  have hd : d.Reachable := .of_derives (.empty ⟨0⟩) ⟨_, rfl⟩
  have hlive : d.contains ⟨1, 0⟩ = true := by decide
  have htext : d.text? ⟨1, 0⟩ = none := by decide
  have hroom : d.HasTextRoom ⟨1, 0⟩ := Or.inr (by decide)
  have hrow : (match setDirectText ⟨1, 0⟩ " z" d with
      | .ok _ d' => d'.children ⟨1, 0⟩
      | .error _ _ => []) = [⟨2, 0⟩, ⟨5, 1⟩, ⟨4, 0⟩] := by
    decide +kernel
  obtain ⟨-, hfull, -⟩ | ⟨d', hok, hreplaced⟩ := hd.replaces_direct_text hlive htext " z"
  · exact absurd hroom hfull
  · rw [hok] at hrow
    refine ⟨hd, hlive, htext, d', hok, hreplaced, ?_, hrow⟩
    rw [hreplaced.directText]
    decide +kernel

end Document
end LiveMarkup
