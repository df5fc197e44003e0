import LiveMarkup.Proofs.Lasting

/-! Edits that retain what lasts of a document and keep the tags of all elements: making nodes and
placing them, replacing texts, and filling. -/
namespace LiveMarkup

namespace Document

open scoped Classical

variable {s : Settings} {runs : List (Value × Scope)} {d₀ d d' : Document}
  {id p c r x : NodeId}

/-- No element is gone or has got another tag. -/
def KeepsTags (d d' : Document) : Prop :=
  ∀ x tag, d.tagName? x = some tag → d'.tagName? x = some tag

theorem keepsTags_allocate {kind : NodeKind} (hd : d.Sound)
    (hmake : d.allocate kind = .ok (id, d')) : d.KeepsTags d' := by
  obtain ⟨hdead, hnode⟩ := node?_allocate hd.accounted hmake
  intro x tag hx
  rw [tagName?, hnode, if_neg]
  · exact hx
  · rintro rfl
    rw [tagName?, hdead] at hx
    cases hx

theorem keepsTags_of_eq (h : ∀ x, d'.tagName? x = d.tagName? x) : d.KeepsTags d' :=
  fun x _ hx => (h x).trans hx

theorem keepsTags_place {place : List NodeId → List NodeId} (hd : d.Sound)
    (hplace : ∀ l, (place l).Perm (c :: l)) (hmove : (do
      d.checkPlacement p c
      Pure.pure ((d.detach c).attach p c place)) = Except.ok d') : d.KeepsTags d' :=
  keepsTags_of_eq (hd.tagName?_place hplace hmove)

theorem keepsTags_setNote {key value : String} (hset : d.setNote id key value = .ok d') :
    d.KeepsTags d' :=
  keepsTags_of_eq (tagName?_setNote hset)

theorem keepsTags_setAttribute {name value : String}
    (hset : d.setAttribute id name value = .ok d') : d.KeepsTags d' :=
  keepsTags_of_eq (tagName?_setAttribute hset)

/-- All that lasts is retained, and all tags are kept. -/
structure Extends (s : Settings) (runs : List (Value × Scope)) (d₀ d d' : Document) : Prop where
  retains : d₀.Retains s runs d → d₀.Retains s runs d'
  tags : d.KeepsTags d'

instance : Std.Refl (Extends s runs d₀) := ⟨fun _ => ⟨fun h => h, fun _ _ h => h⟩⟩

instance : IsTrans Document (Extends s runs d₀) where
  trans _ _ _ h h' :=
    ⟨fun hd => h'.retains (h.retains hd), fun x tag hx => h'.tags x tag (h.tags x tag hx)⟩

/-- A new element is made. -/
theorem Retains.createElement {tag : String} (h : d₀.Retains s runs d)
    (hmake : d.createElement tag = .ok (id, d')) :
    Extends s runs d₀ d d' ∧ ¬ d₀.Lasts s runs id ∧ d'.tagName? id = some tag := by
  have hd' := h.sound.createElement hmake
  rw [Document.createElement] at hmake
  split at hmake
  · obtain ⟨hdead, hnode⟩ := node?_allocate h.sound.accounted hmake
    refine ⟨⟨fun _ => h.allocate hd' hmake, keepsTags_allocate h.sound hmake⟩,
      h.not_lasts_of_dead hdead, ?_⟩
    rw [tagName?, hnode, if_pos rfl]
    rfl
  · cases hmake

theorem Retains.append (h : d₀.Retains s runs d) (hp : ¬ d₀.Lasts s runs p)
    (hc : ¬ d₀.Lasts s runs c) (hput : d.append p c = .ok d') : Extends s runs d₀ d d' :=
  ⟨fun _ => h.place hc (fun l => ⟨l, [], (List.append_nil l).symm, rfl⟩)
    (fun hlasts => absurd hlasts hp) hput,
    keepsTags_place h.sound (fun l => List.perm_append_singleton c l) hput⟩

/-- What expanding gives is put before a directive; it is no directive and no text. -/
theorem Retains.insertBefore {tag : String} (h : d₀.Retains s runs d) (hc : ¬ d₀.Lasts s runs c)
    (htag : d.tagName? c = some tag) (hdirective : s.directive? tag = none)
    (hput : d.insertBefore p c r = .ok d') : Extends s runs d₀ d d' := by
  have hplace : ∀ l, ∃ a b, l = a ++ b ∧ placeBefore c r l = a ++ c :: b := fun l =>
    ⟨_, _, List.takeWhile_append_dropWhile.symm, rfl⟩
  have hnone : d.directive? s c = none := by
    rw [Document.directive?, htag]
    exact hdirective
  obtain rfl | hput := insertBefore_eq_ok hput
  · exact Std.Refl.refl _
  · refine ⟨fun _ => h.place hc hplace (fun _ => ⟨hnone, fun hsome => ?_⟩) hput,
      keepsTags_place h.sound (perm_placeBefore c r) hput⟩
    rw [text?_eq_none_of_tagName? htag] at hsome
    cases hsome

namespace Retains

/-- Texts that do not last may be taken away. -/
theorem removeTexts (h : d₀.Retains s runs d) (texts : List NodeId)
    (htexts : ∀ t ∈ texts, ¬ d₀.Lasts s runs t ∧ (d.node? t = none ∨ (d.text? t).isSome = true)) :
    Moves (Extends s runs d₀) (texts.forM fun t => Edit.apply (·.remove t)) d fun _ _ => True := by
  induction texts generalizing d with
  | nil => exact .pure trivial
  | cons t rest ih =>
    rw [List.forall_mem_cons] at htexts
    obtain ⟨⟨ht, hkind⟩, hrest⟩ := htexts
    cases hremove : d.remove t with
    | error e =>
      refine .of_error (e := e) (bind_eq_of_error ?_) (Std.Refl.refl d)
      simp only [Edit.apply, hremove]
    | ok d₁ =>
      obtain ⟨hlive, -, hnode⟩ := h.sound.remove_eq_ok hremove
      obtain ⟨content, hcontent⟩ := Option.isSome_iff_exists.1
        (hkind.resolve_left fun hdead => by rw [Document.contains, hdead] at hlive; cases hlive)
      have hbelow : ∀ x, d.Above t x → x = t := by
        intro x hx
        obtain rfl | ⟨y, hy, -⟩ := Relation.ReflTransGen.cases_head hx
        · rfl
        · rw [h.sound.text?_eq_none_of_parent? hy] at hcontent
          cases hcontent
      have hkept : ∀ x, x ≠ t → (d₁.node? x).map Node.kind = (d.node? x).map Node.kind := by
        intro x hx
        rw [(hnode x).2 fun habove => hx (hbelow x habove), Option.map_map]
        rfl
      have hextends : Extends s runs d₀ d d₁ := by
        refine ⟨fun _ => h.remove ht hremove, fun x tag hx => ?_⟩
        rw [tagName?_congr (hkept x ?_), hx]
        rintro rfl
        rw [text?_eq_none_of_tagName? hx] at hcontent
        cases hcontent
      have hstep : Moves (Extends s runs d₀) (Edit.apply (·.remove t)) d fun _ d' => d' = d₁ :=
        .of_ok (by rw [Edit.apply, hremove]) hextends rfl
      refine hstep.bind fun _ d' _ hd' => ?_
      subst hd'
      refine ih (hextends.retains h) fun u hu => ⟨(hrest u hu).1, ?_⟩
      by_cases hut : u = t
      · rw [hut]
        exact Or.inl ((hnode t).1 .refl)
      · rw [text?_congr (hkept u hut)]
        refine (hrest u hu).2.imp_left fun hdead => ?_
        rw [← Option.map_eq_none_iff (f := Node.kind), hkept u hut, hdead]
        rfl

/-- Replacing texts where filling may do so. -/
theorem setDirectText (h : d₀.Retains s runs d) (hid : d₀.Lasts s runs id → d₀.Refills id)
    (content : String) :
    Moves (Extends s runs d₀) (Document.setDirectText id content) d fun _ _ => True := by
  cases hlive : d.contains id with
  | false => exact .of_error (setDirectText_of_dead (not_contains_iff.1 hlive)) (Std.Refl.refl d)
  | true =>
    refine .congr (setDirectText_of_live hlive) ?_
    have hloop := h.removeTexts (d.childTexts id) fun t ht => by
      obtain ⟨hchild, htext⟩ := List.mem_filter.1 ht
      refine ⟨fun hlasts => ?_, Or.inr htext⟩
      have hheld := h.held t hlasts
      have hparent := h.sound.mem_children_iff.1 hchild
      refine hlasts.text (hheld.text ▸ htext) id (hheld.parent ▸ hparent) (hid ?_)
      exact h.parent hlasts hparent
    refine hloop.bind fun _ d₁ hextends₁ _ => ?_
    have h₁ := hextends₁.retains h
    split
    · have hcreate : ∀ text d₂, d₁.createText content = .ok (text, d₂) → Extends s runs d₀ d₁ d₂ :=
        fun text d₂ hmake => ⟨fun h => h.allocate (h.sound.createText hmake) hmake,
          keepsTags_allocate h₁.sound hmake⟩
      refine (Edit.moves_create hcreate).bind fun text d₂ hextends₂ hmake =>
        Edit.moves_apply fun d₃ hput => ?_
      have h₂ := hextends₂.retains h₁
      obtain ⟨hdead, hnode⟩ := node?_allocate h₁.sound.accounted hmake
      have hplace : ∀ l : List NodeId, ∃ a b, l = a ++ b ∧
          l.take (d.textPlace id) ++ text :: l.drop (d.textPlace id) = a ++ text :: b := fun l =>
        ⟨_, _, (List.take_append_drop _ l).symm, rfl⟩
      have hdirective : d₂.directive? s text = none := by
        rw [Document.directive?, tagName?, hnode, if_pos rfl]
        rfl
      have hnew := h₁.not_lasts_of_dead hdead
      refine ⟨fun _ => h₂.place hnew hplace (fun hlasts => ⟨hdirective, fun _ => hid hlasts⟩) hput,
        keepsTags_place h₂.sound (fun l => ?_) hput⟩
      exact List.perm_middle.trans (by rw [List.take_append_drop])
    · exact .pure trivial

end Retains

theorem sourceOr_of_note? {key source : String} (h : d.note? x key = some source)
    (hne : source ≠ "") (current : String) : d.sourceOr x key current = source := by
  rw [sourceOr, h]
  exact if_neg hne

theorem sourceOr_congr {key : String} (h : d'.note? x key = d.note? x key) (current : String) :
    d'.sourceOr x key current = d.sourceOr x key current := by
  rw [sourceOr, sourceOr, h]

namespace Retains

/-- Where filling replaces no texts, they say what they said. -/
theorem directText_eq (h : d₀.Retains s runs d) (hx : d₀.Lasts s runs x)
    (hrefills : ¬ d₀.Refills x) : d.directText x = d₀.directText x := by
  have hheld := h.held x hx
  have hlasting : ∀ {e : Document}, (∀ c ∈ e.children x, ¬ d₀.Lasts s runs c → e.text? c = none) →
      (e.children x).filterMap e.text? =
        ((e.children x).filter (d₀.Lasts s runs ·)).filterMap e.text? := by
    intro e he
    rw [List.filterMap_filter]
    refine List.filterMap_congr fun c hc => ?_
    split
    · rfl
    · next hnot => exact he c hc (by simpa using hnot)
  have hnew : ∀ c ∈ d.children x, ¬ d₀.Lasts s runs c → d.text? c = none := fun c hc hnot => by
    by_contra htext
    exact hrefills ((h.stray x c hx hc hnot).2 (Option.isSome_iff_ne_none.2 htext))
  have hold : ∀ c ∈ d₀.children x, ¬ d₀.Lasts s runs c → d₀.text? c = none := fun c hc hnot => by
    rcases hx.child h.origin hc hnot with hfeigns | ⟨-, hrefills'⟩
    · exact hfeigns.text?
    · exact absurd hrefills' hrefills
  rw [directText, directText, hlasting hnew, hlasting hold, hheld.row]
  congr 2
  refine List.filterMap_congr fun c hc => ?_
  exact (h.held c (by simpa using (List.mem_filter.1 hc).2)).text

theorem fillText (h : d₀.Retains s runs d) (hroot : id ≠ .root) (model : Value) (scope : Scope) :
    Moves (Extends s runs d₀) (Document.fillText id model scope) d fun _ _ => True := by
  refine .get ?_
  dsimp only
  split
  · next happears =>
    have hrefills : d₀.Lasts s runs id → d₀.Refills id := fun hid => by
      by_contra hnot
      have hsource : d.sourceOr id textSource (d.directText id) = d₀.directText id := by
        rw [sourceOr, (h.held id hid).textNote hnot]
        exact h.directText_eq hid hnot
      exact hnot ⟨hroot, hsource ▸ happears⟩
    have hnote : ∀ d',
        d.setNote id textSource (d.sourceOr id textSource (d.directText id)) = .ok d' →
        Extends s runs d₀ d d' := fun d' hset =>
      ⟨fun _ => h.setNote hset fun hid => ⟨fun _ => hrefills hid,
        fun _ hkey => absurd hkey.symm (attributeSource_ne _)⟩, keepsTags_setNote hset⟩
    refine (Edit.moves_apply hnote).bind fun _ d' hextends _ => ?_
    exact (hextends.retains h).setDirectText hrefills _
  · exact .pure trivial

/-- What an attribute is filled from is its source; if it is the mark of generated nodes, a run has
to make it so. -/
theorem fillAttribute (h : d₀.Retains s runs d) {model : Value} {scope : Scope}
    (hrun : (model, scope) ∈ runs)
    (hplain : d₀.Lasts s runs id → d₀.directive? s id = none) (a : String × String)
    (ha : d₀.Lasts s runs id → a.1 = s.generatedAttribute →
      d₀.attribute? id a.1 = some (d.sourceOr id (attributeSource a.1) a.2)) :
    Moves (Extends s runs d₀) (Document.fillAttribute id model scope a) d fun _ d' =>
      ∀ name current, d₀.Lasts s runs id → name = s.generatedAttribute →
        d₀.attribute? id name = some (d.sourceOr id (attributeSource name) current) →
        d₀.attribute? id name = some (d'.sourceOr id (attributeSource name) current) := by
  obtain ⟨name, value⟩ := a
  refine .get ?_
  dsimp only at ha ⊢
  obtain ⟨source, hsource⟩ : ∃ source, source = d.sourceOr id (attributeSource name) value :=
    ⟨_, rfl⟩
  rw [← hsource] at ha ⊢
  split
  · next happears =>
    have hne : source ≠ "" := by
      rintro rfl
      cases happears
    have hnoted : Moves (Extends s runs d₀)
        (Edit.apply (·.setNote id (attributeSource name) source)) d fun _ d₁ =>
          d.setNote id (attributeSource name) source = .ok d₁ :=
      Edit.moves_apply_of fun d₁ hset => by
        refine ⟨⟨fun _ => h.setNote hset fun hid => ⟨fun hkey => absurd hkey (attributeSource_ne _),
          fun _ hkey => ?_⟩, keepsTags_setNote hset⟩, hset⟩
        obtain rfl := attributeSource_inj.1 hkey
        exact ⟨hne, ha hid rfl⟩
    refine hnoted.bind fun _ d₁ hextends₁ hset => Edit.moves_apply_of fun d₂ hset' => ?_
    have hnote := note?_setNote hset
    refine ⟨⟨fun h₁ => h₁.setAttribute hset' fun hid hname => ?_, keepsTags_setAttribute hset'⟩,
      fun name' current hid hname' hcurrent => ?_⟩
    · rw [ha hid hname, sourceOr_of_note? (by rw [hnote, if_pos rfl]) hne]
      subst hname
      exact ⟨fun hfilled => ⟨hplain hid, source, ha hid rfl, happears, _, hrun, hfilled⟩,
        fun _ => rfl⟩
    · by_cases hname : name = name'
      · subst hname
        rw [ha hid hname', sourceOr_of_note? _ hne]
        rw [note?_setAttribute hset', hnote, if_pos rfl]
      · rw [hcurrent, sourceOr_congr]
        rw [note?_setAttribute hset', hnote, if_neg fun hkey => hname (attributeSource_inj.1 hkey)]
  · exact .pure fun _ _ _ _ hcurrent => hcurrent

theorem fillAttributes (h : d₀.Retains s runs d) {model : Value} {scope : Scope}
    (hrun : (model, scope) ∈ runs) (hplain : d₀.Lasts s runs id → d₀.directive? s id = none)
    (attributes : List (String × String))
    (ha : ∀ a ∈ attributes, d₀.Lasts s runs id → a.1 = s.generatedAttribute →
      d₀.attribute? id a.1 = some (d.sourceOr id (attributeSource a.1) a.2)) :
    Moves (Extends s runs d₀) (attributes.forM (Document.fillAttribute id model scope)) d
      fun _ _ => True := by
  induction attributes generalizing d with
  | nil => exact .pure trivial
  | cons a rest ih =>
    rw [List.forall_mem_cons] at ha
    refine (h.fillAttribute hrun hplain a ha.1).bind fun _ d' hextends hkept => ?_
    exact ih (hextends.retains h) fun b hb hid hname =>
      hkept b.1 b.2 hid hname (ha.2 b hb hid hname)

theorem fill (h : d₀.Retains s runs d) {model : Value} {scope : Scope}
    (hrun : (model, scope) ∈ runs) (hroot : id ≠ .root)
    (hplain : d₀.Lasts s runs id → d₀.directive? s id = none) :
    Moves (Extends s runs d₀) (Document.fill id model scope) d fun _ _ => True := by
  refine (h.fillText hroot model scope).bind fun _ d₁ hextends _ => .get ?_
  have h₁ := hextends.retains h
  refine h₁.fillAttributes hrun hplain _ fun a ha hid hname => ?_
  have hsource := (h₁.held id hid).source (hplain hid)
  have hcurrent : d₁.attribute? id s.generatedAttribute = some a.2 := by
    rw [attribute?, ← hname]
    exact Entries.get?_of_mem (h₁.sound.nodup_keys id) ha
  rw [hname, ← hsource, hcurrent]
  rfl

end Retains

end Document
end LiveMarkup
