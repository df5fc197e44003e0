import LiveMarkup.Proofs.Document.DirectText
import LiveMarkup.Proofs.Document.Reachable
import LiveMarkup.Proofs.Document.Rooted
import LiveMarkup.Proofs.Markup.Nesting

/-! What an event does to a draft. It changes the row below the innermost open element and nothing
else: a new element or a new text comes behind the others, and a text behind a text takes its place.
-/
namespace LiveMarkup

/-- Two documents that hold a shape have nodes of the same kinds in it. -/
theorem Shape.In.kind_eq {d d' : Document} {p p' : Option NodeId} {s : Shape} (hs : s.In d p)
    (hs' : s.In d' p') : ∀ x ∈ s.ids, (d'.node? x).map Node.kind = (d.node? x).map Node.kind := by
  induction s generalizing p p' with
  | mk id kind notes kids ih =>
    intro x hx
    rcases List.mem_cons.1 hx with rfl | hx
    · rw [hs'.1, hs.1]
      rfl
    · obtain ⟨c, hc, hx⟩ := mem_idsAll_iff.1 hx
      exact ih c hc (inAll_iff.1 hs.2 c hc) (inAll_iff.1 hs'.2 c hc) x hx

/-- A row ends with a text or it does not. -/
theorem Shape.exists_last_text (kids : List Shape) :
    (∀ last ∈ kids.getLast?, last.isText = false) ∨
      ∃ before id content notes children, kids = before ++ [⟨id, .text content, notes, children⟩] := by
  rcases List.eq_nil_or_concat kids with rfl | ⟨before, ⟨id, kind, notes, children⟩, rfl⟩
  · exact Or.inl nofun
  rw [List.concat_eq_append, List.getLast?_concat]
  cases kind with
  | root => exact Or.inl fun last hlast => by cases hlast; rfl
  | element tag attributes => exact Or.inl fun last hlast => by cases hlast; rfl
  | text content => exact Or.inr ⟨before, id, content, notes, children, rfl⟩

/-- A row that does not end with a text has none to go on. -/
theorem Shape.In.getLast?_text?_eq_none {d : Document} {p : Option NodeId} {q : NodeId}
    {kind : NodeKind} {notes : List (String × String)} {kids : List Shape}
    (hs : (⟨q, kind, notes, kids⟩ : Shape).In d p)
    (hlast : ∀ last ∈ kids.getLast?, last.isText = false) :
    (d.children q).getLast?.bind d.text? = none := by
  rw [Document.children_of_node? hs.1, List.getLast?_map]
  cases hend : kids.getLast? with
  | none => rfl
  | some last =>
    have htext := (inAll_iff.1 hs.2 last (List.mem_of_getLast? hend)).isSome_text?
    rw [hlast last hend, Option.isSome_eq_false_iff, Option.isNone_iff_eq_none] at htext
    exact htext

/-- The text at the end of a row. -/
theorem Shape.In.getLast?_children {d : Document} {p : Option NodeId} {q id : NodeId}
    {kind : NodeKind} {notes anotes : List (String × String)} {before akids : List Shape}
    {content : String}
    (hs : (⟨q, kind, notes, before ++ [⟨id, .text content, anotes, akids⟩]⟩ : Shape).In d p) :
    (d.children q).getLast? = some id ∧ d.text? id = some content := by
  rw [Document.children_of_node? hs.1, List.map_append, List.map_singleton, List.getLast?_concat,
    Document.text?, (inAll_append.1 hs.2).2.1.1]
  exact ⟨rfl, rfl⟩

namespace Document

variable {d d' d₁ : Document} {p : Option NodeId} {s s' s₁ : Shape} {id q : NodeId}
  {kind : NodeKind} {notes : List (String × String)} {kids before gone after : List Shape}
  {new : Shape}

/-- A shape has become another one, and nothing else has changed. -/
structure Turns (d d' : Document) (p : Option NodeId) (s s' : Shape) : Prop where
  sound : d'.Sound
  in_ : s'.In d' p
  replaces : d.Replaces d' s.ids s'.ids

namespace Turns

theorem refl (hd : d.Sound) (hs : s.In d p) : d.Turns d p s s := ⟨hd, hs, .refl d _⟩

theorem trans (h : d.Turns d₁ p s s₁) (h' : d₁.Turns d' p s₁ s') : d.Turns d' p s s' :=
  ⟨h'.sound, h'.in_, h.replaces.trans h'.replaces⟩

/-- The row of a parent turns where a child in it does. -/
theorem child (h : d.Turns d' (some q) s s') (hd : d.Sound)
    (hs : (⟨q, kind, notes, before ++ s :: after⟩ : Shape).In d p) (hid : s'.id = s.id) :
    d.Turns d' p ⟨q, kind, notes, before ++ s :: after⟩ ⟨q, kind, notes, before ++ s' :: after⟩ :=
  have hrow := hd.in_of_child hs h.in_ hid h.replaces
  ⟨h.sound, hrow.1, hrow.2⟩

/-- Elements stay as they are when texts make way for a new node. -/
theorem tagName?_eq (h : d.Turns d' p ⟨q, kind, notes, kids⟩ ⟨q, kind, notes, before ++ [new]⟩)
    (hd : d.Sound) (hs : (⟨q, kind, notes, kids⟩ : Shape).In d p) (hkids : kids = before ++ gone)
    (hgone : ∀ a ∈ gone, a.isText = true) {x : NodeId} {tag : String}
    (hx : d.tagName? x = some tag) : d'.tagName? x = some tag := by
  subst hkids
  have hrow := Shape.inAll_append.1 hs.2
  have hrow' := Shape.inAll_append.1 h.in_.2
  by_cases hold : x ∈ q :: Shape.idsAll (before ++ gone)
  · rw [Shape.idsAll_append, List.mem_cons, List.mem_append] at hold
    rcases hold with rfl | hold | hold
    · rw [← hx]
      refine tagName?_congr ?_
      rw [h.in_.1, hs.1]
      rfl
    · obtain ⟨c, hc, hxc⟩ := Shape.mem_idsAll_iff.1 hold
      rw [← hx]
      exact tagName?_congr ((Shape.inAll_iff.1 hrow.1 c hc).kind_eq
        (Shape.inAll_iff.1 hrow'.1 c hc) x hxc)
    · obtain ⟨⟨id, akind, anotes, akids⟩, ha, hxa⟩ := Shape.mem_idsAll_iff.1 hold
      have hain := Shape.inAll_iff.1 hrow.2 _ ha
      have htext := hgone _ ha
      cases akind with
      | root => cases htext
      | element tag attributes => cases htext
      | text content =>
        have hnone : akids.map Shape.id = [] := hd.valid hain.1
        obtain rfl := List.map_eq_nil_iff.1 hnone
        obtain rfl : x = id := by simpa [Shape.ids, Shape.idsAll] using hxa
        rw [tagName?, hain.1] at hx
        cases hx
  · obtain ⟨n, hn, -⟩ := Option.bind_eq_some_iff.1 hx
    rw [← hx, tagName?, tagName?, h.replaces.node?_eq hn hold, hn]

end Turns

/-- A new node comes behind the others of a row. -/
theorem Sound.append_turns (hd : d.Sound) (hs : (⟨q, kind, notes, kids⟩ : Shape).In d p)
    (hkind : ∀ content, kind ≠ .text content) (hd₁ : d₁.Sound) (hnew : new.In d₁ none)
    (hrep : d.Replaces d₁ [] new.ids) : ∃ d', d₁.append q new.id = .ok d' ∧
      d.Turns d' p ⟨q, kind, notes, kids⟩ ⟨q, kind, notes, kids ++ [new]⟩ := by
  have hfresh : ∀ x ∈ new.ids, d.node? x = none := fun x hx =>
    (hrep.fresh x hx).resolve_left List.not_mem_nil
  obtain ⟨d', hok, hd', hin, hrep'⟩ := hd₁.append_in
    (hs.of_replaces hrep (List.disjoint_nil_right _)) hkind hnew
    (hd.ne_root (hfresh _ new.id_mem_ids)) fun hq => by cases (hfresh q hq).symm.trans hs.1
  exact ⟨d', hok, hd', hin, (hrep.append_right _).trans hrep'⟩

/-- A new text comes before the last node of a row, which is then taken away. -/
theorem Sound.replace_last_turns {t : NodeId} {content : String} {a : Shape} (hd : d.Sound)
    (hs : (⟨q, kind, notes, before ++ [a]⟩ : Shape).In d p)
    (hkind : ∀ content, kind ≠ .text content) (hmake : d.createText content = .ok (t, d₁)) :
    ∃ d₂ d', d₁.insertBefore q t a.id = .ok d₂ ∧ d₂.remove a.id = .ok d' ∧
      d.Turns d' p ⟨q, kind, notes, before ++ [a]⟩
        ⟨q, kind, notes, before ++ [⟨t, .text content, [], []⟩]⟩ := by
  obtain ⟨hin₁, hrep₁⟩ := hd.allocate_in hmake
  have hfresh := (hrep₁.fresh t (List.mem_singleton_self t)).resolve_left List.not_mem_nil
  have hne : q ∉ [t] := fun h => by cases hfresh.symm.trans (List.mem_singleton.1 h ▸ hs.1)
  obtain ⟨d₂, hok₂, hd₂, hin₂, hrep₂⟩ := (hd.createText hmake).insertBefore_in
    (hs.of_replaces hrep₁ (List.disjoint_nil_right _)) hkind hin₁ (hd.ne_root hfresh) hne
  have hsub : (before ++ [(⟨t, .text content, [], []⟩ : Shape)]).Sublist
      (before ++ [⟨t, .text content, [], []⟩, a]) :=
    List.Sublist.append_left (List.Sublist.cons_cons _ (List.nil_sublist _)) _
  have hperm : ([a] ++ (before ++ [(⟨t, .text content, [], []⟩ : Shape)])).Perm
      (before ++ [⟨t, .text content, [], []⟩, a]) :=
    List.perm_append_comm.trans (.of_eq (List.append_assoc ..))
  obtain ⟨d', hok, hd', -, hin', hrep'⟩ := hd₂.forM_remove_in hin₂ hsub hperm
  have hremove : Edit.apply (·.remove a.id) d₂ = .ok () d' := by
    simpa using hok
  exact ⟨d₂, d', hok₂, Edit.apply_eq_ok hremove, hd', hin',
    (hrep₁.append_right _).trans (hrep₂.trans hrep')⟩

/-- Only a new node may take a new slot. -/
theorem releasesKeep_size : ReleasesKeep fun d d' => d'.slots.size = d.slots.size where
  refl _ := rfl
  trans h h' := h'.trans h
  update d id f := update_slots_size d id f
  vacate _ := by simp [vacate]

theorem size_allocate (h : d.allocate kind = .ok (id, d')) :
    d'.slots.size ≤ d.slots.size + 1 := by
  unfold allocate at h
  split at h
  · split at h
    · cases h
      simp
    · cases h
  · split at h
    · cases h
      simp
    · cases h

theorem slotLimit_le_of_full (h : ¬ d.HasRoom) : slotLimit ≤ d.slots.size := by
  rw [HasRoom, not_or, Nat.not_lt] at h
  exact h.2

end Document

/-- No slot was left for a node. -/
def MarkupError.isFull : MarkupError → Bool
  | .tree .outOfSlots => true
  | .malformed (.badElement .outOfSlots) _ => true
  | _ => false

namespace Draft

variable {α β : Type} {draft draft' : Draft} {position : Nat} {node : NodeId} {tag : String}
  {attributes : List (String × String)} {content : List Char} {p : Option NodeId} {q : NodeId}
  {kind : NodeKind} {notes : List (String × String)} {kids : List Shape} {full : Prop}

/-- The reader's work ends as described, unless it asks for one more node when all slots are taken;
then the given condition holds. -/
def Ends (result : Except MarkupError α) (full : Prop) (post : α → Prop) : Prop :=
  (∃ a, result = .ok a ∧ post a) ∨ ∃ e, result = .error e ∧ e.isFull = true ∧ full

theorem Ends.of_ok {result : Except MarkupError α} {post : α → Prop} {a : α}
    (h : Ends result full post) (hok : result = .ok a) : post a := by
  obtain ⟨b, hb, hpost⟩ | ⟨e, he, -⟩ := h
  · cases hok.symm.trans hb
    exact hpost
  · cases hok.symm.trans he

theorem Ends.mono {result : Except MarkupError α} {full' : Prop} {post post' : α → Prop}
    (h : Ends result full post) (hfull : full → full') (himp : ∀ a, post a → post' a) :
    Ends result full' post' :=
  h.imp (fun ⟨a, hok, hpost⟩ => ⟨a, hok, himp a hpost⟩)
    fun ⟨e, he, hisFull, h⟩ => ⟨e, he, hisFull, hfull h⟩

theorem Ends.bind {result : Except MarkupError α} {next : α → Except MarkupError β} {full' : Prop}
    {post : α → Prop} {post' : β → Prop} (h : Ends result full post) (hfull : full → full')
    (hnext : ∀ a, result = .ok a → post a → Ends (next a) full' post') :
    Ends (result >>= next) full' post' := by
  obtain ⟨a, rfl, hpost⟩ | ⟨e, rfl, hisFull, h⟩ := h
  · exact hnext a rfl hpost
  · exact Or.inr ⟨e, rfl, hisFull, hfull h⟩

/-- Attributes that mean something are set, one after another. -/
theorem setAttributes_meant {raws : List Markup.RawAttribute} {done : List (String × String)}
    (draft : Draft) (position : Nat) (hd : draft.document.Sound)
    (hmeant : raws.mapM Markup.RawAttribute.meant? = some attributes)
    (hin : (⟨node, .element tag done, notes, kids⟩ : Shape).In draft.document p)
    (hnodup : (Entries.keys (done ++ attributes)).Nodup) : ∃ d',
      setAttributes position node raws draft = .ok { draft with document := d' } ∧
      d'.slots.size = draft.document.slots.size ∧
      draft.document.Turns d' p ⟨node, .element tag done, notes, kids⟩
        ⟨node, .element tag (done ++ attributes), notes, kids⟩ := by
  induction raws generalizing draft done attributes with
  | nil =>
    obtain rfl : attributes = [] := by simpa using hmeant.symm
    rw [List.append_nil]
    exact ⟨_, rfl, rfl, .refl hd hin⟩
  | cons a raws ih =>
    rw [List.mapM_cons, Option.bind_eq_bind, Option.bind_eq_some_iff] at hmeant
    obtain ⟨b, hb, hmeant⟩ := hmeant
    rw [Option.bind_eq_bind, Option.bind_eq_some_iff] at hmeant
    obtain ⟨others, hothers, hmeant⟩ := hmeant
    cases hmeant
    obtain ⟨hname, value, hvalue, rfl⟩ := Markup.RawAttribute.meant?_eq_some_iff.1 hb
    obtain ⟨d₁, hset, hd₁, hin₁, hrep₁⟩ :=
      hd.setAttribute_in hin hname (String.ofList value)
    have hnew : a.name ∉ Entries.keys done := by
      rw [Entries.keys, List.map_append, List.nodup_append'] at hnodup
      exact fun hmem => hnodup.2.2 hmem (List.mem_cons_self ..)
    rw [Entries.put_of_not_mem hnew] at hin₁
    obtain ⟨d', hok, hsize, hturns⟩ := ih { draft with document := d₁ } hd₁ hothers hin₁
      (by simpa using hnodup)
    rw [List.append_assoc, List.singleton_append] at hturns
    refine ⟨d', ?_, hsize.trans (Document.releasesKeep_size.setAttribute hset),
      ⟨hturns.sound, hturns.in_, hrep₁.trans hturns.replaces⟩⟩
    simp only [setAttributes, hvalue, edit, hset]
    exact hok

/-- Only attributes that mean something are set. -/
theorem meant_of_setAttributes {raws : List Markup.RawAttribute}
    (h : setAttributes position node raws draft = .ok draft') :
    ∃ attributes, raws.mapM Markup.RawAttribute.meant? = some attributes := by
  induction raws generalizing draft with
  | nil => exact ⟨[], rfl⟩
  | cons a raws ih =>
    rw [setAttributes] at h
    split at h
    · cases h
    · next value hvalue =>
      obtain ⟨draft₁, hset, h⟩ := exists_of_bind_eq_ok h
      obtain ⟨attributes, hattributes⟩ := ih h
      have hname := (Document.setAttribute_eq_ok (edit_eq_ok hset)).1
      have ha : a.meant? = some (a.name, String.ofList value) :=
        Markup.RawAttribute.meant?_eq_some_iff.2 ⟨hname, value, hvalue, rfl⟩
      exact ⟨(a.name, String.ofList value) :: attributes, by
        simp [List.mapM_cons, ha, hattributes]⟩

theorem meantTag?_of_addElement {r : NodeId × Draft}
    (h : draft.addElement position content = .ok r) :
    (Markup.meantTag? content).isSome = true := by
  obtain ⟨d₁, draft₁, hmake, hset, -⟩ := addElement_eq_ok h
  obtain ⟨attributes, hattributes⟩ := meant_of_setAttributes hset
  have htag : Markup.isTagName (String.ofList (Markup.tagName content)) = true := by
    rw [Document.createElement] at hmake
    split at hmake
    · assumption
    · cases hmake
  have hfault : (Markup.tagAttributes content).2 = none := by
    rw [addElement, hmake] at h
    simp only [hset, bind, Except.bind] at h
    split at h
    · cases h
    · assumption
  exact Option.isSome_iff_exists.2
    ⟨_, Markup.meantTag?_eq_some_iff.2 ⟨rfl, htag, hfault, hattributes⟩⟩

/-- An element with its attributes comes behind the other nodes below the innermost open one. -/
theorem addElement_ends (position : Nat) (hd : draft.document.Sound)
    (hs : (⟨draft.parent, kind, notes, kids⟩ : Shape).In draft.document p)
    (hkind : ∀ content, kind ≠ .text content)
    (htag : Markup.meantTag? content = some (tag, attributes)) :
    Ends (draft.addElement position content) (¬ draft.document.HasRoom) fun r =>
      r.2.openElements = draft.openElements ∧
      r.2.document.slots.size ≤ draft.document.slots.size + 1 ∧
      draft.document.Turns r.2.document p ⟨draft.parent, kind, notes, kids⟩
        ⟨draft.parent, kind, notes, kids ++ [⟨r.1, .element tag attributes, [], []⟩]⟩ := by
  have hvalid := Markup.validTag_of_meantTag? htag
  obtain ⟨hname, hisTag, hfault, hattributes⟩ := Markup.meantTag?_eq_some_iff.1 htag
  obtain ⟨hfull, hmake⟩ | ⟨node, d₁, hmake, hd₁, hin₁, hrep₁⟩ := hd.createElement_in hisTag
  · refine Or.inr ⟨.malformed (.badElement .outOfSlots) (some position), ?_, rfl, hfull⟩
    rw [addElement, hname, hmake]
  · obtain ⟨d₂, hset, hsize, hturns⟩ := setAttributes_meant { draft with document := d₁ } position
      hd₁ hattributes hin₁ hvalid.nodup
    obtain ⟨d', happend, hrow⟩ := hd.append_turns hs hkind hturns.sound hturns.in_
      (hrep₁.trans hturns.replaces)
    refine Or.inl ⟨(node, { draft with document := d' }), ?_, rfl, ?_, hrow⟩
    · have hlast : Draft.edit { draft with document := d₂ }
          (·.append (Draft.parent { draft with document := d₂ }) node) =
          .ok { draft with document := d' } := by
        rw [Shape.id_mk] at happend
        rw [edit, show Draft.parent { draft with document := d₂ } = draft.parent from rfl, happend]
      rw [addElement, hname, hmake]
      simp only [hset, hfault, bind, Except.bind, hlast, pure, Except.pure]
    · rw [Document.createElement, if_pos hisTag] at hmake
      rw [Document.releasesKeep_size.place happend, hsize]
      exact Document.size_allocate hmake

/-- A text is made and put in its place, if there is a slot for it. -/
theorem edit_createText_ends {content : String}
    {place : NodeId × Document → Except TreeError Document} {post : Draft → Prop}
    (hd : draft.document.Sound)
    (hplace : ∀ t d₁, draft.document.createText content = .ok (t, d₁) →
      ∃ d', place (t, d₁) = .ok d' ∧ post { draft with document := d' }) :
    Ends (draft.edit fun d => d.createText content >>= place) (¬ draft.document.HasRoom)
      post := by
  rw [edit]
  cases hmake : draft.document.createText content with
  | error e =>
    obtain ⟨rfl, hfull⟩ := (Document.allocate_error_iff hd.accounted _ e).1 hmake
    exact Or.inr ⟨.tree .outOfSlots, rfl, rfl, hfull⟩
  | ok r =>
    obtain ⟨t, d₁⟩ := r
    obtain ⟨d', hok, hpost⟩ := hplace t d₁ hmake
    exact Or.inl ⟨{ draft with document := d' }, by simp only [bind, Except.bind, hok], hpost⟩

/-- A text comes behind the other nodes below the innermost open element; it takes the place of the
last one if that is a text, too, which it then goes on. -/
theorem addText_ends {content : String} (hd : draft.document.Sound)
    (hs : (⟨draft.parent, kind, notes, kids⟩ : Shape).In draft.document p)
    (hkind : ∀ content, kind ≠ .text content) (hcontent : content ≠ "") :
    Ends (draft.addText content) (¬ draft.document.HasRoom) fun draft' =>
      draft'.openElements = draft.openElements ∧
      draft'.document.slots.size ≤ draft.document.slots.size + 1 ∧
      ∃ before gone earlier t, kids = before ++ gone ∧
        (gone = [] ∧ earlier = "" ∧ (∀ last ∈ before.getLast?, last.isText = false) ∨
          ∃ id notes, gone = [⟨id, .text earlier, notes, []⟩]) ∧
        draft.document.Turns draft'.document p ⟨draft.parent, kind, notes, kids⟩
          ⟨draft.parent, kind, notes, before ++ [⟨t, .text (earlier ++ content), [], []⟩]⟩ := by
  rcases Shape.exists_last_text kids with hlast | ⟨before, id, earlier, anotes, akids, rfl⟩
  · have hadd : draft.addText content = draft.edit fun d =>
        d.createText content >>= fun made => made.2.append draft.parent made.1 := by
      simp only [addText, if_neg hcontent]
      split
      · next htext => cases (hs.getLast?_text?_eq_none hlast).symm.trans htext
      · rfl
    rw [hadd]
    refine edit_createText_ends hd fun t d₁ hmake => ?_
    obtain ⟨hin₁, hrep₁⟩ := hd.allocate_in hmake
    obtain ⟨d', happend, hrow⟩ := hd.append_turns hs hkind (hd.createText hmake) hin₁ hrep₁
    rw [Shape.id_mk] at happend
    refine ⟨d', happend, rfl, ?_, kids, [], "", t, (List.append_nil _).symm,
      Or.inl ⟨rfl, rfl, hlast⟩, by rwa [String.empty_append]⟩
    rw [Document.releasesKeep_size.place happend]
    exact Document.size_allocate hmake
  · obtain ⟨hlast, htext⟩ := hs.getLast?_children
    have hnone : akids.map Shape.id = [] := hd.valid (Shape.inAll_append.1 hs.2).2.1.1
    obtain rfl := List.map_eq_nil_iff.1 hnone
    have hadd : draft.addText content = draft.edit fun d =>
        d.createText (earlier ++ content) >>= fun made =>
          made.2.insertBefore draft.parent made.1 id >>= (·.remove id) := by
      simp only [addText, if_neg hcontent, hlast, Option.bind_some, htext]
    rw [hadd]
    refine edit_createText_ends hd fun t d₁ hmake => ?_
    obtain ⟨d₂, d', hinsert, hremove, hrow⟩ := hd.replace_last_turns hs hkind hmake
    rw [Shape.id_mk] at hinsert hremove
    refine ⟨d', by simp only [bind, Except.bind, hinsert, hremove], rfl, ?_, before, _, earlier, t,
      rfl, Or.inr ⟨id, anotes, rfl⟩, hrow⟩
    rw [Document.releasesKeep_size.remove hremove, Document.releasesKeep_size.insertBefore hinsert]
    exact Document.size_allocate hmake

end Draft
end LiveMarkup
