import LiveMarkup.Proofs.Anchor
import LiveMarkup.Proofs.Inheritance

/-! Edits that spare the directives of a document: nothing inside of a directive is touched, none
comes up, and no node gets below one. -/
namespace LiveMarkup

namespace Document

variable {s : Settings} {d d' d₁ : Document} {id p c r x y z : NodeId}

/-- No directive is above the node, itself aside. -/
def Exposed (s : Settings) (d : Document) (x : NodeId) : Prop :=
  ∀ y, d.Above y x → y ≠ x → d.directive? s y = none

/-- The node is no directive and is not inside of one. -/
structure Plain (s : Settings) (d : Document) (x : NodeId) : Prop where
  exposed : d.Exposed s x
  directive : d.directive? s x = none

/-- One document has become another, and the directives that are left are as they were, as far as
templates tell. -/
structure Spares (s : Settings) (d d' : Document) : Prop where
  sound : d.Sound → d'.Sound
  tree : d'.tree = d.tree
  exposed : ∀ x, d.Exposed s x → d'.Exposed s x
  same : ∀ x, (d'.directive? s x).isSome = true →
    d'.directive? s x = d.directive? s x ∧ d'.template? s x = d.template? s x

instance : Std.Refl (Spares s) :=
  ⟨fun _ => ⟨fun h => h, rfl, fun _ h => h, fun _ _ => ⟨rfl, rfl⟩⟩⟩

instance : IsTrans Document (Spares s) where
  trans _ _ _ h h' := ⟨fun hd => h'.sound (h.sound hd), h'.tree.trans h.tree,
    fun x hx => h'.exposed x (h.exposed x hx), fun x hx => by
      obtain ⟨hdirective, htemplate⟩ := h'.same x hx
      rw [hdirective] at hx
      obtain ⟨hdirective', htemplate'⟩ := h.same x hx
      exact ⟨hdirective.trans hdirective', htemplate.trans htemplate'⟩⟩

theorem Spares.plain (h : d.Spares s d') (hx : d.Plain s x) : d'.Plain s x := by
  refine ⟨h.exposed x hx.exposed, ?_⟩
  by_contra hnone
  have hsome := Option.isSome_iff_ne_none.2 hnone
  exact hnone ((h.same x hsome).1.trans hx.directive)

theorem exposed_of_child (hp : d.Plain s p) (h : d.parent? x = some p) : d.Exposed s x := by
  intro y hy hne
  rcases (above_iff_of_parent? h).1 hy with rfl | hy
  · exact absurd rfl hne
  · by_cases hyp : y = p
    · rw [hyp]
      exact hp.directive
    · exact hp.exposed y hy hyp

theorem plain_of_parent (hx : d.Exposed s x) (hd : d.Sound) (h : d.parent? x = some p) :
    d.Plain s p := by
  have hne : p ≠ x := by
    rintro rfl
    exact hd.not_above_parent h .refl
  refine ⟨fun y hy _ => hx y ((above_iff_of_parent? h).2 (Or.inr hy)) ?_,
    hx p ((above_iff_of_parent? h).2 (Or.inr .refl)) hne⟩
  rintro rfl
  exact hd.not_above_parent h hy

theorem exposed_of_sibling (hd : d.Sound) (hx : d.Exposed s x)
    (hy : y ∈ d.precedingSiblings x) : d.Exposed s y := by
  obtain ⟨-, hnone⟩ | ⟨p, left, right, hp, hrow, hleft⟩ := hd.precedingSiblings_cases x
  · rw [hnone] at hy
    cases hy
  · have hchild : d.parent? y = some p := by
      rw [← hd.mem_children_iff, hrow, ← hleft]
      exact List.mem_append_left _ hy
    exact exposed_of_child (plain_of_parent hx hd hp) hchild

theorem exposed_of_dead (hx : d.node? x = none) : d.Exposed s x := by
  have hparent : d.parent? x = none := by rw [parent?, hx]; rfl
  exact fun y hy hne => absurd ((above_iff_of_parent?_eq_none hparent).1 hy) hne

theorem plain_of_dead (hx : d.node? x = none) : d.Plain s x :=
  ⟨exposed_of_dead hx, by rw [directive?, tagName?, hx]; rfl⟩

theorem plain_root (hd : d.Sound) : d.Plain s .root := by
  obtain ⟨n, hn, hkind, -⟩ := hd.root
  refine ⟨fun y hy hne => absurd ((above_iff_of_parent?_eq_none hd.parent?_root).1 hy) hne, ?_⟩
  rw [directive?, tagName?, hn, Option.bind_some, hkind]
  rfl

theorem directive?_congr (h : (d'.node? x).map Node.kind = (d.node? x).map Node.kind) :
    d'.directive? s x = d.directive? s x :=
  directive?_eq_of_tagName? (tagName?_congr h)

theorem contains_of_directive? (h : (d.directive? s x).isSome = true) : d.contains x = true := by
  rw [contains]
  cases hx : d.node? x with
  | none => simp [directive?, tagName?, hx] at h
  | some n => rfl

theorem directive?_of_element {tag : String} {attributes : List (String × String)} {n : Node}
    (h : d.node? x = some n) (hkind : n.kind = .element tag attributes) :
    d.directive? s x = s.directive? tag := by
  rw [directive?, tagName?, h, Option.bind_some, hkind]
  rfl

/-- The template of a directive is read off its attributes. -/
theorem Sound.template?_of_directive? {directive : Directive} (hd : d.Sound)
    (hx : d.directive? s x = some directive) : ∃ children,
      d.template? s x = some (Template.ofDirective directive (d.attributes x) children) := by
  obtain ⟨tag, htag, hdirective⟩ := Option.bind_eq_some_iff.1 hx
  obtain ⟨attributes, notes, kids, hs⟩ := hd.exists_element htag
  rw [Pass.template?_eq hd hs, Template.compile, hdirective, Document.attributes, hs.1]
  exact ⟨_, rfl⟩

/-- With nothing touched in it a shape stays, and so does its template. -/
theorem Sound.template?_congr {q : Option NodeId} {w : Shape} (hd : d.Sound) (hd' : d'.Sound)
    (hw : w.In d q) (hsame : ∀ z ∈ w.ids, d'.node? z = d.node? z) :
    d'.template? s w.id = d.template? s w.id := by
  have hw' := hw.congr hsame
  rw [template?, template?, elementTree?, elementTree?, hd'.trees_eq hw', hd.trees_eq hw, tagName?,
    tagName?, hsame w.id w.id_mem_ids]

/-- Directives are spared where no directive is above what is touched, unless it is touched, too;
and a touched directive that is left is as it was. -/
theorem Spares.of_touched (touched : NodeId → Prop) (hd : d.Sound) (hd' : d'.Sound)
    (htree : d'.tree = d.tree) (hsame : ∀ x, ¬ touched x → d'.node? x = d.node? x)
    (habove : ∀ x y, touched x → ¬ touched y → d.Above y x → d.directive? s y = none)
    (hown : ∀ x, touched x → (d'.directive? s x).isSome = true →
      d'.directive? s x = d.directive? s x ∧ d'.template? s x = d.template? s x ∧
        ∀ z, d'.Above x z → d.Above x z) : d.Spares s d' := by
  have hall : ∀ y, (d'.directive? s y).isSome = true →
      d'.directive? s y = d.directive? s y ∧ d'.template? s y = d.template? s y ∧
        ∀ z, d'.Above y z → d.Above y z := by
    intro y hy
    by_cases htouched : touched y
    · exact hown y htouched hy
    · have hdirective : d'.directive? s y = d.directive? s y :=
        directive?_congr (congrArg _ (hsame y htouched))
      rw [hdirective] at hy
      obtain ⟨w, rfl, hw⟩ := hd.exists_shape (contains_of_directive? hy)
      have hfree : ∀ z ∈ w.ids, d'.node? z = d.node? z := fun z hz => hsame z fun hz' => by
        rw [habove z w.id hz' htouched ((hd.mem_ids_iff hw).1 hz)] at hy
        cases hy
      refine ⟨hdirective, hd.template?_congr hd' hw hfree, fun z hz => ?_⟩
      exact (hd.mem_ids_iff hw).1 ((hd'.mem_ids_iff (hw.congr hfree)).2 hz)
  refine ⟨fun _ => hd', htree, fun x hx y hy hne => ?_,
    fun y hy => ⟨(hall y hy).1, (hall y hy).2.1⟩⟩
  by_contra hnone
  obtain ⟨hdirective, -, hback⟩ := hall y (Option.isSome_iff_ne_none.2 hnone)
  exact hnone (hdirective.trans (hx y (hback x hy) hne))

/-- Directives are spared where all that is touched is plain, and no directive comes up. -/
theorem Spares.of_plain (touched : NodeId → Prop) (hd : d.Sound) (h : d.Inherits s d')
    (hsame : ∀ x, ¬ touched x → d'.node? x = d.node? x)
    (hplain : ∀ x, touched x → d.Plain s x) : d.Spares s d' := by
  refine of_touched touched hd (h.sound hd) h.tree hsame (fun x y hx hy habove => ?_)
    fun x hx hsome => ?_
  · refine (hplain x hx).exposed y habove ?_
    rintro rfl
    exact hy hx
  · rw [h.none (hplain x hx).directive] at hsome
    cases hsome

theorem Spares.setNote {key value : String} (hd : d.Sound) (hx : d.Plain s id)
    (h : d.setNote id key value = .ok d') : d.Spares s d' := by
  obtain ⟨-, -, -, -, hsame⟩ := setNote_eq_ok h
  refine of_plain (· = id) hd (.setNote hd h) hsame ?_
  rintro x rfl
  exact hx

theorem Spares.setAttribute {name value : String} (hd : d.Sound) (hx : d.Plain s id)
    (h : d.setAttribute id name value = .ok d') : d.Spares s d' := by
  obtain ⟨-, -, -, -, -, -, -, -, hsame⟩ := setAttribute_eq_ok h
  refine of_plain (· = id) hd (.setAttribute hd h) hsame ?_
  rintro x rfl
  exact hx

/-- The attributes that say what a directive asks for. -/
def directiveAttributes : List String := ["of", "of-rec", "as", "test", "name", "use"]

theorem ofDirective_put {name : String} (h : name ∉ directiveAttributes) (directive : Directive)
    (value : String) (attributes : List (String × String)) (children : Fragment) :
    Template.ofDirective directive (Entries.put name value attributes) children =
      Template.ofDirective directive attributes children := by
  simp only [directiveAttributes, List.mem_cons, List.not_mem_nil, or_false, not_or] at h
  obtain ⟨hof, hrec, has, htest, hname, huse⟩ := h
  cases directive <;>
    simp [Template.ofDirective, Template.sourceOf, Entries.get?_put, *]

/-- An attribute that says nothing about directives is set on one. -/
theorem template?_setAttribute {name value : String} (hd : d.Sound)
    (hname : name ∉ directiveAttributes) (hid : (d.directive? s id).isSome = true)
    (h : d.setAttribute id name value = .ok d') : d'.template? s id = d.template? s id := by
  obtain ⟨hvalid, tag, attributes, n, hn, hkind, -⟩ := setAttribute_eq_ok h
  obtain ⟨⟨id, kind, notes, kids⟩, rfl, hs⟩ := hd.exists_shape (contains_of_directive? hid)
  rw [Shape.id_mk] at *
  obtain rfl : kind = .element tag attributes := by
    rw [← hkind, ← Option.some.inj (hs.1.symm.trans hn)]
  obtain ⟨d'', hok, hd', hs', -⟩ := hd.setAttribute_in hs hvalid value
  obtain rfl : d' = d'' := Except.ok.inj (h.symm.trans hok)
  obtain ⟨directive, hsome⟩ := Option.isSome_iff_exists.1 hid
  rw [directive?_of_element hn hkind] at hsome
  rw [Pass.template?_eq hd' hs', Pass.template?_eq hd hs, Template.compile, Template.compile, hsome]
  simp only [ofDirective_put hname]

theorem above_setAttribute {name value : String} (h : d.setAttribute id name value = .ok d') :
    d'.Above = d.Above := by
  unfold Above
  simp only [parent?_setAttribute h]

theorem directive?_setAttribute {name value : String} (h : d.setAttribute id name value = .ok d')
    (x : NodeId) : d'.directive? s x = d.directive? s x :=
  directive?_eq_of_tagName? (tagName?_setAttribute h x)

theorem Exposed.setAttribute {name value : String} (hx : d.Exposed s x)
    (h : d.setAttribute id name value = .ok d') : d'.Exposed s x := by
  intro y hy hne
  rw [directive?_setAttribute h]
  exact hx y (by rwa [← above_setAttribute h]) hne

/-- An attribute is set where no other directive is above. -/
theorem template?_setAttribute_of_ne {name value : String} (hd : d.Sound) (hx : d.Exposed s id)
    (hne : y ≠ id) (hy : (d.directive? s y).isSome = true)
    (h : d.setAttribute id name value = .ok d') : d'.template? s y = d.template? s y := by
  obtain ⟨-, -, -, -, -, -, -, -, hsame⟩ := setAttribute_eq_ok h
  obtain ⟨w, rfl, hw⟩ := hd.exists_shape (contains_of_directive? hy)
  refine hd.template?_congr (hd.setAttribute h) hw fun z hz => hsame z ?_
  rintro rfl
  rw [hx w.id ((hd.mem_ids_iff hw).1 hz) hne] at hy
  cases hy

/-- An attribute that says nothing about directives is set, on a directive or elsewhere. -/
theorem Spares.mark {name value : String} (hd : d.Sound) (hx : d.Exposed s id)
    (hname : name ∉ directiveAttributes) (h : d.setAttribute id name value = .ok d') :
    d.Spares s d' := by
  by_cases hdirective : d.directive? s id = none
  · exact setAttribute hd ⟨hx, hdirective⟩ h
  have hid := Option.isSome_iff_ne_none.2 hdirective
  obtain ⟨-, -, -, -, -, -, -, htree, hsame⟩ := setAttribute_eq_ok h
  refine of_touched (· = id) hd (hd.setAttribute h) htree hsame ?_ ?_
  · rintro x y rfl hne habove
    exact hx y habove hne
  · rintro x rfl -
    refine ⟨directive?_setAttribute h x, template?_setAttribute hd hname hid h, fun z hz => ?_⟩
    rwa [← above_setAttribute h]

theorem Spares.allocate {kind : NodeKind} (hd : d.Sound) (hd' : d'.Sound)
    (h : d.allocate kind = .ok (id, d')) (hkind : ∀ tag attributes,
      kind = .element tag attributes → s.directive? tag = none) :
    d.Spares s d' ∧ d'.Plain s id := by
  obtain ⟨hid, hnode⟩ := node?_allocate hd.accounted h
  have hspares : d.Spares s d' := by
    refine of_plain (· = id) hd (.allocate hd hd' h hkind) (fun x hne => ?_) ?_
    · rw [hnode, if_neg hne]
    · rintro x rfl
      exact plain_of_dead hid
  exact ⟨hspares, hspares.plain (plain_of_dead hid)⟩

/-- A plain node is moved to a plain parent. -/
theorem Spares.place {place : List NodeId → List NodeId} (hd : d.Sound) (hp : d.Plain s p)
    (hc : d.Plain s c) (hplace : ∀ l, (place l).Perm (c :: l)) (h : (do
      d.checkPlacement p c
      Pure.pure ((d.detach c).attach p c place)) = Except.ok d') : d.Spares s d' := by
  obtain ⟨-, -, hnode⟩ := hd.place_eq_ok hplace h
  refine of_plain (fun x => x = c ∨ x = p ∨ d.parent? c = some x) hd (.place hd hplace h)
    (fun x hx => ?_) ?_
  · rw [not_or, not_or] at hx
    rw [hnode]
    cases hn : d.node? x with
    | none => rfl
    | some n => rw [Option.map_some, if_neg hx.1, if_neg hx.2.1, hd.filter_children hn hx.2.2]
  · rintro x (rfl | rfl | hx)
    · exact hc
    · exact hp
    · exact plain_of_parent hc.exposed hd hx

theorem Spares.remove (hd : d.Sound) (hx : d.Exposed s id) (h : d.remove id = .ok d') :
    d.Spares s d' := by
  obtain ⟨-, hd', hnode⟩ := hd.remove_eq_ok h
  refine of_touched (fun x => d.Above id x ∨ d.parent? id = some x) hd hd' (remove_tree h)
    (fun x hx => ?_) (fun x y hx' hy habove => ?_) fun x hx' hsome => ?_
  · rw [not_or] at hx
    rw [(hnode x).2 hx.1]
    cases hn : d.node? x with
    | none => rfl
    | some n => rw [Option.map_some, hd.filter_children hn hx.2]
  · rw [not_or] at hy
    have hline : d.Above y id := by
      rcases hx' with hx' | hx'
      · exact (Sound.above_or_above habove hx').resolve_right hy.1
      · exact (above_iff_of_parent? hx').2 (Or.inr habove)
    refine hx y hline ?_
    rintro rfl
    exact hy.1 .refl
  · by_cases habove : d.Above id x
    · rw [directive?, tagName?, (hnode x).1 habove] at hsome
      cases hsome
    · have hparent := plain_of_parent hx hd (hx'.resolve_left habove)
      rw [Inherits.none (.remove hd h) hparent.directive] at hsome
      cases hsome

theorem Spares.createElement {tag : String} (hd : d.Sound) (htag : s.directive? tag = none)
    (h : d.createElement tag = .ok (id, d')) : d.Spares s d' ∧ d'.Plain s id := by
  have hd' := hd.createElement h
  rw [Document.createElement] at h
  split at h
  · exact allocate hd hd' h fun _ _ hkind => by
      cases hkind
      exact htag
  · cases h

theorem Spares.append (hd : d.Sound) (hp : d.Plain s p) (hc : d.Plain s c)
    (h : d.append p c = .ok d') : d.Spares s d' :=
  place hd hp hc (fun l => List.perm_append_singleton c l) h

theorem Spares.insertBefore (hd : d.Sound) (hp : d.Plain s p) (hc : d.Plain s c)
    (h : d.insertBefore p c r = .ok d') : d.Spares s d' := by
  obtain rfl | h := insertBefore_eq_ok h
  · exact Std.Refl.refl _
  · exact place hd hp hc (perm_placeBefore c r) h

theorem Spares.setDirectText (hd : d.Sound) (hx : d.Plain s id) (content : String) :
    Moves (Spares s) (Document.setDirectText id content) d fun _ _ => True := by
  refine moves_setDirectText (fun text htext {d₁ d₂} hspares => ?_) fun {d₁ d₂ text} hspares h => ?_
  · have hchild := hd.mem_children_iff.1 (List.mem_filter.1 htext).1
    exact remove (hspares.sound hd) (hspares.exposed text (exposed_of_child hx hchild))
  · have hd₂ := (hspares.sound hd).createText h
    obtain ⟨hspares₂, htext⟩ := allocate (s := s) (hspares.sound hd) hd₂ h fun _ _ hkind => by
      cases hkind
    exact ⟨hspares₂, place hd₂ (hspares₂.plain (hspares.plain hx)) htext⟩

end Document
end LiveMarkup
