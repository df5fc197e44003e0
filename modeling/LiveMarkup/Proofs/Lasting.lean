import LiveMarkup.Proofs.Document.Reading
import LiveMarkup.Proofs.Exposed

/-! What renderings leave of the document that they come to. An element can be swept away only
where filling makes it look generated and where it stands before a directive. Whatever does not,
and is not inside of what does, keeps its place through every edit that a rendering makes. -/
namespace LiveMarkup

namespace Document

variable {s : Settings} {runs : List (Value × Scope)} {d₀ d d' : Document}
  {id p c r x y : NodeId} {n n' : Node}

/-- Filling replaces the texts of the element. -/
def Refills (d : Document) (p : NodeId) : Prop :=
  p ≠ .root ∧ Placeholder.appearsIn (d.directText p) = true

/-- One of the runs fills the element so that it carries the mark of generated nodes. -/
def Feigns (s : Settings) (runs : List (Value × Scope)) (d : Document) (x : NodeId) : Prop :=
  d.directive? s x = none ∧ ∃ source, d.attribute? x s.generatedAttribute = some source ∧
    Placeholder.appearsIn source = true ∧ ∃ run ∈ runs, Placeholder.fill source run.1 run.2 = "true"

/-- The element may come to look generated in a place where a directive is rendered: up to that
directive there are only others of its kind, and texts that filling replaces. -/
def Endangered (s : Settings) (runs : List (Value × Scope)) (d : Document) (x : NodeId) : Prop :=
  ∃ p before between anchor after, d.Plain s p ∧
    d.children p = before ++ x :: between ++ anchor :: after ∧
    (d.directive? s anchor).isSome = true ∧ d.Feigns s runs x ∧
    ∀ y ∈ between, d.Feigns s runs y ∨ (d.text? y).isSome = true ∧ d.Refills p

/-- Neither the node nor anything above it is endangered. -/
def Safe (s : Settings) (runs : List (Value × Scope)) (d : Document) (x : NodeId) : Prop :=
  ∀ y, d.Above y x → ¬ d.Endangered s runs y

/-- The node is safe and no text that filling replaces. -/
structure Lasts (s : Settings) (runs : List (Value × Scope)) (d : Document) (x : NodeId) :
    Prop where
  live : d.contains x = true
  safe : d.Safe s runs x
  text : (d.text? x).isSome = true → ∀ p, d.parent? x = some p → ¬ d.Refills p

open Classical in
/-- A node has its old place in a new document, with the same lasting nodes below it. Its sources
are the old ones, and it looks generated only where a run makes it so. -/
structure Held (s : Settings) (runs : List (Value × Scope)) (d₀ d : Document) (x : NodeId) :
    Prop where
  live : d.contains x = true
  tag : d.tagName? x = d₀.tagName? x
  text : d.text? x = d₀.text? x
  parent : d.parent? x = d₀.parent? x
  row : (d.children x).filter (d₀.Lasts s runs ·) = (d₀.children x).filter (d₀.Lasts s runs ·)
  source : d₀.directive? s x = none →
    (d.attribute? x s.generatedAttribute).map
      (d.sourceOr x (attributeSource s.generatedAttribute)) = d₀.attribute? x s.generatedAttribute
  mark : d.isGenerated s x = true → d₀.Feigns s runs x
  textNote : ¬ d₀.Refills x → d.note? x textSource = none

/-- All that lasts of an old document is held, and what else is below it is neither a directive nor
a text in a place where filling replaces none. -/
structure Retains (s : Settings) (runs : List (Value × Scope)) (d₀ d : Document) : Prop where
  origin : d₀.Sound
  sound : d.Sound
  held : ∀ x, d₀.Lasts s runs x → d₀.Held s runs d x
  stray : ∀ p c, d₀.Lasts s runs p → c ∈ d.children p → ¬ d₀.Lasts s runs c →
    d.directive? s c = none ∧ ((d.text? c).isSome = true → d₀.Refills p)

theorem safe_iff_of_parent? (h : d.parent? x = some p) :
    d.Safe s runs x ↔ ¬ d.Endangered s runs x ∧ d.Safe s runs p := by
  simp only [Safe, above_iff_of_parent? h, forall_eq_or_imp]

theorem Endangered.feigns (h : d.Endangered s runs x) : d.Feigns s runs x := by
  obtain ⟨p, before, between, anchor, after, -, -, -, hfeigns, -⟩ := h
  exact hfeigns

/-- Only the children of a node can be endangered. -/
theorem Endangered.parent? (h : d.Endangered s runs x) (hd : d.Sound) :
    ∃ p, d.parent? x = some p := by
  obtain ⟨p, before, between, anchor, after, -, hrow, -⟩ := h
  exact ⟨p, hd.mem_children_iff.1 (by simp [hrow])⟩

theorem Sound.safe_root (hd : d.Sound) : d.Safe s runs .root := by
  intro y hy hendangered
  obtain ⟨p, hp⟩ := hendangered.parent? hd
  rw [above_iff_of_parent?_eq_none hd.parent?_root] at hy
  rw [hy, hd.parent?_root] at hp
  cases hp

/-- What has an element right behind it that is no directive and stays unmarked is not
endangered. -/
theorem Sound.not_endangered_of_next {before after : List NodeId} (hd : d.Sound)
    (hrow : d.children p = before ++ x :: y :: after) (hdirective : d.directive? s y = none)
    (hfeigns : ¬ d.Feigns s runs y) (htext : d.text? y = none) : ¬ d.Endangered s runs x := by
  rintro ⟨q, before', between, anchor, after', -, hrow', hanchor, -, hbetween⟩
  have hparent : d.parent? x = some p := hd.mem_children_iff.1 (by simp [hrow])
  have hparent' : d.parent? x = some q := hd.mem_children_iff.1 (by simp [hrow'])
  obtain rfl : p = q := Option.some.inj (hparent.symm.trans hparent')
  have hnodup := hd.nodup_children p
  rw [hrow, List.nodup_middle, List.nodup_cons, List.mem_append, not_or] at hnodup
  rw [hrow, List.append_assoc, List.cons_append,
    List.append_cons_inj_of_notMem hnodup.1.1 hnodup.1.2] at hrow'
  obtain ⟨-, -, hnext⟩ := hrow'
  cases between with
  | nil =>
    obtain rfl : y = anchor := (List.cons.inj hnext).1
    rw [hdirective] at hanchor
    cases hanchor
  | cons z rest =>
    obtain rfl : y = z := (List.cons.inj hnext).1
    rcases hbetween y (List.mem_cons_self ..) with h | ⟨h, -⟩
    · exact hfeigns h
    · rw [htext] at h
      cases h

theorem Lasts.parent (hx : d.Lasts s runs x) (hd : d.Sound) (h : d.parent? x = some p) :
    d.Lasts s runs p where
  live := (hd.contains_of_parent? h).2
  safe := ((safe_iff_of_parent? h).1 hx.safe).2
  text htext := by
    rw [hd.text?_eq_none_of_parent? h] at htext
    cases htext

/-- Below what lasts there are only endangered elements, and texts that filling replaces, that do
not last. -/
theorem Lasts.child (hp : d.Lasts s runs p) (hd : d.Sound) (hc : c ∈ d.children p)
    (hnot : ¬ d.Lasts s runs c) :
    d.Feigns s runs c ∨ (d.text? c).isSome = true ∧ d.Refills p := by
  have hparent := hd.mem_children_iff.1 hc
  by_cases hendangered : d.Endangered s runs c
  · exact Or.inl hendangered.feigns
  · by_contra hneither
    rw [not_or] at hneither
    refine hnot ⟨(hd.contains_of_parent? hparent).1,
      (safe_iff_of_parent? hparent).2 ⟨hendangered, hp.safe⟩, fun htext q hq hrefills => ?_⟩
    obtain rfl : p = q := Option.some.inj (hparent.symm.trans hq)
    exact hneither.2 ⟨htext, hrefills⟩

theorem Feigns.text? (h : d.Feigns s runs x) : d.text? x = none := by
  obtain ⟨-, source, hsource, -⟩ := h
  rw [attribute?, attributes] at hsource
  rw [Document.text?]
  split at hsource
  · next hn => rw [hn]; rfl
  · cases hsource

namespace Retains

theorem parent (h : d₀.Retains s runs d) (hx : d₀.Lasts s runs x) (hp : d.parent? x = some p) :
    d₀.Lasts s runs p :=
  hx.parent h.origin ((h.held x hx).parent ▸ hp)

/-- What is above a lasting node lasts. -/
theorem lasts_of_above (h : d₀.Retains s runs d) (hx : d₀.Lasts s runs x) (hy : d.Above y x) :
    d₀.Lasts s runs y := by
  induction hy with
  | refl => exact hx
  | tail _ hp ih => exact ih (h.parent hx hp)

theorem directive? (h : d₀.Retains s runs d) (hx : d₀.Lasts s runs x) :
    d.directive? s x = d₀.directive? s x := by
  rw [Document.directive?, Document.directive?, (h.held x hx).tag]

end Retains

/-- At first all is held, where nothing is noted and nothing looks generated. -/
theorem Retains.refl (hd : d.Sound) (hnotes : d.Noteless)
    (hmarks : ∀ x, d.isGenerated s x = false) : d.Retains s runs d where
  origin := hd
  sound := hd
  held x hx := by
    have hnone : ∀ key, d.note? x key = none := by
      intro key
      obtain ⟨n, hn⟩ := contains_iff.1 hx.live
      rw [note?_of_node? hn, hnotes x n hn]
      rfl
    refine ⟨hx.live, rfl, rfl, rfl, rfl, fun _ => ?_, fun hmark => ?_, fun _ => hnone _⟩
    · have hsource : d.sourceOr x (attributeSource s.generatedAttribute) = id := by
        funext current
        rw [sourceOr, hnone]
        rfl
      rw [hsource, Option.map_id, id]
    · rw [hmarks x] at hmark
      cases hmark
  stray p c hp hc hnot := by
    rcases hp.child hd hc hnot with hfeigns | ⟨htext, hrefills⟩
    · refine ⟨hfeigns.1, fun htext => ?_⟩
      rw [hfeigns.text?] at htext
      cases htext
    · refine ⟨?_, fun _ => hrefills⟩
      cases htag : d.tagName? c with
      | none => rw [Document.directive?, htag, Option.bind_none]
      | some tag =>
        rw [text?_eq_none_of_tagName? htag] at htext
        cases htext

section

open scoped Classical

/-- Among the lasting ones of a row, what does not last plays no part. -/
theorem filter_ne (hc : ¬ d₀.Lasts s runs c) (l : List NodeId) :
    (l.filter (· ≠ c)).filter (d₀.Lasts s runs ·) = l.filter (d₀.Lasts s runs ·) := by
  rw [List.filter_filter]
  refine List.filter_congr fun y _ => ?_
  by_cases hy : y = c
  · rw [hy]
    simp [hc]
  · simp [hy]

/-- A node is held that changes in its children only, and not in the lasting ones. -/
theorem Held.of_children {kids : List NodeId} (h : d₀.Held s runs d x) (hn : d.node? x = some n)
    (hn' : d'.node? x = some { n with children := kids })
    (hrow : kids.filter (d₀.Lasts s runs ·) = n.children.filter (d₀.Lasts s runs ·)) :
    d₀.Held s runs d' x := by
  have hkind : (d'.node? x).map Node.kind = (d.node? x).map Node.kind := by
    rw [hn', hn]
    rfl
  have hattributes := attributes_congr hkind
  have hnote : ∀ key, d'.note? x key = d.note? x key := fun key => by
    rw [note?_of_node? hn', note?_of_node? hn]
  have hsource : ∀ key, d'.sourceOr x key = d.sourceOr x key := fun key => by
    funext current
    rw [sourceOr, sourceOr, hnote]
  refine ⟨contains_iff.2 ⟨_, hn'⟩, (tagName?_congr hkind).trans h.tag,
    (text?_congr hkind).trans h.text, ?_, ?_, fun hplain => ?_, fun hmark => ?_,
    fun hrefills => ?_⟩
  · rw [← h.parent, parent?_of_node? hn, parent?_of_node? hn']
  · rw [← h.row, children_of_node? hn, children_of_node? hn', hrow]
  · rw [← h.source hplain, attribute?, attribute?, hattributes, hsource]
  · rw [isGenerated, attribute?, hattributes] at hmark
    exact h.mark hmark
  · rw [hnote]
    exact h.textNote hrefills

/-- What an edit of links needs: lasting nodes change in their children only, and there only strays
come and go. -/
theorem Retains.of_links (h : d₀.Retains s runs d) (hd' : d'.Sound)
    (hkept : ∀ x n, d₀.Lasts s runs x → d.node? x = some n → ∃ kids,
      d'.node? x = some { n with children := kids } ∧
      kids.filter (d₀.Lasts s runs ·) = n.children.filter (d₀.Lasts s runs ·))
    (hstray : ∀ p c, d₀.Lasts s runs p → c ∈ d'.children p → ¬ d₀.Lasts s runs c →
      c ∈ d.children p ∧ d'.directive? s c = d.directive? s c ∧ d'.text? c = d.text? c ∨
        d'.directive? s c = none ∧ ((d'.text? c).isSome = true → d₀.Refills p)) :
    d₀.Retains s runs d' where
  origin := h.origin
  sound := hd'
  held x hx := by
    have hheld := h.held x hx
    obtain ⟨n, hn⟩ := contains_iff.1 hheld.live
    obtain ⟨kids, hn', hrow⟩ := hkept x n hx hn
    exact hheld.of_children hn hn' hrow
  stray p c hp hc hnot := by
    rcases hstray p c hp hc hnot with ⟨hold, hdirective, htext⟩ | hnew
    · rw [hdirective, htext]
      exact h.stray p c hp hold hnot
    · exact hnew

namespace Retains

theorem contains (h : d₀.Retains s runs d) (hx : d₀.Lasts s runs x) : d.contains x = true :=
  (h.held x hx).live

/-- A new node does not last. -/
theorem not_lasts_of_dead (h : d₀.Retains s runs d) (hx : d.node? x = none) :
    ¬ d₀.Lasts s runs x := fun hlasts => by
  have hlive := h.contains hlasts
  rw [Document.contains, hx] at hlive
  cases hlive

theorem allocate {kind : NodeKind} (h : d₀.Retains s runs d) (hd' : d'.Sound)
    (hmake : d.allocate kind = .ok (id, d')) : d₀.Retains s runs d' := by
  obtain ⟨hid, hnode⟩ := node?_allocate h.sound.accounted hmake
  have hold : ∀ x, d.contains x = true → d'.node? x = d.node? x := by
    intro x hx
    rw [hnode, if_neg]
    rintro rfl
    rw [Document.contains, hid] at hx
    cases hx
  refine h.of_links hd' (fun x n hx hn => ⟨n.children, ?_, rfl⟩) fun p c hp hc _ => ?_
  · rw [hold x (h.contains hx), hn]
  · rw [children, hold p (h.contains hp)] at hc
    have hlive := (h.sound.contains_of_parent? (h.sound.mem_children_iff.1 hc)).1
    refine Or.inl ⟨hc, ?_, ?_⟩
    · rw [Document.directive?, Document.directive?, tagName?, tagName?, hold c hlive]
    · rw [Document.text?, Document.text?, hold c hlive]

/-- What does not last may be removed. -/
theorem remove (h : d₀.Retains s runs d) (hid : ¬ d₀.Lasts s runs id)
    (hremove : d.remove id = .ok d') : d₀.Retains s runs d' := by
  obtain ⟨-, hd', hnode⟩ := h.sound.remove_eq_ok hremove
  have hkept : ∀ x n, d₀.Lasts s runs x → d.node? x = some n →
      d'.node? x = some { n with children := n.children.filter (· ≠ id) } := by
    intro x n hx hn
    rw [(hnode x).2 fun habove => hid (h.lasts_of_above hx habove), hn, Option.map_some]
  refine h.of_links hd' (fun x n hx hn => ⟨_, hkept x n hx hn, filter_ne hid _⟩)
    fun p c hp hc _ => ?_
  obtain ⟨n, hn⟩ := contains_iff.1 (h.contains hp)
  rw [children_of_node? (hkept p n hp hn), List.mem_filter] at hc
  have hchild : c ∈ d.children p := children_of_node? hn ▸ hc.1
  have hfree : ¬ d.Above id c := by
    intro habove
    rcases (above_iff_of_parent? (h.sound.mem_children_iff.1 hchild)).1 habove with rfl | habove
    · simp at hc
    · exact hid (h.lasts_of_above hp habove)
  have hkind : (d'.node? c).map Node.kind = (d.node? c).map Node.kind := by
    rw [(hnode c).2 hfree, Option.map_map]
    rfl
  exact Or.inl ⟨hchild, directive?_congr hkind, text?_congr hkind⟩

/-- What does not last may be moved; below what lasts, it may not be a directive, nor a text where
filling replaces none. -/
theorem place {place : List NodeId → List NodeId} (h : d₀.Retains s runs d)
    (hc : ¬ d₀.Lasts s runs c) (hplace : ∀ l, ∃ a b, l = a ++ b ∧ place l = a ++ c :: b)
    (hstray : d₀.Lasts s runs p →
      d.directive? s c = none ∧ ((d.text? c).isSome = true → d₀.Refills p))
    (hmove : (do
      d.checkPlacement p c
      Pure.pure ((d.detach c).attach p c place)) = Except.ok d') : d₀.Retains s runs d' := by
  have hperm : ∀ l, (place l).Perm (c :: l) := by
    intro l
    obtain ⟨a, b, rfl, hl⟩ := hplace l
    rw [hl]
    exact List.perm_middle
  obtain ⟨hd', -, hnode⟩ := h.sound.place_eq_ok hperm hmove
  have hkind : ∀ x, (d'.node? x).map Node.kind = (d.node? x).map Node.kind := by
    intro x
    rw [hnode, Option.map_map]
    rfl
  have hkept : ∀ x n, d₀.Lasts s runs x → d.node? x = some n →
      d'.node? x = some
        { n with
          children := if x = p then place (n.children.filter (· ≠ c))
            else n.children.filter (· ≠ c) } := by
    intro x n hx hn
    have hne : x ≠ c := by
      rintro rfl
      exact hc hx
    rw [hnode, hn, Option.map_some, if_neg hne]
  refine h.of_links hd' (fun x n hx hn => ⟨_, hkept x n hx hn, ?_⟩) fun q y hq hy _ => ?_
  · split
    · obtain ⟨a, b, hl, hput⟩ := hplace (n.children.filter (· ≠ c))
      rw [hput, List.filter_append, List.filter_cons_of_neg (by simpa using hc),
        ← List.filter_append, ← hl, filter_ne hc]
    · exact filter_ne hc _
  · obtain ⟨n, hn⟩ := contains_iff.1 (h.contains hq)
    rw [children_of_node? (hkept q n hq hn)] at hy
    have hold : y ∈ n.children.filter (· ≠ c) → y ∈ d.children q := fun hy =>
      children_of_node? hn ▸ (List.mem_filter.1 hy).1
    have hcases : y ∈ d.children q ∨ q = p ∧ y = c := by
      split at hy
      · next hqp =>
        rcases List.mem_cons.1 ((hperm _).mem_iff.1 hy) with rfl | hy
        · exact Or.inr ⟨hqp, rfl⟩
        · exact Or.inl (hold hy)
      · exact Or.inl (hold hy)
    rw [directive?_congr (hkind y), text?_congr (hkind y)]
    rcases hcases with hy | ⟨rfl, rfl⟩
    · exact Or.inl ⟨hy, rfl, rfl⟩
    · exact Or.inr (hstray hq)

/-- What an edit of a single node's content needs: the node stays in place, and if it lasts, its
sources and its mark stay what they may be. -/
theorem of_content (h : d₀.Retains s runs d) (hd' : d'.Sound)
    (hsame : ∀ x, x ≠ id → d'.node? x = d.node? x) (hn : d.node? id = some n)
    (hn' : d'.node? id = some n') (hparent : n'.parent = n.parent)
    (hchildren : n'.children = n.children) (htag : d'.tagName? id = d.tagName? id)
    (htext : d'.text? id = d.text? id)
    (hcontent : d₀.Lasts s runs id → (d₀.directive? s id = none →
        (d'.attribute? id s.generatedAttribute).map
          (d'.sourceOr id (attributeSource s.generatedAttribute)) =
            d₀.attribute? id s.generatedAttribute) ∧
      (d'.isGenerated s id = true → d₀.Feigns s runs id) ∧
      (¬ d₀.Refills id → d'.note? id textSource = none)) : d₀.Retains s runs d' where
  origin := h.origin
  sound := hd'
  held x hx := by
    have hheld := h.held x hx
    by_cases hxid : x = id
    · subst hxid
      obtain ⟨hsource, hmark, hnote⟩ := hcontent hx
      refine ⟨contains_iff.2 ⟨_, hn'⟩, htag.trans hheld.tag, htext.trans hheld.text, ?_, ?_,
        hsource, hmark, hnote⟩
      · rw [← hheld.parent, parent?_of_node? hn', parent?_of_node? hn, hparent]
      · rw [← hheld.row, children_of_node? hn', children_of_node? hn, hchildren]
    · obtain ⟨m, hm⟩ := contains_iff.1 hheld.live
      exact hheld.of_children hm ((hsame x hxid).trans hm) rfl
  stray p c hp hc hnot := by
    have hkids : d'.children p = d.children p := by
      by_cases hpid : p = id
      · rw [hpid, children_of_node? hn', children_of_node? hn, hchildren]
      · rw [children, children, hsame p hpid]
    have hkind : d'.tagName? c = d.tagName? c ∧ d'.text? c = d.text? c := by
      by_cases hcid : c = id
      · rw [hcid]
        exact ⟨htag, htext⟩
      · rw [tagName?, tagName?, Document.text?, Document.text?, hsame c hcid]
        exact ⟨rfl, rfl⟩
    rw [hkids] at hc
    rw [Document.directive?, hkind.1, hkind.2]
    exact h.stray p c hp hc hnot

/-- A note is put on what lasts only where it is the source that it names. -/
theorem setNote {key value : String} (h : d₀.Retains s runs d)
    (hset : d.setNote id key value = .ok d') (hkey : d₀.Lasts s runs id →
      (key = textSource → d₀.Refills id) ∧
      (d₀.directive? s id = none → key = attributeSource s.generatedAttribute →
        value ≠ "" ∧ d₀.attribute? id s.generatedAttribute = some value)) :
    d₀.Retains s runs d' := by
  obtain ⟨n, hn, hn', -, hsame⟩ := setNote_eq_ok hset
  have hkind : (d'.node? id).map Node.kind = (d.node? id).map Node.kind := by
    rw [hn', hn]
    rfl
  have hattributes := attributes_congr hkind
  have hnote := note?_setNote hset
  refine h.of_content (h.sound.setNote hset) hsame hn hn' rfl rfl (tagName?_congr hkind)
    (text?_congr hkind) fun hid => ⟨fun hplain => ?_, fun hmark => ?_, fun hrefills => ?_⟩
  · have hsource := (h.held id hid).source hplain
    rw [attribute?, hattributes, ← attribute?]
    by_cases hgenerated : key = attributeSource s.generatedAttribute
    · obtain ⟨hne, hvalue⟩ := (hkey hid).2 hplain hgenerated
      rw [hvalue, Option.map_eq_some_iff] at hsource ⊢
      obtain ⟨current, hcurrent, -⟩ := hsource
      refine ⟨current, hcurrent, ?_⟩
      rw [sourceOr, hnote, if_pos hgenerated]
      exact if_neg hne
    · rw [← hsource]
      congr 1
      funext current
      rw [sourceOr, sourceOr, hnote, if_neg hgenerated]
  · rw [isGenerated, attribute?, hattributes] at hmark
    exact (h.held id hid).mark hmark
  · rw [hnote, if_neg fun htext => hrefills ((hkey hid).1 htext)]
    exact (h.held id hid).textNote hrefills

/-- The mark of generated nodes is set on what lasts only where a run makes it look so, and to what
comes from its source. -/
theorem setAttribute {name value : String} (h : d₀.Retains s runs d)
    (hset : d.setAttribute id name value = .ok d') (hname : d₀.Lasts s runs id →
      name = s.generatedAttribute → (value = "true" → d₀.Feigns s runs id) ∧
      (d₀.directive? s id = none → d₀.attribute? id name =
        some (d.sourceOr id (attributeSource name) value))) :
    d₀.Retains s runs d' := by
  obtain ⟨-, tag, attributes, n, hn, hkind, hn', -, hsame⟩ := setAttribute_eq_ok hset
  obtain ⟨kind, parent, children, notes⟩ := n
  obtain rfl : kind = .element tag attributes := hkind
  have hattribute := attribute?_setAttribute hset
  have hsource : ∀ key, d'.sourceOr id key = d.sourceOr id key := fun key => by
    funext current
    rw [sourceOr, sourceOr, note?_setAttribute hset]
  refine h.of_content (h.sound.setAttribute hset) hsame hn hn' rfl rfl ?_ ?_
    fun hid => ⟨fun hplain => ?_, fun hmark => ?_, fun hrefills => ?_⟩
  · rw [tagName?, tagName?, hn', hn]
    rfl
  · rw [Document.text?, Document.text?, hn', hn]
    rfl
  · rw [hattribute, hsource]
    split
    · next hgenerated =>
      subst hgenerated
      exact ((hname hid rfl).2 hplain).symm
    · exact (h.held id hid).source hplain
  · rw [isGenerated, hattribute] at hmark
    split at hmark
    · next hgenerated => exact (hname hid hgenerated).1 (by simpa using hmark)
    · exact (h.held id hid).mark hmark
  · rw [note?_setAttribute hset]
    exact (h.held id hid).textNote hrefills

end Retains

end

end Document
end LiveMarkup
