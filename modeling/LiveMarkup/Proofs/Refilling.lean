import LiveMarkup.Proofs.Anchor
import LiveMarkup.Proofs.Detection
import LiveMarkup.Proofs.Document.Replacement

/-! Filling an element again and again. What it said before the first filling stays its source, so
that the last filling alone decides what it shows; the values that the fillings put in are never
read. Of all other nodes only the texts of the element change. -/
namespace LiveMarkup

open Placeholder

/-- Elements are no texts. -/
theorem Shape.filter_isElement (kids : List Shape) :
    (kids.filter (!·.isText)).filter isElement = kids.filter isElement := by
  rw [List.filter_filter]
  refine List.filter_congr fun s _ => ?_
  obtain ⟨_, kind, _, _⟩ := s
  cases kind <;> rfl

theorem Shape.TextFilled.filter {source : String} {model : Value} {scope : Scope}
    {kids kids' : List Shape} (h : TextFilled source model scope kids kids') :
    kids'.filter (!·.isText) = kids.filter (!·.isText) := by
  rw [TextFilled] at h
  split at h
  · obtain ⟨new, hnew, rfl⟩ := h
    exact filter_replaceWhere hnew.isText kids
  · rw [h]

namespace Document

/-- Fills a node with one model and scope after another. -/
def fillEach (id : NodeId) (pairs : List (Value × Scope)) : Edit Unit :=
  pairs.forM fun m => fill id m.1 m.2

/-- An element shows what its first content makes of a model. -/
structure ShowsFilled (first d : Document) (id : NodeId) (model : Value) (scope : Scope) :
    Prop where
  attributes : d.attributes id =
    (first.attributes id).map fun a => (a.1, Placeholder.filled a.2 model scope)
  directText : d.directText id = if appearsIn (first.directText id)
    then Text.trim (Placeholder.fill (first.directText id) model scope) else first.directText id

/-- Of all other nodes only the text children of an element have changed. -/
structure SameAround (first d : Document) (id : NodeId) : Prop where
  tagName? : d.tagName? id = first.tagName? id
  parent? : d.parent? id = first.parent? id
  childElements : d.childElements id = first.childElements id
  other : ∀ x ≠ id, first.contains x = true → x ∉ first.childTexts id → d.node? x = first.node? x
  fresh : ∀ x, d.contains x = true → first.contains x = true ∨ x ∈ d.childTexts id

/-- What repeated filling of an element keeps: the sources are what it said at first, and what has
no placeholders still says it. -/
structure Refilled (first : Document) (id : NodeId) (p : Option NodeId) (tag : String)
    (old : List Shape) (d : Document) (attributes notes : List (String × String))
    (kids : List Shape) : Prop where
  sound : d.Sound
  shape : (⟨id, .element tag attributes, notes, kids⟩ : Shape).In d p
  source : noted notes textSource (d.directText id) = first.directText id
  text : appearsIn (first.directText id) = true ∨ d.directText id = first.directText id
  settled : Settled notes attributes
  sources : sourcesOf notes attributes = first.attributes id
  room : appearsIn (first.directText id) = true → d.HasTextRoom id
  others : kids.filter (!·.isText) = old.filter (!·.isText)
  replaces : first.Replaces d (id :: Shape.idsAll old) (id :: Shape.idsAll kids)

variable {first d : Document} {id : NodeId} {p : Option NodeId} {tag : String}
  {kind : NodeKind} {attributes attributes' notes notes' : List (String × String)}
  {old kids : List Shape} {x : NodeId}

theorem childTexts_ne_nil (h : appearsIn (d.directText id) = true) : d.childTexts id ≠ [] := by
  intro hnil
  rw [childTexts, List.filter_eq_nil_iff] at hnil
  have htexts : (d.children id).filterMap d.text? = [] :=
    List.filterMap_eq_nil_iff.2 fun c hc => by simpa using hnil c hc
  rw [directText, htexts] at h
  cases h

/-- Before the first filling, nothing is noted. -/
theorem Sound.refilled (hd : d.Sound)
    (hs : (⟨id, .element tag attributes, [], kids⟩ : Shape).In d p) :
    Refilled d id p tag kids d attributes [] kids where
  sound := hd
  shape := hs
  source := rfl
  text := Or.inr rfl
  settled _ _ := Or.inr rfl
  sources := by
    rw [attributes_of_shape hs]
    exact List.map_id attributes
  room h := Or.inr (childTexts_ne_nil h)
  others := rfl
  replaces := .refl d _

namespace Refilled

/-- One more filling succeeds, and the element shows its sources. -/
theorem fill (h : Refilled first id p tag old d attributes notes kids) (model : Value)
    (scope : Scope) : ∃ d' attributes' notes' kids', Document.fill id model scope d = .ok ⟨⟩ d' ∧
      Refilled first id p tag old d' attributes' notes' kids' ∧
      ShowsFilled first d' id model scope := by
  have hsource := h.source
  rw [h.sound.directText_eq h.shape] at hsource
  obtain ⟨happears, hfull, -⟩ | ⟨d', kids', hok, hd', hroom, hkids, hs', hrep⟩ :=
    h.sound.fill_cases h.shape hsource model scope
  · exact absurd (h.room happears) hfull
  have hnodup := h.sound.nodup_keys id
  rw [attributes_of_shape h.shape] at hnodup
  obtain ⟨hattributes, hsources, hsettled, hnoted⟩ :=
    h.settled.fill_element hnodup (first.directText id) model scope
  rw [h.sources] at hattributes hsources
  have htext := directText_of_textFilled h.shape hkids hs'
  have hkept : appearsIn (first.directText id) = true ∨ d'.directText id = d.directText id :=
    or_iff_not_imp_left.2 fun hnot => htext.trans (if_neg hnot)
  have hshows : ShowsFilled first d' id model scope := by
    refine ⟨(attributes_of_shape hs').trans hattributes, htext.trans ?_⟩
    split
    · rfl
    · next hnot => exact h.text.resolve_left hnot
  refine ⟨d', _, _, kids', hok, ⟨hd', hs', hnoted _ ?_, ?_, hsettled, hsources,
    fun happears => hroom (h.room happears), hkids.filter.trans h.others, h.replaces.trans hrep⟩,
    hshows⟩
  · exact hkept.imp_right fun heq => by rw [heq, h.source]
  · rcases hkept with happears | heq
    · exact Or.inl happears
    · exact h.text.imp_right heq.trans

/-- The last of several fillings decides what the element shows. -/
theorem fillEach (h : Refilled first id p tag old d attributes notes kids)
    (before : List (Value × Scope)) (model : Value) (scope : Scope) :
    ∃ d' attributes' notes' kids',
      Document.fillEach id (before ++ [(model, scope)]) d = .ok ⟨⟩ d' ∧
      Refilled first id p tag old d' attributes' notes' kids' ∧
      ShowsFilled first d' id model scope := by
  induction before generalizing d attributes notes kids with
  | nil =>
    obtain ⟨d', attributes', notes', kids', hok, hrest⟩ := h.fill model scope
    exact ⟨d', attributes', notes', kids', bind_eq_of_ok hok, hrest⟩
  | cons m before ih =>
    obtain ⟨d₁, attributes₁, notes₁, kids₁, hok₁, h₁, -⟩ := h.fill m.1 m.2
    obtain ⟨d', attributes', notes', kids', hok, hrest⟩ := ih h₁
    exact ⟨d', attributes', notes', kids', (bind_eq_of_ok hok₁).trans hok, hrest⟩

theorem sameAround (h : Refilled first id p tag old d attributes notes kids) (hfirst : first.Sound)
    (hold : (⟨id, .element tag attributes', notes', old⟩ : Shape).In first p) :
    SameAround first d id := by
  have hkids : ∀ s ∈ old.filter (!·.isText), s.In first (some id) ∧ s.In d (some id) := by
    intro s hs
    have hs' := h.others.symm ▸ hs
    exact ⟨Shape.inAll_iff.1 hold.2 s (List.mem_filter.1 hs).1,
      Shape.inAll_iff.1 h.shape.2 s (List.mem_filter.1 hs').1⟩
  refine ⟨?_, h.shape.parent?.trans hold.parent?.symm, ?_, fun x hxid hlive hx => ?_,
    fun x hlive => ?_⟩
  · rw [Document.tagName?, Document.tagName?, h.shape.1, hold.1]
    rfl
  · rw [childElements_eq h.shape, childElements_eq hold, ← Shape.filter_isElement kids, h.others,
      Shape.filter_isElement]
  · by_cases hmem : x ∈ Shape.idsAll old
    · obtain htext | ⟨s, hs, hxs⟩ := hfirst.mem_idsAll_cases hold hmem
      · exact absurd htext hx
      · obtain ⟨hin, hin'⟩ := hkids s hs
        exact hin.node?_eq hin' hxs
    · obtain ⟨n, hn⟩ := contains_iff.1 hlive
      have hnot : x ∉ id :: Shape.idsAll old := fun h => (List.mem_cons.1 h).elim hxid hmem
      rw [hn, h.replaces.node?_eq hn hnot]
  · obtain ⟨n, hn⟩ := contains_iff.1 hlive
    by_cases hnew : x ∈ id :: Shape.idsAll kids
    · obtain rfl | hmem := List.mem_cons.1 hnew
      · exact Or.inl (contains_iff.2 ⟨_, hold.1⟩)
      · obtain htext | ⟨s, hs, hxs⟩ := h.sound.mem_idsAll_cases h.shape hmem
        · exact Or.inr htext
        · exact Or.inl ((hkids s (h.others ▸ hs)).1.contains hxs)
    · have hsame : x ∉ id :: Shape.idsAll old := fun hmem => by
        cases hn.symm.trans ((h.replaces.gone x hmem).resolve_left hnew)
      exact Or.inl (contains_iff.2 ⟨n, (h.replaces.same x hsame hnew).symm.trans hn⟩)

end Refilled

/-- However often an element of a document that was read is filled, it shows what a single filling
with the last model and scope would show of a copy: its attributes and its text with each
placeholder of theirs filled once. Filling never fails, and of all other nodes only the texts of
the element change. -/
theorem fillEach_last {tree : TreeId} {text : String} (hread : read tree text = .ok d)
    (htag : d.tagName? id = some tag) (before : List (Value × Scope)) (model : Value)
    (scope : Scope) (tree' : TreeId) : ∃ d' fresh,
      fillEach id (before ++ [(model, scope)]) d = .ok ⟨⟩ d' ∧
      Document.fill id model scope (d.copy tree') = .ok ⟨⟩ fresh ∧
      d'.attributes id = fresh.attributes id ∧ d'.directText id = fresh.directText id ∧
      ShowsFilled d d' id model scope ∧ SameAround d d' id := by
  have hd := read_unnoted hread
  obtain ⟨attributes, notes, kids, hs⟩ := hd.sound.exists_element htag
  obtain rfl : notes = [] := hd.noteless id _ hs.1
  have hcopy : (⟨id, .element tag attributes, [], kids⟩ : Shape).In (d.copy tree') (d.parent? id) :=
    hs.congr fun x _ => node?_copy d tree' x
  obtain ⟨d', _, _, _, hok, hrefilled, hshows⟩ :=
    (hd.sound.refilled hs).fillEach before model scope
  obtain ⟨fresh, _, _, _, hokFresh, -, hfresh⟩ :=
    ((hd.sound.copy tree').refilled hcopy).fill model scope
  exact ⟨d', fresh, hok, hokFresh, hshows.attributes.trans hfresh.attributes.symm,
    hshows.directText.trans hfresh.directText.symm, hshows, hrefilled.sameAround hd.sound hs⟩

/-- A value that looks like a placeholder stands where it was put until the next filling. -/
theorem fillEach_last_lookalike :
    let text := "<p class=\"\x7b\x7bc\x7d\x7d\">\x7b\x7bname\x7d\x7d<b>y</b></p>"
    let first : Value × Scope := (.map [("name", .string ""), ("c", .string "a")], .empty)
    let last : Value := .map [("name", .string "\x7b\x7bc\x7d\x7d"), ("c", .string "b")]
    ∃ d d', read ⟨0⟩ text = .ok d ∧ d.tagName? ⟨1, 0⟩ = some "p" ∧
      fillEach ⟨1, 0⟩ ([first] ++ [(last, .empty)]) d = .ok ⟨⟩ d' ∧
      d'.attributes ⟨1, 0⟩ = [("class", "b")] ∧ d'.directText ⟨1, 0⟩ = "\x7b\x7bc\x7d\x7d" ∧
      SameAround d d' ⟨1, 0⟩ := by
  intro text first last
  have hrun : (read ⟨0⟩ text).toOption.any (fun d => d.tagName? ⟨1, 0⟩ = some "p" &&
      d.attributes ⟨1, 0⟩ = [("class", "\x7b\x7bc\x7d\x7d")] &&
      d.directText ⟨1, 0⟩ = "\x7b\x7bname\x7d\x7d") = true := by
    decide +kernel
  obtain ⟨d, hread, htest⟩ := exists_of_toOption_any hrun
  simp only [Bool.and_eq_true, decide_eq_true_eq] at htest
  obtain ⟨⟨htag, hattributes⟩, htext⟩ := htest
  obtain ⟨d', -, hok, -, -, -, hshows, haround⟩ :=
    fillEach_last hread htag [first] last .empty ⟨1⟩
  refine ⟨d, d', hread, htag, hok, ?_, ?_, haround⟩
  · rw [hshows.attributes, hattributes]
    decide +kernel
  · rw [hshows.directText, htext]
    decide +kernel

end Document
end LiveMarkup
