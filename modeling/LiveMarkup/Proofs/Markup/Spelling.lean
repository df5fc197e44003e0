import LiveMarkup.Proofs.Denotation
import LiveMarkup.Proofs.Markup.Tag

/-! The events of a written row of trees. Markup cannot tell an empty text from none nor two texts
side by side from one, so its events spell the row with such texts put together. -/
namespace LiveMarkup

open Markup

/-- Names that may be written: the tag and the attribute names are valid, no name comes twice. -/
structure Markup.ValidTag (tag : String) (attributes : List (String × String)) : Prop where
  tag : isTagName tag = true
  nodup : (Entries.keys attributes).Nodup
  names : ∀ name ∈ Entries.keys attributes, isAttributeName name = true

namespace Tree

mutual

/-- All tags in a tree may be written. -/
def WellNamed : Tree → Prop
  | text _ => True
  | element tag attributes children => ValidTag tag attributes ∧ WellNamedAll children

def WellNamedAll : List Tree → Prop
  | [] => True
  | tree :: rest => tree.WellNamed ∧ WellNamedAll rest

end

mutual

/-- A tree whose rows are all joined. -/
def joined : Tree → Tree
  | text content => text content
  | element tag attributes children => element tag attributes (joinedAll "" children)

/-- A row without empty texts, and with texts side by side put together; the text that has been
gathered so far comes in front. -/
def joinedAll (gathered : String) : List Tree → List Tree
  | [] => textTrees gathered
  | text content :: rest => joinedAll (gathered ++ content) rest
  | tree :: rest => textTrees gathered ++ tree.joined :: joinedAll "" rest

end

end Tree

namespace Markup

variable {position : Nat} {c : Char} {raw content rest s : List Char} {e : Event} {tag : String}
  {attributes : List (String × String)}

/-- Events that spell a row of trees. Two texts never come side by side. -/
inductive Spells : List Located → List Tree → Prop
  | nil : Spells [] []
  | text {position : Nat} {raw : List Char} {content : String} {events : List Located}
      {row : List Tree} (hraw : unescape raw = .ok content.toList) (hcontent : content ≠ "")
      (hrow : ∀ next ∈ row.head?, next.content? = none) (h : Spells events row) :
      Spells (⟨position, .text raw⟩ :: events) (.text content :: row)
  | empty {position : Nat} {tag : String} {attributes : List (String × String)}
      {events : List Located} {row : List Tree} (htag : ValidTag tag attributes)
      (h : Spells events row) :
      Spells (⟨position, .empty (tagContent tag attributes)⟩ :: events)
        (.element tag attributes [] :: row)
  | element {position position' : Nat} {tag : String} {attributes : List (String × String)}
      {inner events : List Located} {children row : List Tree} (htag : ValidTag tag attributes)
      (hinner : Spells inner children) (h : Spells events row) :
      Spells (⟨position, .opening (tagContent tag attributes)⟩ :: inner ++
        ⟨position', .closing tag.toList⟩ :: events) (.element tag attributes children :: row)

theorem eventsFrom_nil (position : Nat) : eventsFrom position [] = ([], none) := by
  rw [eventsFrom]

/-- The events of a text are the first one and those of what follows it. -/
theorem eventsFrom_cons (h : nextEvent position c s = .ok (e, rest)) :
    eventsFrom position (c :: s) =
      let next := position + (utf8Length (c :: s) - utf8Length rest)
      (⟨position, e⟩ :: (eventsFrom next rest).1, (eventsFrom next rest).2) := by
  rw [eventsFrom]
  split
  · next herror =>
    rw [h] at herror
    cases herror
  · next hok =>
    rw [h] at hok
    cases hok
    rfl

theorem eventsFrom_of_nextEvent (h : nextEvent position c s = .ok (e, rest)) :
    ∃ position', eventsFrom position (c :: s) =
      (⟨position, e⟩ :: (eventsFrom position' rest).1, (eventsFrom position' rest).2) :=
  ⟨_, eventsFrom_cons h⟩

/-- A text goes on up to the next tag or to the end. -/
theorem nextEvent_text (position : Nat) (hraw : '<' ∉ c :: raw)
    (hrest : rest = [] ∨ ∃ t, rest = '<' :: t) :
    nextEvent position c (raw ++ rest) = .ok (.text (c :: raw), rest) := by
  rw [List.mem_cons, not_or] at hraw
  have hmem : ∀ d ∈ raw, (d != '<') = true := fun d hd => bne_iff_ne.2 fun h => hraw.2 (h ▸ hd)
  rw [nextEvent, if_neg (Ne.symm hraw.1), List.takeWhile_append_of_pos hmem,
    List.dropWhile_append_of_pos hmem]
  rcases hrest with rfl | ⟨t, rfl⟩ <;> simp

/-- A tag that begins with none of the marks of other events is cut at its end. -/
theorem nextEvent_tag (position : Nat) (hs : Whole (c :: s)) (hdeclaration : c ≠ '!')
    (hinstruction : c ≠ '?') (rest : List Char) :
    nextEvent position '<' (c :: s ++ '>' :: rest) = .ok (tagEvent (c :: s), rest) := by
  have hcut := hs.cutTag_eq rest
  rw [List.cons_append] at hcut ⊢
  rw [nextEvent, if_pos rfl, tag]
  · simp only [hcut]
  · rintro t ⟨⟩
    exact hdeclaration rfl
  · rintro t ⟨⟩
    exact hinstruction rfl

theorem ValidTag.attribute (h : ValidTag tag attributes) :
    ∀ a ∈ attributes, isAttributeName a.1 = true :=
  fun _ ha => h.names _ (List.mem_map_of_mem ha)

theorem ValidTag.exists_tagContent (h : ValidTag tag attributes) :
    ∃ c s, tagContent tag attributes = c :: s ∧ isTagChar c = true := by
  obtain ⟨c, s, htag, hc, -⟩ := isTagName_iff.1 h.tag
  exact ⟨c, s ++ attributes.flatMap Tree.attributeMarkup, by rw [tagContent, htag]; rfl,
    by simp [isTagChar, hc]⟩

/-- The content of a tag ends in a quote or in a character of the name. -/
theorem ValidTag.getLast?_ne (h : ValidTag tag attributes) :
    (tagContent tag attributes).getLast? ≠ some '/' := by
  intro hlast
  rcases List.eq_nil_or_concat attributes with rfl | ⟨attributes', a, rfl⟩
  · have hmem := List.mem_of_getLast? hlast
    rw [tagContent, List.flatMap_nil, List.append_nil] at hmem
    have := isTagChar_of_isTagName h.tag _ hmem
    revert this
    decide
  · have hquote : tagContent tag (attributes'.concat a) =
        (tag.toList ++ attributes'.flatMap Tree.attributeMarkup ++ ' ' :: a.1.toList ++
          '=' :: '"' :: escape true a.2.toList) ++ ['"'] := by
      simp [tagContent, Tree.attributeMarkup]
    rw [hquote, List.getLast?_concat] at hlast
    cases hlast

theorem nextEvent_opening (position : Nat) (h : ValidTag tag attributes) (rest : List Char) :
    nextEvent position '<' (tagContent tag attributes ++ '>' :: rest) =
      .ok (.opening (tagContent tag attributes), rest) := by
  have hwhole := whole_tagContent h.tag h.attribute
  have hlast := h.getLast?_ne
  obtain ⟨c, s, hcontent, hc⟩ := h.exists_tagContent
  rw [hcontent] at hwhole hlast ⊢
  rw [nextEvent_tag position hwhole (ne_of_not hc (by decide)) (ne_of_not hc (by decide)), tagEvent]
  · rw [if_neg hlast]
  · rintro t ⟨⟩
    exact ne_of_not hc (by decide) rfl

theorem nextEvent_empty (position : Nat) (h : ValidTag tag attributes) (rest : List Char) :
    nextEvent position '<' (tagContent tag attributes ++ '/' :: '>' :: rest) =
      .ok (.empty (tagContent tag attributes), rest) := by
  have hslash : Whole ['/'] := whole_singleton (by decide) (by decide) (by decide)
  have hwhole := (whole_tagContent h.tag h.attribute).append hslash
  obtain ⟨c, s, hcontent, hc⟩ := h.exists_tagContent
  rw [hcontent, List.cons_append] at hwhole
  have hnext := nextEvent_tag position hwhole (ne_of_not hc (by decide))
    (ne_of_not hc (by decide)) rest
  rw [hcontent]
  rw [List.cons_append, List.append_assoc] at hnext
  rw [List.cons_append]
  refine hnext.trans ?_
  rw [tagEvent]
  · rw [← List.cons_append, List.getLast?_concat, if_pos rfl, List.dropLast_concat]
  · rintro t ⟨⟩
    exact ne_of_not hc (by decide) rfl

theorem nextEvent_closing (position : Nat) (h : isTagName tag = true) (rest : List Char) :
    nextEvent position '<' ('/' :: tag.toList ++ '>' :: rest) =
      .ok (.closing tag.toList, rest) := by
  have hslash : Whole ['/'] := whole_singleton (by decide) (by decide) (by decide)
  have hname : Whole tag.toList :=
    whole_of_forall fun c hc => whole_of_isTagChar (isTagChar_of_isTagName h c hc)
  rw [nextEvent_tag position (s := tag.toList) (hslash.append hname) (by decide) (by decide),
    tagEvent, closingName]
  obtain ⟨c, s, htag, hc, -⟩ := isTagName_iff.1 h
  have hspace : ∀ d ∈ tag.toList, isSpace d = false := fun d hd =>
    not_isSpace_of_isTagChar (isTagChar_of_isTagName h d hd)
  rw [if_neg (by rw [htag] at hspace ⊢; simp [hspace c])]
  have hreverse : tag.toList.reverse.dropWhile isSpace = tag.toList.reverse := by
    rw [List.dropWhile_eq_self_iff]
    intro hlength
    rw [Bool.not_eq_true]
    exact hspace _ (List.mem_reverse.1 (List.getElem_mem hlength))
  rw [hreverse, List.reverse_reverse]

/-- The events from a text up to where the rest of it begins spell a row. -/
def Yields (s rest : List Char) (row : List Tree) : Prop :=
  ∀ position, ∃ events position', Spells events row ∧ eventsFrom position s =
    (events ++ (eventsFrom position' rest).1, (eventsFrom position' rest).2)

variable {row children : List Tree}

theorem Yields.refl (s : List Char) : Yields s s [] :=
  fun position => ⟨[], position, .nil, rfl⟩

/-- What has been gathered of a text ends before a tag and at the end. -/
theorem Yields.gathered (h : Yields s rest row) (hs : s = [] ∨ ∃ t, s = '<' :: t)
    (hrow : ∀ next ∈ row.head?, next.content? = none) (gathered : String) :
    Yields (escape false gathered.toList ++ s) rest (Tree.textTrees gathered ++ row) := by
  intro position
  by_cases hempty : gathered = ""
  · subst hempty
    exact h position
  have hne : escape false gathered.toList ≠ [] := fun hnil =>
    hempty (String.toList_eq_nil_iff.1 (escape_eq_nil_iff.1 hnil))
  have hraw := unescape_escape false gathered.toList
  have hmem : '<' ∉ escape false gathered.toList := not_mem_escape (Or.inl rfl)
  obtain ⟨c, raw, hcons⟩ := List.exists_cons_of_ne_nil hne
  rw [hcons] at hmem hraw ⊢
  obtain ⟨next, hnext⟩ := eventsFrom_of_nextEvent (nextEvent_text position hmem hs)
  obtain ⟨events, position', hspells, hevents⟩ := h next
  refine ⟨⟨position, .text (c :: raw)⟩ :: events, position', ?_, ?_⟩
  · rw [Tree.textTrees, if_neg hempty]
    exact .text hraw hempty hrow hspells
  · rw [List.cons_append, hnext, hevents, List.cons_append]

theorem Yields.empty (h : Yields s rest row) (htag : ValidTag tag attributes) :
    Yields ('<' :: (tagContent tag attributes ++ '/' :: '>' :: s)) rest
      (.element tag attributes [] :: row) := by
  intro position
  obtain ⟨next, hnext⟩ := eventsFrom_of_nextEvent (nextEvent_empty position htag s)
  obtain ⟨events, position', hspells, hevents⟩ := h next
  refine ⟨⟨position, .empty (tagContent tag attributes)⟩ :: events, position',
    .empty htag hspells, ?_⟩
  rw [hnext, hevents, List.cons_append]

theorem Yields.element (hinner : Yields s ('<' :: '/' :: (tag.toList ++ '>' :: t)) children)
    (h : Yields t rest row) (htag : ValidTag tag attributes) :
    Yields ('<' :: (tagContent tag attributes ++ '>' :: s)) rest
      (.element tag attributes children :: row) := by
  intro position
  obtain ⟨next, hnext⟩ := eventsFrom_of_nextEvent (nextEvent_opening position htag s)
  obtain ⟨inner, close, hchildren, hin⟩ := hinner next
  obtain ⟨next', hnext'⟩ := eventsFrom_of_nextEvent
    (nextEvent_closing close htag.tag t)
  obtain ⟨events, position', hspells, hevents⟩ := h next'
  refine ⟨⟨position, .opening (tagContent tag attributes)⟩ :: inner ++
    ⟨close, .closing tag.toList⟩ :: events, position', .element htag hchildren hspells, ?_⟩
  rw [List.cons_append] at hnext'
  rw [hnext, hin, hnext', hevents]
  simp

/-- A row as it is written, with what has been gathered of a text in front of it, yields the joined
row. -/
theorem yields_joinedAll (row : List Tree) (hrow : Tree.WellNamedAll row) (gathered : String)
    (rest : List Char) (hrest : rest = [] ∨ ∃ t, rest = '<' :: t) :
    Yields (escape false gathered.toList ++ (Tree.markupAll row ++ rest)) rest
      (Tree.joinedAll gathered row) := by
  match row with
  | [] =>
    have := (Yields.refl rest).gathered hrest (by simp) gathered
    rwa [List.append_nil] at this
  | .text content :: row =>
    have ih := yields_joinedAll row hrow.2 (gathered ++ content) rest hrest
    rw [String.toList_append, escape_append, List.append_assoc] at ih
    rw [Tree.markupAll, List.append_assoc]
    exact ih
  | .element tag attributes [] :: row =>
    have ih := yields_joinedAll row hrow.2 "" rest hrest
    have := (ih.empty hrow.1.1).gathered (Or.inr ⟨_, rfl⟩) (by simp [Tree.content?]) gathered
    simpa [Tree.joinedAll, Tree.joined, Tree.textTrees, Tree.markupAll, Tree.markup,
      Tree.tagMarkup, tagContent] using this
  | .element tag attributes (child :: children) :: row =>
    have ih := yields_joinedAll row hrow.2 "" rest hrest
    have ihchildren := yields_joinedAll (child :: children) hrow.1.2 ""
      ('<' :: '/' :: (tag.toList ++ '>' :: (Tree.markupAll row ++ rest))) (Or.inr ⟨_, rfl⟩)
    have := (ihchildren.element ih hrow.1.1).gathered (Or.inr ⟨_, rfl⟩) (by simp [Tree.content?])
      gathered
    simpa [Tree.joinedAll, Tree.joined, Tree.textTrees, Tree.markupAll, Tree.markup,
      Tree.tagMarkup, tagContent] using this

/-- Only a byte-order mark is dropped. -/
theorem withoutMark_of_head? (h : s.head? ≠ some '\ufeff') : withoutMark s = s := by
  rw [withoutMark]
  rintro rest rfl
  exact h rfl

/-- Written trees give events that spell the joined row, unless a byte-order mark is cut off. -/
theorem exists_spells_events (hrow : Tree.WellNamedAll row)
    (hmark : (Tree.markupAll row).head? ≠ some '\ufeff') : ∃ events,
      Spells events (Tree.joinedAll "" row) ∧
      Markup.events (String.ofList (Tree.markupAll row)) = (events, none) := by
  obtain ⟨events, position', hspells, hevents⟩ := yields_joinedAll row hrow "" [] (Or.inl rfl) 0
  refine ⟨events, hspells, ?_⟩
  rw [Markup.events, String.toList_ofList, withoutMark_of_head? hmark]
  simpa [eventsFrom_nil] using hevents

end Markup
end LiveMarkup
