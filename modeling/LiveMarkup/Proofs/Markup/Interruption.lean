import LiveMarkup.Proofs.Markup.Cutting
import LiveMarkup.Proofs.Markup.Nesting

/-! Markup that is interrupted by a piece which leaves nothing, a comment perhaps. Its events are
the same, with one for the piece among them; where the piece stands in a text there are two texts
for it, whose contents are the two parts of the content. So what the events read as is the same row,
once its texts are joined. -/
namespace LiveMarkup.Markup

variable {length offset start position : Nat} {c : Char} {s t a x name : List Char}

theorem entity_start (h : entity start name = .ok c) (start' : Nat) :
    entity start' name = .ok c := by
  unfold entity at h ⊢
  split
  · exact h
  · cases hnamed : namedEntity? (String.ofList name) <;> simp_all

theorem map_eq_ok_iff {α β ε : Type} {r : Except ε α} {f : α → β} {b : β} :
    f <$> r = .ok b ↔ ∃ a, r = .ok a ∧ b = f a := by
  cases r <;> simp [Functor.map, Except.map, eq_comm]

/-- What a text means does not depend on what comes behind it. -/
theorem unescapeFrom_append (h : unescapeFrom length offset s = .ok a) (length' offset' : Nat)
    (t : List Char) : ∃ next,
      unescapeFrom length' offset' (s ++ t) = (a ++ ·) <$> unescapeFrom length' next t := by
  fun_induction unescapeFrom length offset s generalizing a offset' with
  | case1 =>
    cases h
    exact ⟨offset', by simp⟩
  | case2 => cases h
  | case3 offset rest tail hdrop hlt name d hentity =>
    rename_i ih
    obtain ⟨a, ha, rfl⟩ := map_eq_ok_iff.1 h
    have hname : name.all isNameChar = true := List.all_takeWhile
    obtain ⟨next, hreference⟩ := unescapeFrom_reference length' offset' name (tail ++ t) hname
      (entity_start hentity)
    obtain ⟨next', hnext⟩ := ih ha next
    have hrest : rest = name ++ ';' :: tail := by
      rw [← hdrop]
      exact (List.takeWhile_append_dropWhile ..).symm
    refine ⟨next', ?_⟩
    rw [hrest, List.cons_append, List.append_assoc, List.cons_append, ← List.cons_append,
      hreference, hnext]
    exact (comp_map (a ++ ·) (d :: ·) _).symm
  | case4 => cases h
  | case5 offset c rest hamp ih =>
    obtain ⟨a, ha, rfl⟩ := map_eq_ok_iff.1 h
    obtain ⟨next, hnext⟩ := ih ha (offset' + c.utf8Size)
    refine ⟨next, ?_⟩
    rw [List.cons_append, unescapeFrom, if_neg hamp, hnext]
    exact (comp_map (a ++ ·) (c :: ·) _).symm

/-- The second part of a text whose first part is valid means what is left. -/
theorem exists_unescape_of_append (hs : unescape s = .ok a) (h : unescape (s ++ t) = .ok x) :
    ∃ b, unescape t = .ok b ∧ x = a ++ b := by
  obtain ⟨next, hwhole⟩ := unescapeFrom_append hs (utf8Length (s ++ t)) 0 t
  obtain ⟨b, hb, rfl⟩ := map_eq_ok_iff.1 (hwhole.symm.trans h)
  obtain ⟨next', hpart⟩ := unescapeFrom_append hb (utf8Length t) 0 []
  refine ⟨b, ?_, rfl⟩
  rw [List.append_nil] at hpart
  rw [unescape, hpart, unescapeFrom]
  simp [Functor.map, Except.map]

variable {e : Event} {events events' before after : List Located} {row : List Tree}

/-- The same events with pieces among them that leave nothing, and with texts cut in two by such
pieces. Positions do not matter. -/
inductive Interrupted : List Located → List Located → Prop
  | nil : Interrupted [] []
  | same {position position' : Nat} {e : Event} {events events' : List Located}
      (h : Interrupted events events') :
      Interrupted (⟨position, e⟩ :: events) (⟨position', e⟩ :: events')
  | skipped {position' : Nat} {events events' : List Located} (h : Interrupted events events') :
      Interrupted events (⟨position', .skipped⟩ :: events')
  | cut {position position₁ position₂ position₃ : Nat} {s t a b : List Char}
      {events events' : List Located} (hs : unescape s = .ok a) (ht : unescape t = .ok b)
      (hwhole : unescape (s ++ t) = .ok (a ++ b)) (h : Interrupted events events') :
      Interrupted (⟨position, .text (s ++ t)⟩ :: events)
        (⟨position₁, .text s⟩ :: ⟨position₂, .skipped⟩ :: ⟨position₃, .text t⟩ :: events')

namespace Interrupted

theorem append_left (h : Interrupted events events') (before : List Located) :
    Interrupted (before ++ events) (before ++ events') := by
  induction before with
  | nil => exact h
  | cons e before ih => exact .same ih

/-- A row of events is interrupted part by part. -/
theorem exists_append (h : Interrupted (before ++ after) events') : ∃ before' after',
    events' = before' ++ after' ∧ Interrupted before before' ∧ Interrupted after after' := by
  generalize hwhole : before ++ after = whole at h
  induction h generalizing before with
  | nil =>
    obtain ⟨rfl, rfl⟩ := List.append_eq_nil_iff.1 hwhole
    exact ⟨[], [], rfl, .nil, .nil⟩
  | @same position position' e events events' h ih =>
    cases before with
    | nil =>
      obtain rfl : after = _ := hwhole
      exact ⟨[], _, rfl, .nil, .same h⟩
    | cons first before =>
      obtain ⟨rfl, hrest⟩ := List.cons_eq_cons.1 hwhole
      obtain ⟨before', after', rfl, hbefore, hafter⟩ := ih hrest
      exact ⟨_ :: before', after', rfl, .same hbefore, hafter⟩
  | @skipped position' events events' h ih =>
    obtain ⟨before', after', rfl, hbefore, hafter⟩ := ih hwhole
    exact ⟨_ :: before', after', rfl, .skipped hbefore, hafter⟩
  | @cut position position₁ position₂ position₃ s t a b events events' hs ht htext h ih =>
    cases before with
    | nil =>
      obtain rfl : after = _ := hwhole
      exact ⟨[], _, rfl, .nil, .cut hs ht htext h⟩
    | cons first before =>
      obtain ⟨rfl, hrest⟩ := List.cons_eq_cons.1 hwhole
      obtain ⟨before', after', rfl, hbefore, hafter⟩ := ih hrest
      exact ⟨_ :: _ :: _ :: before', after', rfl, .cut hs ht htext hbefore, hafter⟩

/-- What becomes of a single event: some pieces come before it, and it stays or it is cut. -/
theorem exists_cons (h : Interrupted (⟨position, e⟩ :: events) events') :
    ∃ pieces first rest, events' = pieces ++ (first ++ rest) ∧ Nests pieces [] ∧
      Interrupted events rest ∧ ((∃ position', first = [⟨position', e⟩]) ∨
        ∃ position₁ position₂ position₃ s t a b, e = .text (s ++ t) ∧ unescape s = .ok a ∧
          unescape t = .ok b ∧ unescape (s ++ t) = .ok (a ++ b) ∧
          first = [⟨position₁, .text s⟩, ⟨position₂, .skipped⟩, ⟨position₃, .text t⟩]) := by
  generalize hwhole : (⟨position, e⟩ : Located) :: events = whole at h
  induction h with
  | nil => cases hwhole
  | same h =>
    cases hwhole
    exact ⟨[], _, _, rfl, .nil, h, Or.inl ⟨_, rfl⟩⟩
  | skipped h ih =>
    obtain ⟨pieces, first, rest, rfl, hpieces, hrest, hfirst⟩ := ih hwhole
    exact ⟨_ :: pieces, first, rest, rfl, .skipped hpieces, hrest, hfirst⟩
  | cut hs ht htext h =>
    cases hwhole
    exact ⟨[], _, _, rfl, .nil, h, Or.inr ⟨_, _, _, _, _, _, _, rfl, hs, ht, htext, rfl⟩⟩

/-- An event that is no text is not cut. -/
theorem exists_cons_of_ne (h : Interrupted (⟨position, e⟩ :: events) events')
    (he : ∀ raw, e ≠ .text raw) : ∃ pieces position' rest,
      events' = pieces ++ ⟨position', e⟩ :: rest ∧ Nests pieces [] ∧ Interrupted events rest := by
  obtain ⟨pieces, first, rest, rfl, hpieces, hrest,
    ⟨position', rfl⟩ | ⟨_, _, _, s, t, _, _, htext, -⟩⟩ := h.exists_cons
  · exact ⟨pieces, position', rest, rfl, hpieces, hrest⟩
  · exact absurd htext (he _)

theorem nests_nil (h : Interrupted [] events') : Nests events' [] := by
  generalize hwhole : [] = whole at h
  induction h with
  | nil => exact .nil
  | skipped h ih => exact .skipped (ih hwhole)
  | same => cases hwhole
  | cut => cases hwhole

end Interrupted

theorem Nests.append {row' : List Tree} (h : Nests before row) (h' : Nests after row') :
    Nests (before ++ after) (row ++ row') := by
  induction h with
  | nil => exact h'
  | text hraw h ih => exact .text hraw ih
  | data h ih => exact .data ih
  | skipped h ih => exact .skipped ih
  | empty htag h ih => exact .empty htag ih
  | element htag hname hinner h ihinner ih =>
    rw [List.append_assoc]
    exact .element htag hname hinner ih

/-- Interrupted events read as a row that is the same once it is joined. -/
theorem Nests.interrupted (h : Nests events row) (hevents : Interrupted events events') :
    ∃ row', Nests events' row' ∧
      ∀ gathered, Tree.joinedAll gathered row' = Tree.joinedAll gathered row := by
  induction h generalizing events' with
  | nil => exact ⟨[], hevents.nests_nil, fun _ => rfl⟩
  | @text position raw content events row hraw h ih =>
    obtain ⟨pieces, first, rest, rfl, hpieces, hrest, hfirst⟩ := hevents.exists_cons
    obtain ⟨row', hrow', hjoined⟩ := ih hrest
    obtain ⟨position', rfl⟩ | ⟨_, _, _, s, t, a, b, htext, hs, ht, hwhole, rfl⟩ := hfirst
    · exact ⟨_, hpieces.append (.text hraw hrow'), fun gathered => hjoined _⟩
    · cases htext
      cases hraw.symm.trans hwhole
      refine ⟨_, hpieces.append (.text hs (.skipped (.text ht hrow'))), fun gathered => ?_⟩
      simp only [List.nil_append, Tree.joinedAll, hjoined, String.ofList_append,
        String.append_assoc]
  | @data position content events row h ih =>
    obtain ⟨pieces, position', rest, rfl, hpieces, hrest⟩ := hevents.exists_cons_of_ne (by simp)
    obtain ⟨row', hrow', hjoined⟩ := ih hrest
    exact ⟨_, hpieces.append (.data hrow'), fun gathered => hjoined _⟩
  | @skipped position events row h ih =>
    obtain ⟨pieces, position', rest, rfl, hpieces, hrest⟩ := hevents.exists_cons_of_ne (by simp)
    obtain ⟨row', hrow', hjoined⟩ := ih hrest
    exact ⟨_, hpieces.append (.skipped hrow'), hjoined⟩
  | @empty position content tag attributes events row htag h ih =>
    obtain ⟨pieces, position', rest, rfl, hpieces, hrest⟩ := hevents.exists_cons_of_ne (by simp)
    obtain ⟨row', hrow', hjoined⟩ := ih hrest
    refine ⟨_, hpieces.append (.empty htag hrow'), fun gathered => ?_⟩
    simp [Tree.joinedAll, hjoined]
  | @element position position' content name tag attributes inner events children row htag hname
      hinner h ihinner ih =>
    obtain ⟨pieces, open', body, rfl, hpieces, hbody⟩ := hevents.exists_cons_of_ne (by simp)
    obtain ⟨inner', after, rfl, hinner', hafter⟩ := hbody.exists_append
    obtain ⟨pieces', close', rest, rfl, hpieces', hrest⟩ := hafter.exists_cons_of_ne (by simp)
    obtain ⟨children', hchildren, hjoinedChildren⟩ := ihinner hinner'
    obtain ⟨row', hrow', hjoined⟩ := ih hrest
    have helement : Nests
        (⟨open', .opening content⟩ :: (inner' ++ pieces') ++ ⟨close', .closing name⟩ :: rest)
        (.element tag attributes (children' ++ []) :: row') :=
      .element htag hname (hchildren.append hpieces') hrow'
    refine ⟨_, hpieces.append (by simpa using helement), fun gathered => ?_⟩
    simp [Tree.joinedAll, Tree.joined, hjoined, hjoinedChildren]

variable {piece tail u v body rest : List Char}

/-- Behind a `<`, a piece that leaves nothing wherever it stands. -/
def PassedOver (piece : List Char) : Prop :=
  ∀ position t, nextEvent position '<' (piece ++ t) = .ok (.skipped, t)

/-- From another position on the events are the same. -/
theorem interrupted_position (h : (eventsFrom position s).2 = none) (position' : Nat) :
    (eventsFrom position' s).2 = none ∧
      Interrupted (eventsFrom position s).1 (eventsFrom position' s).1 := by
  obtain ⟨n, hn⟩ : ∃ n, s.length = n := ⟨_, rfl⟩
  induction n using Nat.strong_induction_on generalizing position position' s with
  | _ n ih =>
    subst hn
    cases s with
    | nil => exact ⟨by rw [eventsFrom_nil], by rw [eventsFrom_nil, eventsFrom_nil]; exact .nil⟩
    | cons c s =>
      obtain ⟨e, rest, hnext⟩ := exists_nextEvent_of_failure h
      obtain ⟨q, hq⟩ := eventsFrom_of_nextEvent hnext
      obtain ⟨q', hq'⟩ := eventsFrom_of_nextEvent (nextEvent_position hnext position')
      rw [hq] at h ⊢
      rw [hq']
      obtain ⟨hnone, hsame⟩ := ih rest.length (Nat.lt_succ_of_le (nextEvent_length hnext)) h q' rfl
      exact ⟨hnone, .same hsame⟩

theorem eventsFrom_text (position : Nat) (hs : '<' ∉ s) (hne : s ≠ [])
    (hrest : rest = [] ∨ ∃ t, rest = '<' :: t) : ∃ next, eventsFrom position (s ++ rest) =
      (⟨position, .text s⟩ :: (eventsFrom next rest).1, (eventsFrom next rest).2) := by
  obtain ⟨c, raw, rfl⟩ := List.exists_cons_of_ne_nil hne
  exact eventsFrom_of_nextEvent (nextEvent_text position hs hrest)

/-- A markup is a text, which may be empty, and what begins with a tag, if anything does. -/
theorem exists_text_append (s : List Char) : ∃ t rest, s = t ++ rest ∧ '<' ∉ t ∧
    (rest = [] ∨ ∃ body, rest = '<' :: body) := by
  by_cases hmem : '<' ∈ s
  · obtain ⟨t, body, rfl, ht⟩ := List.eq_append_cons_of_mem hmem
    exact ⟨t, _, rfl, ht, Or.inr ⟨body, rfl⟩⟩
  · exact ⟨s, [], (List.append_nil s).symm, hmem, Or.inl rfl⟩

/-- Between a text, which may be empty, and what follows it. -/
theorem interrupted_text (hpiece : PassedOver piece) (htail : '<' ∉ tail)
    (hunescape : ∃ a, unescape tail = .ok a)
    (hvalid : ∀ e ∈ (eventsFrom position (tail ++ v)).1, e.event.isValid = true)
    (h : (eventsFrom position (tail ++ v)).2 = none) :
    (eventsFrom position (tail ++ '<' :: (piece ++ v))).2 = none ∧
      Interrupted (eventsFrom position (tail ++ v)).1
        (eventsFrom position (tail ++ '<' :: (piece ++ v))).1 := by
  by_cases hne : tail = []
  · subst hne
    obtain ⟨q, hq⟩ := eventsFrom_of_nextEvent (hpiece position v)
    obtain ⟨hnone, hsame⟩ := interrupted_position h q
    rw [List.nil_append, List.nil_append, hq]
    exact ⟨hnone, .skipped hsame⟩
  obtain ⟨q, hq⟩ := eventsFrom_text position htail hne (Or.inr ⟨piece ++ v, rfl⟩)
  obtain ⟨q₁, hq₁⟩ := eventsFrom_of_nextEvent (hpiece q v)
  rw [hq, hq₁]
  obtain ⟨t, rest, rfl, ht, hrest⟩ := exists_text_append v
  have hmem : '<' ∉ tail ++ t := by simp [htail, ht]
  obtain ⟨q₂, hq₂⟩ := eventsFrom_text position hmem (by simp [hne]) hrest
  rw [List.append_assoc] at hq₂
  rw [hq₂] at hvalid h ⊢
  by_cases hnil : t = []
  · subst hnil
    obtain ⟨hnone, hsame⟩ := interrupted_position h q₁
    rw [List.nil_append, List.append_nil]
    exact ⟨hnone, .same (.skipped hsame)⟩
  · obtain ⟨q₃, hq₃⟩ := eventsFrom_text q₁ ht hnil hrest
    obtain ⟨hnone, hsame⟩ := interrupted_position h q₃
    obtain ⟨x, hx⟩ := Event.isValid_text_iff.1 (hvalid _ (List.mem_cons_self ..))
    obtain ⟨a, ha⟩ := hunescape
    obtain ⟨b, hb, rfl⟩ := exists_unescape_of_append ha hx
    rw [hq₃]
    exact ⟨hnone, .cut ha hb hx hsame⟩

/-- Between a markup that is valid as far as it goes, perhaps with open elements, and what follows
it. -/
theorem interrupted_eventsFrom (hpiece : PassedOver piece) (hu : (eventsFrom position u).2 = none)
    (huvalid : ∀ e ∈ (eventsFrom position u).1, e.event.isValid = true)
    (h : (eventsFrom position (u ++ v)).2 = none)
    (hvalid : ∀ e ∈ (eventsFrom position (u ++ v)).1, e.event.isValid = true) :
    (eventsFrom position (u ++ '<' :: (piece ++ v))).2 = none ∧
      Interrupted (eventsFrom position (u ++ v)).1
        (eventsFrom position (u ++ '<' :: (piece ++ v))).1 := by
  obtain ⟨front, tail, events, next, rfl, htail, hpasses⟩ := exists_passes position u hu
  have hunescape : ∃ a, unescape tail = .ok a := by
    by_cases hne : tail = []
    · exact ⟨[], by rw [hne, unescape, unescapeFrom]⟩
    · obtain ⟨q, hq⟩ := eventsFrom_text next htail hne (Or.inl rfl)
      rw [List.append_nil] at hq
      rw [hpasses, hq] at huvalid
      exact Event.isValid_text_iff.1 (huvalid ⟨next, .text tail⟩ (by simp))
  rw [List.append_assoc, hpasses] at h hvalid
  rw [List.append_assoc, hpasses, List.append_assoc, hpasses]
  obtain ⟨hnone, hinterrupted⟩ := interrupted_text hpiece htail hunescape
    (fun e he => hvalid e (List.mem_append_right _ he)) h
  exact ⟨hnone, hinterrupted.append_left events⟩

theorem withoutMark_append (h : s = [] → t.head? ≠ some '\ufeff') :
    withoutMark (s ++ t) = withoutMark s ++ t := by
  cases s with
  | nil => exact withoutMark_of_head? (h rfl)
  | cons c s =>
    by_cases hc : c = '\ufeff'
    · subst hc
      rfl
    · have hhead : ∀ rest : List Char, (c :: rest).head? ≠ some '\ufeff' := fun rest => by
        simpa using hc
      rw [List.cons_append, withoutMark_of_head? (hhead _), withoutMark_of_head? (hhead _),
        List.cons_append]

/-- A piece that leaves nothing when it is all of a markup does so wherever it stands. -/
theorem passedOver_of_eventsFrom
    (h : eventsFrom position ('<' :: body) = ([⟨position, .skipped⟩], none)) :
    PassedOver body := by
  intro position' t
  obtain ⟨e, rest, hnext⟩ := exists_nextEvent_of_failure (congrArg Prod.snd h)
  obtain ⟨next, hevents⟩ := eventsFrom_of_nextEvent hnext
  rw [h, Prod.mk.injEq, List.cons_eq_cons, Located.mk.injEq] at hevents
  obtain ⟨⟨⟨-, rfl⟩, hrest⟩, hfailure⟩ := hevents
  obtain rfl : rest = [] := by
    cases rest with
    | nil => rfl
    | cons c rest =>
      obtain ⟨e, rest', hmore⟩ := exists_nextEvent_of_failure hfailure.symm
      obtain ⟨next', hevents⟩ := eventsFrom_of_nextEvent hmore
      rw [hevents] at hrest
      cases hrest
  obtain ⟨used, rfl, hused⟩ := exists_of_nextEvent hnext
  rw [List.append_nil]
  exact hused position' t

/-- The events of a markup with a piece in it that leaves nothing. -/
theorem interrupted_events {u v piece : String} (hpiece : piece.toList = '<' :: body)
    (hskipped : Markup.events piece = ([⟨0, .skipped⟩], none))
    (hu : (Markup.events u).2 = none)
    (huvalid : ∀ e ∈ (Markup.events u).1, e.event.isValid = true)
    (hmark : u = "" → v.toList.head? ≠ some '\ufeff')
    (h : (Markup.events (u ++ v)).2 = none)
    (hvalid : ∀ e ∈ (Markup.events (u ++ v)).1, e.event.isValid = true) :
    (Markup.events (u ++ piece ++ v)).2 = none ∧
      Interrupted (Markup.events (u ++ v)).1 (Markup.events (u ++ piece ++ v)).1 := by
  have hnone : u.toList = [] → v.toList.head? ≠ some '\ufeff' := fun hnil =>
    hmark (String.toList_eq_nil_iff.1 hnil)
  have hfirst : ('<' :: body).head? ≠ some '\ufeff' := nofun
  have hsecond : ∀ t, ('<' :: (body ++ t)).head? ≠ some '\ufeff' := fun t => nofun
  rw [Markup.events, hpiece, withoutMark_of_head? hfirst] at hskipped
  have hwith : Markup.events (u ++ piece ++ v) =
      eventsFrom 0 (withoutMark u.toList ++ '<' :: (body ++ v.toList)) := by
    rw [Markup.events, ← withoutMark_append fun _ => hsecond _]
    simp [hpiece]
  have hwithout : Markup.events (u ++ v) = eventsFrom 0 (withoutMark u.toList ++ v.toList) := by
    rw [Markup.events, String.toList_append, withoutMark_append hnone]
  rw [hwithout] at h hvalid ⊢
  rw [hwith]
  exact interrupted_eventsFrom (passedOver_of_eventsFrom hskipped) hu huvalid h hvalid

end LiveMarkup.Markup
