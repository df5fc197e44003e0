import LiveMarkup.Proofs.Document.Drafting

/-! Reading builds the tree of its events: it succeeds when all events are valid and their tags nest,
what it gives then is the row that the events read as, and otherwise the first tag out of place is
the one it names. -/
namespace LiveMarkup

/-- A row that does not end with a text does not show one at its end. -/
theorem Shape.InAll.getLast?_treesAll {d : Document} {q : NodeId} {kids : List Shape}
    (hd : d.Sound) (hkids : InAll d (some q) kids) (hlast : ∀ last ∈ kids.getLast?, last.isText = false) :
    ∀ tree ∈ (Shape.treesAll kids).getLast?, tree.content? = none := by
  rcases List.eq_nil_or_concat kids with rfl | ⟨before, ⟨id, akind, anotes, akids⟩, rfl⟩
  · exact nofun
  rw [List.concat_eq_append] at hkids hlast ⊢
  have ha := (Shape.inAll_append.1 hkids).2.1
  have htext := hlast _ (List.getLast?_concat ..)
  intro tree htree
  rw [Shape.treesAll_append] at htree
  cases akind with
  | root =>
    obtain rfl : id = .root := hd.valid ha.1
    cases hd.parent?_root.symm.trans ha.parent?
  | text content => cases htext
  | element tag attributes =>
    simp only [Shape.treesAll, Shape.trees, List.append_nil, List.getLast?_concat,
      Option.mem_def, Option.some.injEq] at htree
    rw [← htree]
    rfl

namespace Markup

/-- Whether an event may need a slot for a node. -/
def Event.needsSlot : Event → Bool
  | .text _ => true
  | .data _ => true
  | .opening _ => true
  | .empty _ => true
  | .closing _ => false
  | .skipped => false

/-- How many events may need a slot for a node. -/
def slotEvents (events : List Located) : Nat := events.countP (·.event.needsSlot)

end Markup

namespace Draft

open Markup (openNames slotEvents)

variable {draft draft' : Draft} {position : Nat} {e : Markup.Located}
  {events : List Markup.Located} {content : List Char} {tag : String}
  {attributes : List (String × String)} {opened : List String}

/-- The names of the open elements, innermost first. -/
def names (draft : Draft) : List String := draft.openElements.map OpenElement.name

/-- Of some events all before one that needs a slot are taken, and there is none left for it. -/
def StopsFull (draft : Draft) (events : List Markup.Located) : Prop :=
  ∃ before e after draft', events = before ++ e :: after ∧
    before.foldlM Draft.step draft = .ok draft' ∧ e.event.needsSlot = true ∧
    ¬ draft'.document.HasRoom

/-- The document is sound and its open elements are elements of it. -/
structure Ready (draft : Draft) : Prop where
  sound : draft.document.Sound
  opened : ∀ o ∈ draft.openElements, ∃ tag, draft.document.tagName? o.node = some tag

namespace Ready

theorem empty (tree : TreeId) : Ready ⟨.empty tree, []⟩ := ⟨.empty tree, nofun⟩

/-- There is a row for the next node. -/
theorem exists_row (h : draft.Ready) : ∃ p kind notes kids,
    (⟨draft.parent, kind, notes, kids⟩ : Shape).In draft.document p ∧
      ∀ content, kind ≠ .text content := by
  rw [parent]
  split
  · obtain ⟨notes, kids, hs, -⟩ := h.sound.exists_content
    exact ⟨none, .root, notes, kids, hs, nofun⟩
  · next element rest hopen =>
    obtain ⟨tag, htag⟩ := h.opened element (by rw [hopen]; exact List.mem_cons_self ..)
    obtain ⟨attributes, notes, kids, hs⟩ := h.sound.exists_element htag
    exact ⟨_, .element tag attributes, notes, kids, hs, nofun⟩

theorem addText (h : draft.Ready) (content : String) :
    Ends (draft.addText content) (¬ draft.document.HasRoom) fun draft' =>
      draft'.Ready ∧ draft'.names = draft.names ∧
      draft'.document.slots.size ≤ draft.document.slots.size + 1 := by
  by_cases hcontent : content = ""
  · exact Or.inl ⟨draft, by rw [Draft.addText, if_pos hcontent], h, rfl, Nat.le_succ _⟩
  obtain ⟨p, kind, notes, kids, hs, hkind⟩ := h.exists_row
  refine (addText_ends h.sound hs hkind hcontent).mono id ?_
  rintro draft' ⟨hopen, hsize, before, gone, earlier, t, rfl, hgone, hturns⟩
  refine ⟨⟨hturns.sound, fun o ho => ?_⟩, by rw [names, hopen, names], hsize⟩
  obtain ⟨tag, htag⟩ := h.opened o (hopen ▸ ho)
  refine ⟨tag, hturns.tagName?_eq h.sound hs rfl (fun a ha => ?_) htag⟩
  obtain ⟨rfl, -⟩ | ⟨id, notes, rfl⟩ := hgone
  · cases ha
  · rw [List.mem_singleton.1 ha]
    rfl

theorem addElement (h : draft.Ready) (position : Nat)
    (htag : Markup.meantTag? content = some (tag, attributes)) :
    Ends (draft.addElement position content) (¬ draft.document.HasRoom) fun r =>
      r.2.Ready ∧ r.2.openElements = draft.openElements ∧
      r.2.document.tagName? r.1 = some tag ∧
      r.2.document.slots.size ≤ draft.document.slots.size + 1 := by
  obtain ⟨p, kind, notes, kids, hs, hkind⟩ := h.exists_row
  refine (addElement_ends position h.sound hs hkind htag).mono id ?_
  rintro ⟨node, draft'⟩ ⟨hopen, hsize, hturns⟩
  refine ⟨⟨hturns.sound, fun o ho => ?_⟩, hopen, ?_, hsize⟩
  · obtain ⟨tag, htag⟩ := h.opened o (hopen ▸ ho)
    exact ⟨tag, hturns.tagName?_eq h.sound hs (List.append_nil kids).symm nofun htag⟩
  · have hnew := (Shape.inAll_append.1 hturns.in_.2).2.1
    rw [Document.tagName?, hnew.1]
    rfl

/-- A valid event whose tag is in place is taken. -/
theorem step (h : draft.Ready) (hvalid : e.event.isValid = true)
    (hnest : e.event.nest draft.names = some opened) :
    Ends (draft.step e) (e.event.needsSlot = true ∧ ¬ draft.document.HasRoom) fun draft' =>
      draft'.Ready ∧ draft'.names = opened ∧
      draft'.document.slots.size ≤ draft.document.slots.size + e.event.needsSlot.toNat := by
  obtain ⟨position, event⟩ := e
  cases event with
  | text raw =>
    cases hnest
    obtain ⟨content, hraw⟩ := Markup.Event.isValid_text_iff.1 hvalid
    have hstep : draft.step ⟨position, .text raw⟩ = draft.addText (String.ofList content) := by
      simp only [Draft.step, hraw]
    rw [hstep]
    exact (h.addText (String.ofList content)).mono (⟨rfl, ·⟩) fun _ => id
  | data content =>
    cases hnest
    exact (h.addText (String.ofList content)).mono (⟨rfl, ·⟩) fun _ => id
  | skipped =>
    cases hnest
    exact Or.inl ⟨draft, rfl, h, rfl, Nat.le_refl _⟩
  | opening content =>
    cases hnest
    obtain ⟨⟨tag, attributes⟩, htag⟩ := Option.isSome_iff_exists.1 hvalid
    refine (h.addElement position htag).bind (⟨rfl, ·⟩) ?_
    rintro ⟨node, draft'⟩ - ⟨h', hopen, hnode, hsize⟩
    refine Or.inl ⟨_, rfl, ⟨h'.sound, List.forall_mem_cons.2 ⟨⟨tag, hnode⟩, h'.opened⟩⟩, ?_, hsize⟩
    rw [names, List.map_cons, hopen]
    rfl
  | empty content =>
    cases hnest
    obtain ⟨⟨tag, attributes⟩, htag⟩ := Option.isSome_iff_exists.1 hvalid
    refine (h.addElement position htag).bind (⟨rfl, ·⟩) ?_
    rintro ⟨node, draft'⟩ - ⟨h', hopen, -, hsize⟩
    exact Or.inl ⟨_, rfl, h', by rw [names, hopen, names], hsize⟩
  | closing found =>
    obtain ⟨d, openElements⟩ := draft
    cases openElements with
    | nil => cases hnest
    | cons element rest =>
      rw [names, List.map_cons, Markup.Event.nest] at hnest
      split at hnest
      · next hname =>
        cases hnest
        refine Or.inl ⟨⟨d, rest⟩, ?_, ⟨h.sound, fun o ho => ?_⟩, rfl, Nat.le_refl _⟩
        · simp only [Draft.step, close, if_pos hname]
        · exact h.opened o (List.mem_cons_of_mem _ ho)
      · cases hnest

/-- Only a valid event whose tag is in place is taken. -/
theorem of_step (h : draft.Ready) (hok : draft.step e = .ok draft') :
    e.event.isValid = true ∧ e.event.nest draft.names = some draft'.names ∧ draft'.Ready := by
  suffices hwell : e.event.isValid = true ∧ (e.event.nest draft.names).isSome = true by
    obtain ⟨opened, hnest⟩ := Option.isSome_iff_exists.1 hwell.2
    obtain ⟨h', hnames, -⟩ := (h.step hwell.1 hnest).of_ok hok
    exact ⟨hwell.1, by rw [hnest, hnames], h'⟩
  obtain ⟨position, event⟩ := e
  cases event with
  | text raw =>
    refine ⟨?_, rfl⟩
    simp only [Draft.step] at hok
    split at hok
    · cases hok
    · next content hraw => exact Markup.Event.isValid_text_iff.2 ⟨content, hraw⟩
  | data content => exact ⟨rfl, rfl⟩
  | skipped => exact ⟨rfl, rfl⟩
  | opening content =>
    obtain ⟨r, hadd, -⟩ := exists_of_bind_eq_ok hok
    exact ⟨meantTag?_of_addElement hadd, rfl⟩
  | empty content =>
    obtain ⟨r, hadd, -⟩ := exists_of_bind_eq_ok hok
    exact ⟨meantTag?_of_addElement hadd, rfl⟩
  | closing found =>
    refine ⟨rfl, ?_⟩
    obtain ⟨d, openElements⟩ := draft
    cases openElements with
    | nil => cases hok
    | cons element rest =>
      simp only [Draft.step, close] at hok
      split at hok
      · next hname => simp [names, Markup.Event.nest, hname]
      · cases hok

/-- Valid events whose tags are in place are taken, one after another. -/
theorem run (h : draft.Ready) (hvalid : ∀ e ∈ events, e.event.isValid = true)
    (hopen : openNames draft.names events = some opened) :
    Ends (events.foldlM Draft.step draft) (draft.StopsFull events) fun draft' =>
      draft'.Ready ∧ draft'.names = opened ∧
      draft'.document.slots.size ≤ draft.document.slots.size + slotEvents events := by
  induction events generalizing draft with
  | nil =>
    cases hopen
    exact Or.inl ⟨draft, rfl, h, rfl, Nat.le_refl _⟩
  | cons e events ih =>
    rw [List.forall_mem_cons] at hvalid
    rw [Markup.openNames_cons, Option.bind_eq_some_iff] at hopen
    obtain ⟨names', hnest, hopen⟩ := hopen
    have hslots : slotEvents (e :: events) = e.event.needsSlot.toNat + slotEvents events := by
      rw [slotEvents, List.countP_cons, Nat.add_comm]
      cases e.event.needsSlot <;> rfl
    rw [List.foldlM_cons, hslots, ← Nat.add_assoc]
    refine (h.step hvalid.1 hnest).bind (fun hfull => ?_) ?_
    · exact ⟨[], e, events, draft, rfl, rfl, hfull⟩
    · rintro draft₁ hstep ⟨h₁, rfl, hsize⟩
      refine (ih h₁ hvalid.2 hopen).mono ?_ ?_
      · rintro ⟨before, last, after, draft', rfl, hrun, hfull⟩
        exact ⟨e :: before, last, after, draft', rfl, by rw [List.foldlM_cons, hstep]; exact hrun,
          hfull⟩
      · rintro draft' ⟨h', hnames, hsize'⟩
        exact ⟨h', hnames, hsize'.trans (Nat.add_le_add_right hsize _)⟩

theorem of_run (h : draft.Ready) (hok : events.foldlM Draft.step draft = .ok draft') :
    (∀ e ∈ events, e.event.isValid = true) ∧
      openNames draft.names events = some draft'.names ∧ draft'.Ready := by
  induction events generalizing draft with
  | nil =>
    cases hok
    exact ⟨nofun, rfl, h⟩
  | cons e events ih =>
    obtain ⟨draft₁, hstep, hok⟩ := exists_of_bind_eq_ok (List.foldlM_cons.symm.trans hok)
    obtain ⟨hvalid, hnest, h₁⟩ := h.of_step hstep
    obtain ⟨hall, hopen, h'⟩ := ih h₁ hok
    exact ⟨List.forall_mem_cons.2 ⟨hvalid, hall⟩, by
      rw [Markup.openNames_cons, hnest, Option.bind_some, hopen], h'⟩

/-- No more slots are made than there are events that may need one. -/
theorem size_le_of_run (h : draft.Ready) (hok : events.foldlM Draft.step draft = .ok draft') :
    draft'.document.slots.size ≤ draft.document.slots.size + slotEvents events := by
  obtain ⟨hvalid, hopen, -⟩ := h.of_run hok
  exact ((h.run hvalid hopen).of_ok hok).2.2

theorem slotLimit_lt_of_stopsFull (h : draft.Ready) (hfull : draft.StopsFull events) :
    Document.slotLimit < draft.document.slots.size + slotEvents events := by
  obtain ⟨before, e, after, draft', rfl, hrun, hneeds, hroom⟩ := hfull
  have hlimit := Document.slotLimit_le_of_full hroom
  have hsize := h.size_le_of_run hrun
  have hevents : slotEvents (before ++ e :: after) =
      slotEvents before + (slotEvents after + 1) := by
    rw [slotEvents, List.countP_append, List.countP_cons, if_pos hneeds]
    rfl
  omega

end Ready

variable {draft₁ : Draft} {p : Option NodeId} {kind : NodeKind} {notes : List (String × String)}
  {kids kids₁ kids' inner : List Shape} {base row others : List Tree}

/-- A row of nodes has been hung below the innermost open element, joined with those that hung there
before. -/
structure Hangs (draft draft' : Draft) (p : Option NodeId) (kind : NodeKind)
    (notes : List (String × String)) (kids kids' : List Shape) (base row : List Tree) : Prop where
  opened : draft'.openElements = draft.openElements
  joined : Shape.treesAll kids' = Tree.joinedAll "" (base ++ row)
  turns : draft.document.Turns draft'.document p ⟨draft.parent, kind, notes, kids⟩
    ⟨draft.parent, kind, notes, kids'⟩

theorem Hangs.parent_eq (h : Hangs draft draft' p kind notes kids kids' base row) :
    draft'.parent = draft.parent := by
  rw [parent, h.opened, parent]

theorem Hangs.in_ (h : Hangs draft draft' p kind notes kids kids' base row) :
    (⟨draft'.parent, kind, notes, kids'⟩ : Shape).In draft'.document p :=
  h.parent_eq ▸ h.turns.in_

theorem Hangs.trans (h : Hangs draft draft₁ p kind notes kids kids₁ base row)
    (h' : Hangs draft₁ draft' p kind notes kids₁ kids' (base ++ row) others) :
    Hangs draft draft' p kind notes kids kids' base (row ++ others) where
  opened := h'.opened.trans h.opened
  joined := by rw [h'.joined, List.append_assoc]
  turns := h.turns.trans (h.parent_eq ▸ h'.turns)

/-- A text that is added goes on a joined row. -/
theorem hangs_of_addText {content : String} (hd : draft.document.Sound)
    (hs : (⟨draft.parent, kind, notes, kids⟩ : Shape).In draft.document p)
    (hkind : ∀ content, kind ≠ .text content)
    (hrow : Shape.treesAll kids = Tree.joinedAll "" base)
    (hok : draft.addText content = .ok draft') :
    ∃ kids', Hangs draft draft' p kind notes kids kids' base [.text content] := by
  obtain ⟨front, last, hend, hbase, hnext⟩ := Tree.exists_joinedAll_concat_text "" base
  by_cases hcontent : content = ""
  · rw [Draft.addText, if_pos hcontent] at hok
    cases hok
    exact ⟨kids, rfl, by rw [hrow, hnext, hcontent, String.append_empty, hbase], .refl hd hs⟩
  obtain ⟨hopen, -, before, gone, earlier, t, rfl, hgone, hturns⟩ :=
    (addText_ends hd hs hkind hcontent).of_ok hok
  refine ⟨_, hopen, ?_, hturns⟩
  rw [hbase] at hrow
  have hmore : last ++ content ≠ "" := fun h => hcontent (String.append_eq_empty_iff.1 h).2
  rw [hnext, Tree.textTrees, if_neg hmore, Shape.treesAll_append]
  obtain ⟨rfl, rfl, hlast⟩ | ⟨id, anotes, rfl⟩ := hgone
  · rw [List.append_nil] at hrow hs
    obtain rfl : last = "" := by
      by_contra hne
      rw [Tree.textTrees, if_neg hne] at hrow
      cases hs.2.getLast?_treesAll hd hlast (.text last) (by rw [hrow, List.getLast?_concat]; rfl)
    simp only [Tree.textTrees, if_true, List.append_nil] at hrow
    simp [hrow, Shape.treesAll, Shape.trees]
  · have hone : Shape.treesAll [(⟨id, .text earlier, anotes, []⟩ : Shape)] = [.text earlier] := rfl
    rw [Shape.treesAll_append, hone, Tree.textTrees] at hrow
    split at hrow
    · rw [List.append_nil] at hrow
      cases hend (.text earlier) (by rw [← hrow, List.getLast?_concat]; rfl)
    · obtain ⟨hfront, hsame⟩ := List.append_inj' hrow rfl
      cases hsame
      rw [hfront]
      rfl

/-- Below an element that is added there may already hang something. -/
theorem treesAll_concat_element (hrow : Shape.treesAll kids = Tree.joinedAll "" base)
    {children : List Tree} (hinner : Shape.treesAll inner = Tree.joinedAll "" children)
    (node : NodeId) (tag : String) (attributes : List (String × String)) :
    Shape.treesAll (kids ++ [⟨node, .element tag attributes, [], inner⟩]) =
      Tree.joinedAll "" (base ++ [.element tag attributes children]) := by
  rw [Tree.joinedAll_concat_element, Shape.treesAll_append, hrow, ← hinner]
  rfl

/-- Events that read as a row hang it below the innermost open element, if they are all taken. -/
theorem hangs_of_nests (h : Markup.Nests events row) (hd : draft.document.Sound)
    (hs : (⟨draft.parent, kind, notes, kids⟩ : Shape).In draft.document p)
    (hkind : ∀ content, kind ≠ .text content)
    (hrow : Shape.treesAll kids = Tree.joinedAll "" base)
    (hok : events.foldlM Draft.step draft = .ok draft') :
    ∃ kids', Hangs draft draft' p kind notes kids kids' base row := by
  induction h generalizing draft draft' p kind notes kids base with
  | nil =>
    cases hok
    exact ⟨kids, rfl, by rw [List.append_nil, hrow], .refl hd hs⟩
  | @text position raw content events row hraw h ih =>
    obtain ⟨draft₁, hstep, hok⟩ := exists_of_bind_eq_ok (List.foldlM_cons.symm.trans hok)
    simp only [Draft.step, hraw] at hstep
    obtain ⟨kids₁, h₁⟩ := hangs_of_addText hd hs hkind hrow hstep
    obtain ⟨kids', h'⟩ := ih h₁.turns.sound h₁.in_ hkind h₁.joined hok
    exact ⟨kids', h₁.trans h'⟩
  | @data position content events row h ih =>
    obtain ⟨draft₁, hstep, hok⟩ := exists_of_bind_eq_ok (List.foldlM_cons.symm.trans hok)
    obtain ⟨kids₁, h₁⟩ := hangs_of_addText hd hs hkind hrow hstep
    obtain ⟨kids', h'⟩ := ih h₁.turns.sound h₁.in_ hkind h₁.joined hok
    exact ⟨kids', h₁.trans h'⟩
  | @skipped position events row h ih =>
    obtain ⟨draft₁, hstep, hok⟩ := exists_of_bind_eq_ok (List.foldlM_cons.symm.trans hok)
    cases hstep
    exact ih hd hs hkind hrow hok
  | @empty position content tag attributes events row htag h ih =>
    obtain ⟨draft₁, hstep, hok⟩ := exists_of_bind_eq_ok (List.foldlM_cons.symm.trans hok)
    obtain ⟨⟨node, draft₂⟩, hadd, hdone⟩ := exists_of_bind_eq_ok hstep
    cases hdone
    obtain ⟨hopen, -, hturns⟩ := (addElement_ends position hd hs hkind htag).of_ok hadd
    have h₁ : Hangs draft draft₁ p kind notes kids _ base [.element tag attributes []] :=
      ⟨hopen, treesAll_concat_element hrow rfl node tag attributes, hturns⟩
    obtain ⟨kids', h'⟩ := ih h₁.turns.sound h₁.in_ hkind h₁.joined hok
    exact ⟨kids', h₁.trans h'⟩
  | @element position position' content name tag attributes inner events children row htag hname
      hinner h ihinner ih =>
    rw [List.cons_append] at hok
    obtain ⟨draft₁, hstep, hok⟩ := exists_of_bind_eq_ok (List.foldlM_cons.symm.trans hok)
    obtain ⟨⟨node, draft₂⟩, hadd, hdone⟩ := exists_of_bind_eq_ok hstep
    obtain ⟨hopen, -, hturns⟩ := (addElement_ends position hd hs hkind htag).of_ok hadd
    cases hdone
    obtain ⟨draft₃, hrun, hok⟩ := exists_of_bind_eq_ok (List.foldlM_append.symm.trans hok)
    obtain ⟨draft₄, hclose, hok⟩ := exists_of_bind_eq_ok (List.foldlM_cons.symm.trans hok)
    have hnode := (Shape.inAll_append.1 hturns.in_.2).2.1
    have helement : ∀ content, NodeKind.element tag attributes ≠ .text content := fun _ h => by
      cases h
    obtain ⟨inner', h₃⟩ : ∃ inner', Hangs
        ⟨draft₂.document, ⟨String.ofList (Markup.tagName content), node⟩ :: draft₂.openElements⟩
        draft₃ (some draft.parent) (.element tag attributes) [] [] inner' [] children :=
      ihinner hturns.sound hnode helement rfl hrun
    simp only [Draft.step, close, h₃.opened] at hclose
    split at hclose
    · cases hclose
      have hgrown := h₃.turns.child hturns.sound hturns.in_ rfl
      have h₁ : Hangs draft ⟨draft₃.document, draft₂.openElements⟩ p kind notes kids _ base
          [.element tag attributes children] :=
        ⟨hopen, treesAll_concat_element hrow h₃.joined node tag attributes, hturns.trans hgrown⟩
      obtain ⟨kids', h'⟩ := ih h₁.turns.sound h₁.in_ hkind h₁.joined hok
      exact ⟨kids', h₁.trans h'⟩
    · cases hclose

end Draft

namespace Document

open Markup (Nests openNames slotEvents)

variable {tree : TreeId} {events : List Markup.Located} {failure : Option Markup.Failure}
  {d : Document}

theorem ofEvents_eq_ok_iff : ofEvents tree events failure = .ok d ↔
    failure = none ∧ events.foldlM Draft.step ⟨empty tree, []⟩ = .ok ⟨d, []⟩ := by
  rw [ofEvents]
  cases hrun : events.foldlM Draft.step ⟨empty tree, []⟩ with
  | error e => simp [bind, Except.bind]
  | ok draft =>
    obtain ⟨d', openElements⟩ := draft
    cases failure with
    | some f => simp [bind, Except.bind, throw, throwThe, MonadExceptOf.throw]
    | none => cases openElements <;> simp [bind, Except.bind, Draft.finish]

theorem ofEvents_of_error {e : MarkupError}
    (h : events.foldlM Draft.step ⟨empty tree, []⟩ = .error e) :
    ofEvents tree events failure = .error e := by
  rw [ofEvents, h]
  rfl

/-- What is built from events is the joined row that they read as, and nothing besides. -/
theorem content_of_nests {row : List Tree} (h : ofEvents tree events failure = .ok d)
    (hrow : Nests events row) : d.content = Tree.joinedAll "" row ∧ d.Rooted := by
  obtain ⟨-, hrun⟩ := ofEvents_eq_ok_iff.1 h
  have hroot : (⟨.root, .root, [], []⟩ : Shape).In (empty tree) none := ⟨rfl, trivial⟩
  obtain ⟨kids, hhangs⟩ : ∃ kids, Draft.Hangs ⟨empty tree, []⟩ ⟨d, []⟩ none .root [] [] kids [] row :=
    Draft.hangs_of_nests hrow (Sound.empty tree) hroot nofun rfl hrun
  refine ⟨?_, (Rooted.empty tree).replaces (.empty tree) hhangs.turns.sound hroot hhangs.turns.in_
    rfl rfl hhangs.turns.replaces⟩
  exact (hhangs.turns.sound.trees_eq hhangs.turns.in_).trans hhangs.joined

/-- Documents are built from valid events only, whose tags pair off. -/
theorem wellNested_of_ofEvents (h : ofEvents tree events failure = .ok d) : failure = none ∧
    (∀ e ∈ events, e.event.isValid = true) ∧ openNames [] events = some [] := by
  obtain ⟨hfailure, hrun⟩ := ofEvents_eq_ok_iff.1 h
  obtain ⟨hvalid, hopen, -⟩ := (Draft.Ready.empty tree).of_run hrun
  exact ⟨hfailure, hvalid, hopen⟩

/-- What a document was built from reads as a row. -/
theorem exists_nests_of_ofEvents (h : ofEvents tree events failure = .ok d) :
    ∃ row, Nests events row ∧ d.content = Tree.joinedAll "" row ∧ d.Rooted := by
  obtain ⟨-, hvalid, hopen⟩ := wellNested_of_ofEvents h
  obtain ⟨row, hrow⟩ := Markup.exists_nests hvalid hopen
  exact ⟨row, hrow, content_of_nests h hrow⟩

/-- A document is read without loose nodes. -/
theorem rooted_of_read {text : String} (h : read tree text = .ok d) : d.Rooted := by
  obtain ⟨row, -, -, hrooted⟩ := exists_nests_of_ofEvents h
  exact hrooted

/-- Valid events after which the tags so far are in place are all taken, if there are slots. -/
theorem run_of_openNames {opened : List String} (tree : TreeId)
    (hvalid : ∀ e ∈ events, e.event.isValid = true) (hopen : openNames [] events = some opened) :
    (∃ draft, events.foldlM Draft.step ⟨empty tree, []⟩ = .ok draft ∧ draft.names = opened) ∨
    ∃ e, events.foldlM Draft.step ⟨empty tree, []⟩ = .error e ∧ e.isFull = true ∧
      slotLimit ≤ slotEvents events := by
  have hready := Draft.Ready.empty tree
  rcases hready.run hvalid hopen with ⟨draft, hok, -, hnames, -⟩ | ⟨e, he, hisFull, hfull⟩
  · exact Or.inl ⟨draft, hok, hnames⟩
  · refine Or.inr ⟨e, he, hisFull, ?_⟩
    have hlt := hready.slotLimit_lt_of_stopsFull hfull
    have hone : (⟨empty tree, []⟩ : Draft).document.slots.size = 1 := rfl
    omega

/-- Where slots suffice for all events they do so for the first ones. -/
theorem taken_of_room {before after : List Markup.Located} {opened : List String}
    (hroom : ¬ ∃ e, ofEvents tree events failure = .error e ∧ e.isFull = true ∧
      slotLimit ≤ slotEvents events)
    (hsplit : events = before ++ after) (hvalid : ∀ e ∈ before, e.event.isValid = true)
    (hopen : openNames [] before = some opened) :
    ∃ draft, before.foldlM Draft.step ⟨empty tree, []⟩ = .ok draft ∧ draft.names = opened := by
  refine (run_of_openNames tree hvalid hopen).resolve_right ?_
  rintro ⟨e, he, hfull, hle⟩
  have hrun : events.foldlM Draft.step ⟨empty tree, []⟩ = .error e := by
    rw [hsplit, List.foldlM_append, he]
    rfl
  refine hroom ⟨e, ofEvents_of_error hrun, hfull, hle.trans ?_⟩
  rw [hsplit, slotEvents, slotEvents, List.countP_append]
  exact Nat.le_add_right _ _

/-- The first closing tag that is out of place is told. -/
theorem ofEvents_of_close {before after : List Markup.Located} {position : Nat}
    {found : List Char} {draft : Draft} {e : MarkupError}
    (hsplit : events = before ++ ⟨position, .closing found⟩ :: after)
    (hrun : before.foldlM Draft.step ⟨empty tree, []⟩ = .ok draft)
    (hclose : draft.close position (String.ofList found) = .error e) :
    ofEvents tree events failure = .error e := by
  refine ofEvents_of_error ?_
  rw [hsplit, List.foldlM_append, hrun]
  exact congrArg (· >>= fun draft => after.foldlM Draft.step draft) hclose

/-- Unless more nodes are asked for than there can be slots, markup is read exactly when none of its
events is faulty and their tags pair off. Then the document is the row that the events read as, with
texts joined, and nothing is loose in it. Where tags do not pair off and nothing else is wrong, the
first that is out of place is told, with the name of the element that was to be closed. -/
theorem read_builds (tree : TreeId) (text : String) :
    let events := (Markup.events text).1
    let failure := (Markup.events text).2
    (∃ e, read tree text = .error e ∧ e.isFull = true ∧ slotLimit ≤ slotEvents events) ∨
    ((∃ d, read tree text = .ok d) ↔ failure = none ∧
      (∀ e ∈ events, e.event.isValid = true) ∧ openNames [] events = some []) ∧
    (∀ d, read tree text = .ok d → d.Rooted ∧
      (∃ row, Nests events row) ∧ ∀ row, Nests events row → d.content = Tree.joinedAll "" row) ∧
    (failure = none → (∀ e ∈ events, e.event.isValid = true) →
      (∀ before position found after,
        events = before ++ ⟨position, .closing found⟩ :: after →
        (openNames [] before = some [] → read tree text =
          .error (.malformed (.unmatchedClose (String.ofList found)) (some position))) ∧
        ∀ expected outer, openNames [] before = some (expected :: outer) →
          expected ≠ String.ofList found →
          read tree text = .error (.mismatchedClose expected (String.ofList found))) ∧
      ∀ expected outer, openNames [] events = some (expected :: outer) →
        read tree text = .error (.unclosed expected)) := by
  intro events failure
  rw [or_iff_not_imp_left]
  intro hroom
  refine ⟨⟨fun ⟨d, hd⟩ => wellNested_of_ofEvents hd, ?_⟩, fun d hd => ?_, fun hfailure hvalid =>
    ⟨fun before position found after hsplit => ?_, fun expected outer hopen => ?_⟩⟩
  · rintro ⟨hfailure, hvalid, hopen⟩
    obtain ⟨⟨d, openElements⟩, hrun, hnames⟩ :=
      taken_of_room hroom (List.append_nil _).symm hvalid hopen
    obtain rfl := List.map_eq_nil_iff.1 hnames
    exact ⟨d, ofEvents_eq_ok_iff.2 ⟨hfailure, hrun⟩⟩
  · obtain ⟨row, hrow, -, hrooted⟩ := exists_nests_of_ofEvents hd
    exact ⟨hrooted, ⟨row, hrow⟩, fun row hrow => (content_of_nests hd hrow).1⟩
  · have hbefore : ∀ e ∈ before, e.event.isValid = true := fun e he =>
      hvalid e (hsplit ▸ List.mem_append_left _ he)
    refine ⟨fun hopen => ?_, fun expected outer hopen hne => ?_⟩
    · obtain ⟨⟨d, openElements⟩, hrun, hnames⟩ := taken_of_room hroom hsplit hbefore hopen
      obtain rfl := List.map_eq_nil_iff.1 hnames
      exact ofEvents_of_close hsplit hrun rfl
    · obtain ⟨⟨d, openElements⟩, hrun, hnames⟩ := taken_of_room hroom hsplit hbefore hopen
      obtain ⟨element, rest, rfl, rfl, -⟩ := List.map_eq_cons_iff.1 hnames
      refine ofEvents_of_close hsplit hrun ?_
      rw [Draft.close]
      exact if_neg hne
  · obtain ⟨⟨d, openElements⟩, hrun, hnames⟩ :=
      taken_of_room hroom (List.append_nil _).symm hvalid hopen
    obtain ⟨element, rest, rfl, rfl, -⟩ := List.map_eq_cons_iff.1 hnames
    have hread : read tree text = ofEvents tree events failure := rfl
    rw [hread, hfailure, ofEvents, hrun]
    rfl

/-- A comment stands between a text and a data section that are put together. -/
theorem read_builds_across_comment :
    let text := "<p>a<!-- c --><![CDATA[<b>]]></p>"
    ∃ d, read ⟨0⟩ text = .ok d ∧ d.Rooted ∧ d.content = [.element "p" [] [.text "a<b>"]] := by
  intro text
  have hevents : Markup.events text = ([⟨0, .opening ['p']⟩, ⟨3, .text ['a']⟩, ⟨4, .skipped⟩,
      ⟨14, .data ['<', 'b', '>']⟩, ⟨29, .closing ['p']⟩], none) := by
    decide +kernel
  have hvalid : ∀ e ∈ (Markup.events text).1, e.event.isValid = true := by
    rw [hevents]
    decide +kernel
  have hopen : openNames [] (Markup.events text).1 = some [] := by
    rw [hevents]
    decide +kernel
  have hraw : Markup.unescape ['a'] = .ok ['a'] := by decide +kernel
  have htag : Markup.meantTag? ['p'] = some ("p", []) := by decide +kernel
  have hinner : Nests [⟨3, .text ['a']⟩, ⟨4, .skipped⟩, ⟨14, .data ['<', 'b', '>']⟩]
      [.text "a", .text "<b>"] := .text hraw (.skipped (.data .nil))
  have hrow : Nests (Markup.events text).1 [.element "p" [] [.text "a", .text "<b>"]] := by
    rw [hevents]
    exact .element htag rfl hinner .nil
  obtain ⟨e, -, -, hfull⟩ | ⟨hok, hrows, -⟩ := read_builds ⟨0⟩ text
  · rw [hevents] at hfull
    exact absurd hfull (by decide)
  · obtain ⟨d, hd⟩ := hok.2 ⟨congrArg Prod.snd hevents, hvalid, hopen⟩
    obtain ⟨hrooted, -, hcontent⟩ := hrows d hd
    exact ⟨d, hd, hrooted, hcontent _ hrow⟩

end Document

end LiveMarkup
