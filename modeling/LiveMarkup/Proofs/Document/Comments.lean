import LiveMarkup.Proofs.Document.Roundtrip
import LiveMarkup.Proofs.Markup.Interruption

/-! Comments in a markup. What is read past a comment shows the same trees as what is read without
it, also where the comment stands in a text, which is then put together from its parts. While that
is done the first part and the whole text are both nodes, so that there must be one more slot. -/
namespace LiveMarkup

namespace Markup

variable {events : List Located} {row : List Tree}

/-- What an event adds to a text. -/
def Event.addition : Event → List Char
  | .text raw => (unescape raw).toOption.getD []
  | .data content => content
  | _ => []

/-- The number of nodes that an event makes behind a text that goes on, or behind none, and whether
it leaves a text that goes on. -/
def Event.makes (goesOn : Bool) : Event → Nat × Bool
  | .opening _ => (1, false)
  | .empty _ => (1, false)
  | .closing _ => (0, false)
  | e => if e.addition = [] then (0, goesOn) else ((!goesOn).toNat, true)

/-- The number of nodes that events make one after another. -/
def nodesFrom (goesOn : Bool) : List Located → Nat
  | [] => 0
  | e :: rest => (e.event.makes goesOn).1 + nodesFrom (e.event.makes goesOn).2 rest

/-- All that counts of the events before some others is if they leave a text that goes on. -/
theorem exists_nodesFrom_append (goesOn : Bool) (events : List Located) : ∃ goesOn', ∀ more,
    nodesFrom goesOn (events ++ more) = nodesFrom goesOn events + nodesFrom goesOn' more := by
  induction events generalizing goesOn with
  | nil => exact ⟨goesOn, fun more => (Nat.zero_add _).symm⟩
  | cons e events ih =>
    obtain ⟨goesOn', h⟩ := ih (e.event.makes goesOn).2
    exact ⟨goesOn', fun more => by rw [List.cons_append, nodesFrom, h, nodesFrom, Nat.add_assoc]⟩

theorem nodesFrom_of_closing {goesOn : Bool} (h : ∀ e ∈ events, ∃ name, e.event = .closing name) :
    nodesFrom goesOn events = 0 := by
  induction events generalizing goesOn with
  | nil => rfl
  | cons e events ih =>
    rw [List.forall_mem_cons] at h
    obtain ⟨name, hname⟩ := h.1
    rw [nodesFrom, ih h.2, hname]
    rfl

/-- A text joins what has been gathered. -/
theorem sizeAll_joinedAll_text (gathered : String) (position : Nat) (e : Event)
    (hmakes : ∀ goesOn, e.makes goesOn =
      if e.addition = [] then (0, goesOn) else ((!goesOn).toNat, true))
    (ih : ∀ gathered : String, Tree.sizeAll (Tree.joinedAll gathered row) =
      nodesFrom (gathered ≠ "") events + if gathered = "" then 0 else 1) :
    Tree.sizeAll (Tree.joinedAll gathered (.text (String.ofList e.addition) :: row)) =
      nodesFrom (gathered ≠ "") (⟨position, e⟩ :: events) + if gathered = "" then 0 else 1 := by
  rw [Tree.joinedAll, ih, nodesFrom, hmakes]
  by_cases hnil : e.addition = []
  · simp [hnil]
  · have hmore : gathered ++ String.ofList e.addition ≠ "" := fun h => hnil (by
      simpa using (String.append_eq_empty_iff.1 h).2)
    by_cases hempty : gathered = "" <;> simp [hnil, hmore, hempty, Nat.add_comm]

/-- An element ends what has been gathered. -/
theorem sizeAll_joinedAll_element (gathered tag : String) (attributes : List (String × String))
    (children row : List Tree) :
    Tree.sizeAll (Tree.joinedAll gathered (.element tag attributes children :: row)) =
      Tree.sizeAll (Tree.joinedAll "" children) + 1 + Tree.sizeAll (Tree.joinedAll "" row) +
        if gathered = "" then 0 else 1 := by
  rw [Tree.joinedAll, Tree.sizeAll_append, Tree.sizeAll_textTrees, Tree.sizeAll, Tree.joined,
    Tree.size, Nat.add_comm]
  simp

/-- The joined row that events read as has as many nodes as they make. -/
theorem Nests.sizeAll_joinedAll (h : Nests events row) (gathered : String) :
    Tree.sizeAll (Tree.joinedAll gathered row) =
      nodesFrom (gathered ≠ "") events + if gathered = "" then 0 else 1 := by
  induction h generalizing gathered with
  | nil => rw [Tree.joinedAll, Tree.sizeAll_textTrees, nodesFrom, Nat.zero_add]
  | @text position raw content events row hraw h ih =>
    have haddition : (Event.text raw).addition = content := by
      rw [Event.addition, hraw]
      rfl
    have hsize := sizeAll_joinedAll_text gathered position (.text raw) (fun _ => rfl) ih
    rwa [haddition] at hsize
  | data h ih => exact sizeAll_joinedAll_text gathered _ (.data _) (fun _ => rfl) ih
  | skipped h ih => simp [ih, nodesFrom, Event.makes, Event.addition]
  | empty htag h ih =>
    have hrest := ih ""
    simp only [ne_eq, not_true, decide_false, if_true] at hrest
    rw [sizeAll_joinedAll_element, hrest]
    simp [nodesFrom, Event.makes, Tree.joinedAll, Tree.sizeAll_textTrees]
  | @element position position' content name tag attributes inner events children row htag hname
      hinner h ihinner ih =>
    have hchildren := ihinner ""
    have hrest := ih ""
    simp only [ne_eq, not_true, decide_false, if_true] at hchildren hrest
    obtain ⟨goesOn, hsplit⟩ := exists_nodesFrom_append false inner
    rw [sizeAll_joinedAll_element, hchildren, hrest, List.cons_append, nodesFrom, Event.makes,
      hsplit, nodesFrom, Event.makes]
    dsimp only
    omega

end Markup

namespace Draft

open Markup (nodesFrom)

variable {tree : TreeId} {draft : Draft} {events : List Markup.Located}

/-- Closing tags for all open elements. -/
def closings (draft : Draft) : List Markup.Located :=
  draft.openElements.map fun o => ⟨0, .closing o.name.toList⟩

theorem run_closings (draft : Draft) :
    draft.closings.foldlM step draft = .ok ⟨draft.document, []⟩ := by
  obtain ⟨d, openElements⟩ := draft
  induction openElements with
  | nil => rfl
  | cons o openElements ih =>
    have hclose : step ⟨d, o :: openElements⟩ ⟨0, .closing o.name.toList⟩ =
        .ok ⟨d, openElements⟩ := by
      simp [step, close]
    rw [closings, List.map_cons, List.foldlM_cons, hclose]
    exact ih

/-- A draft has the root and as many nodes as its events make. -/
theorem nodeCount_of_run (hrun : events.foldlM step ⟨.empty tree, []⟩ = .ok draft) :
    draft.document.nodeCount = nodesFrom false events + 1 := by
  have hclosed : Document.ofEvents tree (events ++ draft.closings) none = .ok draft.document := by
    rw [Document.ofEvents_eq_ok_iff, List.foldlM_append, hrun]
    exact ⟨rfl, draft.run_closings⟩
  obtain ⟨row, hrow, hcontent, hrooted⟩ := Document.exists_nests_of_ofEvents hclosed
  obtain ⟨-, -, hready⟩ := (Ready.empty tree).of_run hrun
  obtain ⟨goesOn, hsplit⟩ := Markup.exists_nodesFrom_append false events
  have hnone : nodesFrom goesOn draft.closings = 0 :=
    Markup.nodesFrom_of_closing (List.forall_mem_map.2 fun o _ => ⟨_, rfl⟩)
  have hsize := hrow.sizeAll_joinedAll ""
  simp only [ne_eq, not_true, decide_false, if_true, Nat.add_zero, hsplit, hnone] at hsize
  rw [hrooted.nodeCount_eq hready.sound, hcontent, hsize]

end Draft

namespace Document

open Markup (Nests)

variable {d : Document}

/-- Where no slot is left there is a node in every slot. -/
theorem Accounted.slotLimit_le_nodeCount (hd : d.Accounted) (hfull : ¬ d.HasRoom) :
    slotLimit ≤ d.nodeCount := by
  rw [HasRoom, not_or, not_not, Nat.not_lt] at hfull
  refine hfull.2.trans_eq (Array.countP_eq_size.2 fun s hs => ?_).symm
  obtain ⟨i, hi, rfl⟩ := Array.mem_iff_getElem.1 hs
  by_contra hvacant
  have hfree : i ∈ d.free :=
    (hd.mem_iff i).2 ⟨_, Array.getElem?_eq_getElem hi, by simpa using hvacant⟩
  rw [hfull.1] at hfree
  cases hfree

theorem Reachable.nodeCount_le (hd : d.Reachable) : d.nodeCount ≤ slotLimit :=
  Array.countP_le_size.trans hd.size_le

/-- A document that was read has at least as many nodes as a draft on the way to its row had. -/
theorem nodeCount_le_of_nests {tree tree' : TreeId} {text : String}
    {before after : List Markup.Located} {row : List Tree} {draft : Draft}
    (hread : read tree text = .ok d) (hrow : Nests (before ++ after) row)
    (hcontent : d.content = Tree.joinedAll "" row)
    (hrun : before.foldlM Draft.step ⟨empty tree', []⟩ = .ok draft) :
    draft.document.nodeCount ≤ d.nodeCount := by
  obtain ⟨goesOn, hsplit⟩ := Markup.exists_nodesFrom_append false before
  have hsize := hrow.sizeAll_joinedAll ""
  simp only [ne_eq, not_true, decide_false, if_true, Nat.add_zero, hsplit] at hsize
  have hcount := (rooted_of_read hread).nodeCount_eq (Reachable.of_read hread).sound
  rw [hcontent, hsize] at hcount
  rw [Draft.nodeCount_of_run hrun, hcount]
  omega

/-- A comment makes no difference to what is read. It may stand behind any markup that is valid as
far as it goes, with or without open elements. Where it cuts a text in two one more slot is asked
for, so that the reading stops if the nodes of the document take all of them. -/
theorem read_past_comment (tree tree' : TreeId) (u v c : String) (d : Document)
    (hu : (Markup.events u).2 = none)
    (huvalid : ∀ e ∈ (Markup.events u).1, e.event.isValid = true)
    (hmark : u = "" → v.toList.head? ≠ some '\ufeff')
    (hread : read tree (u ++ v) = .ok d)
    (hcomment : Markup.events ("<!--" ++ c ++ "-->") = ([⟨0, .skipped⟩], none)) :
    (∃ d', read tree' (u ++ ("<!--" ++ c ++ "-->") ++ v) = .ok d' ∧ d'.content = d.content) ∨
    d.nodeCount = slotLimit ∧
      ∃ e, read tree' (u ++ ("<!--" ++ c ++ "-->") ++ v) = .error e ∧ e.isFull = true := by
  obtain ⟨hfailure, hvalid, -⟩ := wellNested_of_ofEvents hread
  obtain ⟨row, hrow, hcontent, -⟩ := exists_nests_of_ofEvents hread
  have hpiece : ("<!--" ++ c ++ "-->").toList =
      '<' :: (['!', '-', '-'] ++ c.toList ++ ['-', '-', '>']) := by
    simp
  obtain ⟨hnone, hinterrupted⟩ :=
    Markup.interrupted_events hpiece hcomment hu huvalid hmark hfailure hvalid
  obtain ⟨row', hrow', hjoined⟩ := hrow.interrupted hinterrupted
  rw [← hjoined] at hcontent
  obtain ⟨hvalid', hopen'⟩ := hrow'.wellNested
  have hready := Draft.Ready.empty tree'
  obtain ⟨⟨d', openElements⟩, hrun, -, hnames, -⟩ |
    ⟨e, herror, hisFull, before, last, after, draft, hsplit, hrun, -, hroom⟩ :=
      hready.run hvalid' (hopen' [])
  · obtain rfl := List.map_eq_nil_iff.1 hnames
    have hread' : read tree' (u ++ ("<!--" ++ c ++ "-->") ++ v) = .ok d' :=
      ofEvents_eq_ok_iff.2 ⟨hnone, hrun⟩
    exact Or.inl ⟨d', hread', by rw [(content_of_nests hread' hrow').1, hcontent]⟩
  · obtain ⟨-, -, hdraft⟩ := hready.of_run hrun
    have hlimit := hdraft.sound.accounted.slotLimit_le_nodeCount hroom
    rw [hsplit] at hrow'
    have hle := nodeCount_le_of_nests hread hrow' hcontent hrun
    exact Or.inr ⟨Nat.le_antisymm (Reachable.of_read hread).nodeCount_le (hlimit.trans hle), e,
      ofEvents_of_error herror, hisFull⟩

/-- A comment that cuts a text in two, behind a reference. -/
theorem read_past_comment_within_text :
    let u := "<p>a&amp;"
    let v := "b</p>"
    let piece := "<!--" ++ " c " ++ "-->"
    ∃ d d', read ⟨0⟩ (u ++ v) = .ok d ∧ read ⟨1⟩ (u ++ piece ++ v) = .ok d' ∧
      d.content = [.element "p" [] [.text "a&b"]] ∧ d'.content = d.content := by
  intro u v piece
  have hevents : Markup.events u = ([⟨0, .opening ['p']⟩, ⟨3, .text "a&amp;".toList⟩], none) := by
    decide +kernel
  have hvalid : ∀ e ∈ (Markup.events u).1, e.event.isValid = true := by
    rw [hevents]
    decide +kernel
  have hpiece : Markup.events piece = ([⟨0, .skipped⟩], none) := by decide +kernel
  have hshown : (read ⟨0⟩ (u ++ v)).map (fun d => (d.content, d.nodeCount)) =
      .ok ([.element "p" [] [.text "a&b"]], 3) := by
    decide +kernel
  obtain ⟨d, hread, hd⟩ := Markup.map_eq_ok_iff.1 hshown
  obtain ⟨hcontent, hcount⟩ := Prod.mk.inj hd.symm
  have hsome : u ≠ "" := by decide +kernel
  obtain ⟨d', hread', hsame⟩ | ⟨hfull, -⟩ := read_past_comment ⟨0⟩ ⟨1⟩ u v " c " d
    (congrArg Prod.snd hevents) hvalid (absurd · hsome) hread hpiece
  · exact ⟨d, d', hread, hread', hcontent, hsame⟩
  · rw [hcount] at hfull
    cases hfull

end Document

end LiveMarkup
