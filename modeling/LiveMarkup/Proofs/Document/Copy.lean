import LiveMarkup.Markup.Reader
import LiveMarkup.Tree

/-! Edits of a copy. The identity of a document plays no part in them: on a copy each edit succeeds
when it does on the original, and leaves a copy of the same outcome. So markup reads into documents
that differ in nothing but their identity. -/
namespace LiveMarkup

namespace Document

variable (d : Document) (tree : TreeId)

theorem treesAt_copy (fuel : Nat) (id : NodeId) :
    (d.copy tree).treesAt fuel id = d.treesAt fuel id := by
  induction fuel generalizing id with
  | zero => rfl
  | succ fuel ih =>
    have hinner : (d.copy tree).treesAt fuel = d.treesAt fuel := funext ih
    simp only [treesAt, node?_copy, hinner]

theorem content_copy : (d.copy tree).content = d.content := treesAt_copy d tree _ _

theorem detach_copy (id : NodeId) : (d.copy tree).detach id = (d.detach id).copy tree := by
  have hparent : (d.copy tree).parent? id = d.parent? id := rfl
  simp only [detach, hparent]
  cases d.parent? id <;> rfl

theorem release_copy (work : List NodeId) :
    (d.copy tree).release work = (d.release work).copy tree := by
  induction d, work using release_induction with
  | nil d => rw [release_nil, release_nil]
  | dead d id rest h ih => rw [release_dead (d := d.copy tree) h, release_dead h, ih]
  | live d id rest n h ih =>
    rw [release_live (d := d.copy tree) h, release_live h]
    exact ih

theorem allocate_copy (kind : NodeKind) :
    (d.copy tree).allocate kind = (d.allocate kind).map fun r => (r.1, r.2.copy tree) := by
  obtain ⟨tree', slots, free⟩ := d
  cases free with
  | nil => by_cases h : slots.size < slotLimit <;> simp [allocate, copy, h, Except.map]
  | cons slot free =>
    simp only [allocate, copy]
    cases slots[slot]? <;> rfl

theorem createElement_copy (tag : String) :
    (d.copy tree).createElement tag = (d.createElement tag).map fun r => (r.1, r.2.copy tree) := by
  simp only [createElement]
  split
  · exact d.allocate_copy tree _
  · rfl

theorem setAttribute_copy (id : NodeId) (name value : String) :
    (d.copy tree).setAttribute id name value =
      (d.setAttribute id name value).map (·.copy tree) := by
  have hnode : (d.copy tree).node? id = d.node? id := rfl
  simp only [setAttribute, hnode]
  split
  · rfl
  · split <;> rfl

theorem lineage_copy (fuel : Nat) (id : NodeId) :
    (d.copy tree).lineage fuel id = d.lineage fuel id := by
  induction fuel generalizing id with
  | zero => rfl
  | succ fuel ih =>
    have hparent : (d.copy tree).parent? id = d.parent? id := rfl
    simp only [lineage, hparent, ih]

theorem checkPlacement_copy (p c : NodeId) :
    (d.copy tree).checkPlacement p c = d.checkPlacement p c := by
  simp only [checkPlacement, isAncestorOrSelf, lineage_copy]
  rfl

theorem append_copy (p c : NodeId) :
    (d.copy tree).append p c = (d.append p c).map (·.copy tree) := by
  simp only [append, checkPlacement_copy, detach_copy]
  cases d.checkPlacement p c <;> rfl

theorem insertBefore_copy (p c r : NodeId) :
    (d.copy tree).insertBefore p c r = (d.insertBefore p c r).map (·.copy tree) := by
  have hparent : (d.copy tree).parent? r = d.parent? r := rfl
  simp only [insertBefore, checkPlacement_copy, detach_copy, hparent]
  split
  · rfl
  · split
    · rfl
    · cases d.checkPlacement p c <;> rfl

theorem remove_copy (id : NodeId) : (d.copy tree).remove id = (d.remove id).map (·.copy tree) := by
  have hlive : (d.copy tree).contains id = d.contains id := rfl
  simp only [remove, detach_copy, release_copy, hlive]
  split
  · rfl
  · split <;> rfl

end Document

/-- Two rows of steps that agree step by step up to a map. -/
theorem Except.map_bind_of_eq {ε α α' β β' : Type} {f : α → α'} {g : β → β'}
    {next : α → Except ε β} {next' : α' → Except ε β'} (x : Except ε α)
    (h : ∀ a, next' (f a) = (next a).map g) :
    (Except.map f x >>= next') = Except.map g (x >>= next) := by
  cases x with
  | error e => rfl
  | ok a => exact h a

namespace Draft

variable (draft : Draft) (tree : TreeId)

/-- A draft of a document with an identity of its own. -/
def copy (draft : Draft) (tree : TreeId) : Draft :=
  { draft with document := draft.document.copy tree }

theorem edit_copy (change : Document → Except TreeError Document)
    (h : ∀ d : Document, change (d.copy tree) = (change d).map (·.copy tree)) :
    (draft.copy tree).edit change = (draft.edit change).map (·.copy tree) := by
  simp only [edit, copy, h]
  cases change draft.document <;> rfl

theorem setAttributes_copy (position : Nat) (node : NodeId)
    (attributes : List Markup.RawAttribute) :
    setAttributes position node attributes (draft.copy tree) =
      (setAttributes position node attributes draft).map (·.copy tree) := by
  induction attributes generalizing draft with
  | nil => rfl
  | cons a rest ih =>
    simp only [setAttributes]
    cases Markup.unescape a.value with
    | error e => rfl
    | ok value =>
      have hset := draft.edit_copy tree (·.setAttribute node a.name (String.ofList value))
        fun d => d.setAttribute_copy tree node a.name _
      simp only [hset]
      exact Except.map_bind_of_eq _ ih

theorem addElement_copy (position : Nat) (content : List Char) :
    (draft.copy tree).addElement position content =
      (draft.addElement position content).map fun r => (r.1, r.2.copy tree) := by
  have hmake := draft.document.createElement_copy tree (String.ofList (Markup.tagName content))
  simp only [addElement]
  rw [show (draft.copy tree).document = draft.document.copy tree from rfl, hmake]
  cases draft.document.createElement (String.ofList (Markup.tagName content)) with
  | error e => rfl
  | ok r =>
    obtain ⟨node, d⟩ := r
    have hset := setAttributes_copy { draft with document := d } tree position node
      (Markup.tagAttributes content).1
    simp only [Except.map]
    rw [show { draft.copy tree with document := d.copy tree } =
      ({ draft with document := d } : Draft).copy tree from rfl, hset]
    refine Except.map_bind_of_eq _ fun draft' => ?_
    cases (Markup.tagAttributes content).2 with
    | some e => rfl
    | none =>
      have happend := draft'.edit_copy tree (·.append draft'.parent node)
        fun d => d.append_copy tree draft'.parent node
      rw [show (draft'.copy tree).parent = draft'.parent from rfl]
      dsimp only
      rw [happend]
      exact Except.map_bind_of_eq _ fun _ => rfl

theorem addText_copy (content : String) :
    (draft.copy tree).addText content = (draft.addText content).map (·.copy tree) := by
  simp only [addText]
  split
  · rfl
  · have hlast : ((draft.copy tree).document.children (draft.copy tree).parent).getLast? =
        (draft.document.children draft.parent).getLast? := rfl
    have htext : (draft.copy tree).document.text? = draft.document.text? := rfl
    rw [hlast, htext]
    split
    · next last earlier _ _ =>
      refine draft.edit_copy tree _ fun d => ?_
      rw [Document.createText, Document.allocate_copy]
      refine Except.map_bind_of_eq _ fun r => ?_
      rw [show (draft.copy tree).parent = draft.parent from rfl, Document.insertBefore_copy]
      exact Except.map_bind_of_eq _ fun d => d.remove_copy tree last
    · refine draft.edit_copy tree _ fun d => ?_
      rw [Document.createText, Document.allocate_copy]
      refine Except.map_bind_of_eq _ fun r => ?_
      exact r.2.append_copy tree draft.parent r.1

theorem step_copy (e : Markup.Located) :
    (draft.copy tree).step e = (draft.step e).map (·.copy tree) := by
  obtain ⟨position, event⟩ := e
  cases event with
  | text raw =>
    simp only [step]
    cases Markup.unescape raw with
    | error cause => rfl
    | ok content => exact draft.addText_copy tree _
  | data content => exact draft.addText_copy tree _
  | opening content =>
    simp only [step, draft.addElement_copy tree]
    exact Except.map_bind_of_eq _ fun _ => rfl
  | empty content =>
    simp only [step, draft.addElement_copy tree]
    exact Except.map_bind_of_eq _ fun _ => rfl
  | closing name =>
    simp only [step, close, copy]
    cases draft.openElements with
    | nil => rfl
    | cons element rest =>
      dsimp only
      split <;> rfl
  | skipped => rfl

theorem foldlM_step_copy (events : List Markup.Located) :
    events.foldlM step (draft.copy tree) = (events.foldlM step draft).map (·.copy tree) := by
  induction events generalizing draft with
  | nil => rfl
  | cons e events ih =>
    simp only [List.foldlM_cons, draft.step_copy tree]
    exact Except.map_bind_of_eq _ ih

end Draft

/-- Reading the same markup again makes a copy. -/
theorem Document.read_copy (tree tree' : TreeId) (text : String) :
    read tree' text = (read tree text).map (·.copy tree') := by
  simp only [read, ofEvents]
  have hrun := Draft.foldlM_step_copy ⟨.empty tree, []⟩ tree' (Markup.events text).1
  rw [show (⟨.empty tree', []⟩ : Draft) = (⟨.empty tree, []⟩ : Draft).copy tree' from rfl, hrun]
  refine Except.map_bind_of_eq _ fun draft => ?_
  cases (Markup.events text).2 with
  | some f => rfl
  | none =>
    simp only [Draft.finish, Draft.copy]
    cases draft.openElements <;> rfl

end LiveMarkup
