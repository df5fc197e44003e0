import LiveMarkup.Document.Edit
import LiveMarkup.Markup.Event

/-! Documents from markup. Events build the document from left to right; adjacent texts become
one, also across pieces that leave nothing. -/
namespace LiveMarkup

/-- An element whose closing tag has not come yet. -/
structure OpenElement where
  name : String
  node : NodeId
  deriving DecidableEq

/-- A document in the making and its open elements, innermost first. -/
structure Draft where
  document : Document
  openElements : List OpenElement

namespace Draft

/-- Where the next node goes. -/
def parent (draft : Draft) : NodeId :=
  match draft.openElements with
  | [] => .root
  | element :: _ => element.node

def edit (draft : Draft) (change : Document → Except TreeError Document) :
    Except MarkupError Draft :=
  match change draft.document with
  | .ok d => .ok { draft with document := d }
  | .error e => .error (.tree e)

/-- Sets the attributes of an element one after another; their references are replaced. -/
def setAttributes (position : Nat) (node : NodeId) :
    List Markup.RawAttribute → Draft → Except MarkupError Draft
  | [], draft => .ok draft
  | a :: rest, draft =>
    match Markup.unescape a.value with
    | .error e => .error (.malformed (.badValue e) (some position))
    | .ok value => do
      let draft ← draft.edit (·.setAttribute node a.name (String.ofList value))
      setAttributes position node rest draft

/-- Adds an element for the content of a tag. -/
def addElement (draft : Draft) (position : Nat) (content : List Char) :
    Except MarkupError (NodeId × Draft) :=
  match draft.document.createElement (String.ofList (Markup.tagName content)) with
  | .error e => .error (.malformed (.badElement e) (some position))
  | .ok (node, d) => do
    let (attributes, fault) := Markup.tagAttributes content
    let draft ← setAttributes position node attributes { draft with document := d }
    match fault with
    | some e => .error (.malformed (.badAttribute e) none)
    | none =>
      let draft ← draft.edit (·.append draft.parent node)
      pure (node, draft)

/-- Adds a text node at the end, or puts a longer one in the place of a text that is there. -/
def addText (draft : Draft) (content : String) : Except MarkupError Draft :=
  if content = "" then .ok draft
  else
    let parent := draft.parent
    let last := (draft.document.children parent).getLast?
    match last, last.bind draft.document.text? with
    | some last, some earlier =>
      draft.edit fun d => do
        let (node, d) ← d.createText (earlier ++ content)
        let d ← d.insertBefore parent node last
        d.remove last
    | _, _ =>
      draft.edit fun d => do
        let (node, d) ← d.createText content
        d.append parent node

/-- Closes the innermost open element, which must have the given name. -/
def close (draft : Draft) (position : Nat) (name : String) : Except MarkupError Draft :=
  match draft.openElements with
  | [] => .error (.malformed (.unmatchedClose name) (some position))
  | element :: rest =>
    if element.name = name then .ok { draft with openElements := rest }
    else .error (.mismatchedClose element.name name)

def step (draft : Draft) (e : Markup.Located) : Except MarkupError Draft :=
  match e.event with
  | .text raw =>
    match Markup.unescape raw with
    | .error cause => .error (.malformed (.badText cause) (some e.position))
    | .ok content => draft.addText (String.ofList content)
  | .data content => draft.addText (String.ofList content)
  | .opening content => do
    let (node, draft) ← draft.addElement e.position content
    let element := ⟨String.ofList (Markup.tagName content), node⟩
    pure { draft with openElements := element :: draft.openElements }
  | .empty content => do
    let (_, draft) ← draft.addElement e.position content
    pure draft
  | .closing name => draft.close e.position (String.ofList name)
  | .skipped => .ok draft

/-- The finished document; no element may be open. -/
def finish (draft : Draft) : Except MarkupError Document :=
  match draft.openElements with
  | [] => .ok draft.document
  | element :: _ => .error (.unclosed element.name)

end Draft

namespace Document

/-- Builds a document from events. A failure after them counts only once they have all been
taken. -/
def ofEvents (tree : TreeId) (events : List Markup.Located) (failure : Option Markup.Failure) :
    Except MarkupError Document := do
  let draft ← events.foldlM Draft.step ⟨.empty tree, []⟩
  match failure with
  | some f => throw (.malformed f.cause (some f.position))
  | none => draft.finish

/-- Reads markup into a new document. -/
def read (tree : TreeId) (text : String) : Except MarkupError Document :=
  ofEvents tree (Markup.events text).1 (Markup.events text).2

end Document

end LiveMarkup
