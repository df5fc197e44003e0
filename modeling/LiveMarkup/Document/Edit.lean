import LiveMarkup.Document.Query
import LiveMarkup.Document.Release
import LiveMarkup.Markup.Attribute

/-! Edits of a document. An edit either gives the changed document or a cause, and then nothing
has changed. The exception is the replacement of a node's text, which is made of several edits. -/
namespace LiveMarkup

/-- A row of edits; a failure keeps what was done before it. -/
abbrev Edit := EStateM TreeError Document

/-- One edit as a row of its own. -/
def Edit.apply (f : Document → Except TreeError Document) : Edit Unit := fun d =>
  match f d with
  | .ok d' => .ok () d'
  | .error e => .error e d

/-- One edit that gives an address. -/
def Edit.create (f : Document → Except TreeError (NodeId × Document)) : Edit NodeId := fun d =>
  match f d with
  | .ok (id, d') => .ok id d'
  | .error e => .error e d

namespace Document

/-- Slot numbers fit 32 bits. -/
def slotLimit : Nat := 0x100000000

/-- Puts a detached node into the slot freed last, or into a new one. -/
def allocate (d : Document) (kind : NodeKind) : Except TreeError (NodeId × Document) :=
  match d.free with
  | slot :: free =>
    match d.slots[slot]? with
    | some s =>
      .ok (⟨slot, s.generation⟩,
        { d with
          slots := d.slots.setIfInBounds slot { s with node := some (.detached kind) }
          free := free })
    | none => .error .outOfSlots
  | [] =>
    if d.slots.size < slotLimit then
      .ok (⟨d.slots.size, 0⟩, { d with slots := d.slots.push ⟨0, some (.detached kind)⟩ })
    else .error .outOfSlots

def createElement (d : Document) (tag : String) : Except TreeError (NodeId × Document) :=
  if Markup.isTagName tag then d.allocate (.element tag []) else .error (.invalidTagName tag)

def createText (d : Document) (content : String) : Except TreeError (NodeId × Document) :=
  d.allocate (.text content)

/-- Replaces the value of an attribute in place or adds the attribute at the end. -/
def setAttribute (d : Document) (id : NodeId) (name value : String) :
    Except TreeError Document :=
  if !Markup.isAttributeName name then .error (.invalidAttributeName name)
  else match d.node? id with
    | none => .error (.unknownNode id)
    | some ⟨.element tag attributes, _, _, _⟩ =>
      .ok (d.update id fun n => { n with kind := .element tag (Entries.put name value attributes) })
    | some _ => .error .attributeOfNonElement

/-- Removes an attribute; nodes that carry none are left as they are. -/
def removeAttribute (d : Document) (id : NodeId) (name : String) : Except TreeError Document :=
  match d.node? id with
  | none => .error (.unknownNode id)
  | some ⟨.element tag attributes, _, _, _⟩ =>
    .ok (d.update id fun n => { n with kind := .element tag (Entries.erase name attributes) })
  | some _ => .ok d

def setNote (d : Document) (id : NodeId) (key value : String) : Except TreeError Document :=
  if d.contains id then
    .ok (d.update id fun n => { n with notes := Entries.put key value n.notes })
  else .error (.unknownNode id)

/-- Takes a node out of its parent's children. -/
def detach (d : Document) (id : NodeId) : Document :=
  match d.parent? id with
  | none => d
  | some p =>
    (d.update id fun n => { n with parent := none }).update p fun n =>
      { n with children := n.children.filter (· ≠ id) }

/-- Whether a node may be placed under a parent, or else why not. -/
def checkPlacement (d : Document) (parent child : NodeId) : Except TreeError Unit :=
  if !d.contains parent then .error (.unknownNode parent)
  else if !d.contains child then .error (.unknownNode child)
  else if child = .root then .error .rootMoved
  else if (d.text? parent).isSome then .error .childOfText
  else if d.isAncestorOrSelf child parent then .error .ownSubtree
  else .ok ()

/-- Makes a detached node the child of a parent at a place among the other children. -/
def attach (d : Document) (parent child : NodeId) (place : List NodeId → List NodeId) : Document :=
  (d.update child fun n => { n with parent := some parent }).update parent fun n =>
    { n with children := place n.children }

/-- Moves a node to the end of a parent's children. -/
def append (d : Document) (parent child : NodeId) : Except TreeError Document := do
  d.checkPlacement parent child
  pure ((d.detach child).attach parent child (· ++ [child]))

/-- Puts a node right before another one of a list. -/
def placeBefore (child reference : NodeId) (siblings : List NodeId) : List NodeId :=
  siblings.takeWhile (· ≠ reference) ++ child :: siblings.dropWhile (· ≠ reference)

/-- Moves a node to the place right before one of a parent's children. To place a node before
itself is no change, whatever the parent. -/
def insertBefore (d : Document) (parent child reference : NodeId) : Except TreeError Document :=
  if child = reference then .ok d
  else if d.parent? reference ≠ some parent then .error (.notAChild reference parent)
  else do
    d.checkPlacement parent child
    pure ((d.detach child).attach parent child (placeBefore child reference))

/-- Destroys a node with all that hangs below it. -/
def remove (d : Document) (id : NodeId) : Except TreeError Document :=
  if id = .root then .error .rootRemoved
  else if d.contains id then .ok ((d.detach id).release [id])
  else .error (.unknownNode id)

/-- Puts a new text node among the children, with `before` siblings in front of it. -/
def insertText (id : NodeId) (before : Nat) (content : String) : Edit Unit := do
  let text ← Edit.create (·.createText content)
  Edit.apply fun d => do
    d.checkPlacement id text
    pure ((d.detach text).attach id text fun siblings =>
      siblings.take before ++ text :: siblings.drop before)

/-- Replaces the text children of a node by one new text in the place of the first of them, or in
front where there was none. Empty text only takes the text children away. -/
def setDirectText (id : NodeId) (content : String) : Edit Unit := do
  let d ← get
  if !d.contains id then throw (.unknownNode id)
  let texts := d.childTexts id
  let before := match texts with
    | [] => 0
    | first :: _ => ((d.children id).takeWhile (· ≠ first)).length
  texts.forM fun text => Edit.apply (·.remove text)
  if content ≠ "" then insertText id before content

end Document

end LiveMarkup
