import LiveMarkup.Document.Basic
import LiveMarkup.Text.Character

/-! Questions to a document. An address without a live node has nothing. -/
namespace LiveMarkup.Document

def tagName? (d : Document) (id : NodeId) : Option String :=
  (d.node? id).bind fun n => match n.kind with
    | .element tag _ => some tag
    | _ => none

def text? (d : Document) (id : NodeId) : Option String :=
  (d.node? id).bind fun n => match n.kind with
    | .text content => some content
    | _ => none

/-- All attributes of an element, in document order. -/
def attributes (d : Document) (id : NodeId) : List (String × String) :=
  match d.node? id with
  | some ⟨.element _ attributes, _, _, _⟩ => attributes
  | _ => []

def attribute? (d : Document) (id : NodeId) (name : String) : Option String :=
  Entries.get? name (d.attributes id)

def parent? (d : Document) (id : NodeId) : Option NodeId := (d.node? id).bind Node.parent

def children (d : Document) (id : NodeId) : List NodeId :=
  match d.node? id with
  | some n => n.children
  | none => []

def childElements (d : Document) (id : NodeId) : List NodeId :=
  (d.children id).filter fun c => (d.tagName? c).isSome

/-- The text children of a node. -/
def childTexts (d : Document) (id : NodeId) : List NodeId :=
  (d.children id).filter fun c => (d.text? c).isSome

/-- The text children's contents, each trimmed, put together. -/
def directText (d : Document) (id : NodeId) : String :=
  String.join (((d.children id).filterMap d.text?).map Text.trim)

/-- The siblings before a node, from the first one on. -/
def precedingSiblings (d : Document) (id : NodeId) : List NodeId :=
  match d.parent? id with
  | none => []
  | some p => if id ∈ d.children p then (d.children p).takeWhile (· ≠ id) else []

def previousSibling? (d : Document) (id : NodeId) : Option NodeId :=
  (d.precedingSiblings id).getLast?

def note? (d : Document) (id : NodeId) (key : String) : Option String :=
  (d.node? id).bind fun n => Entries.get? key n.notes

/-- Takes addresses from the front of a worklist and puts the children of each in its place, until
one has the wanted `id` attribute. Every live node is taken once, which bounds the fuel. -/
def searchById (d : Document) (id : String) : (fuel : Nat) → List NodeId → Option NodeId
  | 0, _ => none
  | _ + 1, [] => none
  | fuel + 1, n :: rest =>
    if d.attribute? n "id" = some id then some n else searchById d id fuel (d.children n ++ rest)

/-- The first element in document order, among those under the root, with a given `id`. -/
def elementById? (d : Document) (id : String) : Option NodeId :=
  d.searchById id (d.slots.size + 1) [.root]

/-- A node, its parent, the parent of that, and so on. -/
def lineage (d : Document) : (fuel : Nat) → NodeId → List NodeId
  | 0, _ => []
  | fuel + 1, id => id :: match d.parent? id with
    | none => []
    | some p => lineage d fuel p

/-- No line of parents is longer than the number of slots. -/
def isAncestorOrSelf (d : Document) (candidate id : NodeId) : Bool :=
  candidate ∈ d.lineage (d.slots.size + 1) id

end LiveMarkup.Document
