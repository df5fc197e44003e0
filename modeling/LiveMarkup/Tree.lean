import LiveMarkup.Document.Query
import LiveMarkup.Markup.Entity

/-! Trees: what a document shows, without addresses, notes and detached nodes. Trees are what is
written as markup and what templates are compiled from. -/
namespace LiveMarkup

inductive Tree where
  | element (tag : String) (attributes : List (String × String)) (children : List Tree)
  | text (content : String)

namespace Tree

mutual

def decideEq : (t u : Tree) → Decidable (t = u)
  | text content, text content' => decidable_of_iff (content = content') (by simp)
  | text _, element _ _ _ => .isFalse nofun
  | element _ _ _, text _ => .isFalse nofun
  | element tag attributes children, element tag' attributes' children' =>
    have := decideEqAll children children'
    decidable_of_iff (tag = tag' ∧ attributes = attributes' ∧ children = children') (by simp)

def decideEqAll : (ts us : List Tree) → Decidable (ts = us)
  | [], [] => .isTrue rfl
  | [], _ :: _ => .isFalse nofun
  | _ :: _, [] => .isFalse nofun
  | t :: ts, u :: us =>
    have := decideEq t u
    have := decideEqAll ts us
    decidable_of_iff (t = u ∧ ts = us) (by simp)

end

instance : DecidableEq Tree := decideEq

/-- An attribute with a space in front, its value escaped and in double quotes. -/
def attributeMarkup (a : String × String) : List Char :=
  ' ' :: a.1.toList ++ '=' :: '"' :: Markup.escape true a.2.toList ++ ['"']

/-- A tag with its attributes, without the mark that closes it. -/
def tagMarkup (tag : String) (attributes : List (String × String)) : List Char :=
  '<' :: tag.toList ++ attributes.flatMap attributeMarkup

mutual

/-- Elements without children are written as empty ones. -/
def markup : Tree → List Char
  | text content => Markup.escape false content.toList
  | element tag attributes [] => tagMarkup tag attributes ++ ['/', '>']
  | element tag attributes (child :: children) =>
    tagMarkup tag attributes ++ '>' :: child.markup ++ markupAll children ++
      '<' :: '/' :: tag.toList ++ ['>']

def markupAll : List Tree → List Char
  | [] => []
  | tree :: rest => tree.markup ++ markupAll rest

end

def content? : Tree → Option String
  | text content => some content
  | element _ _ _ => none

/-- The text children's contents, each trimmed, put together. -/
def directText (children : List Tree) : String :=
  String.join ((children.filterMap content?).map Text.trim)

mutual

/-- Number of nodes. -/
def size : Tree → Nat
  | text _ => 1
  | element _ _ children => sizeAll children + 1

def sizeAll : List Tree → Nat
  | [] => 0
  | tree :: rest => tree.size + sizeAll rest

end

end Tree

namespace Document

/-- The trees that a node stands for: its own one for an element or a text, those of its children
for the root, none without a live node. The fuel bounds the depth. -/
def treesAt (d : Document) : (fuel : Nat) → NodeId → List Tree
  | 0, _ => []
  | fuel + 1, id =>
    match d.node? id with
    | none => []
    | some n =>
      let inner := n.children.flatMap (treesAt d fuel)
      match n.kind with
      | .root => inner
      | .element tag attributes => [.element tag attributes inner]
      | .text content => [.text content]

/-- No line of children is longer than the number of slots. -/
def trees (d : Document) (id : NodeId) : List Tree := d.treesAt d.slots.size id

/-- The trees under the root. -/
def content (d : Document) : List Tree := d.trees .root

/-- The tree of an element. -/
def elementTree? (d : Document) (id : NodeId) : Option Tree :=
  if (d.tagName? id).isSome then (d.trees id).head? else none

/-- A node and what hangs below it as markup. -/
def serialize (d : Document) (id : NodeId) : String :=
  String.ofList (Tree.markupAll (d.trees id))

/-- What hangs below a node as markup. -/
def serializeChildren (d : Document) (id : NodeId) : String :=
  String.ofList (Tree.markupAll ((d.children id).flatMap d.trees))

/-- The whole document as markup. -/
def markup (d : Document) : String := String.ofList (Tree.markupAll d.content)

end Document

end LiveMarkup
