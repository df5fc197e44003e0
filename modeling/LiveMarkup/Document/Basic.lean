import LiveMarkup.Entries
import LiveMarkup.Text.Character
import LiveMarkup.Text.Digits

/-! Documents: nodes in numbered slots, linked to their parent and their children. A node is
addressed by its slot and by the slot's generation; freeing a slot raises its generation, so an
old address of a reused slot finds nothing. -/
namespace LiveMarkup

/-- The address of a node. -/
structure NodeId where
  slot : Nat
  generation : UInt32
  deriving DecidableEq

/-- The container of the top-level nodes sits in the first slot and is never freed. -/
def NodeId.root : NodeId := ⟨0, 0⟩

/-- How an address is shown in messages. -/
def NodeId.shown (id : NodeId) : String :=
  "NodeId(" ++ Text.decimalString id.slot ++ "v" ++ Text.decimalString id.generation.toNat ++ ")"

/-- Tells documents apart that give out equal addresses. -/
structure TreeId where
  number : Nat
  deriving DecidableEq

inductive NodeKind where
  | root
  | element (tag : String) (attributes : List (String × String))
  | text (content : String)
  deriving DecidableEq

/-- A node with its links and its notes; the notes are never written as markup. -/
structure Node where
  kind : NodeKind
  parent : Option NodeId
  children : List NodeId
  notes : List (String × String)
  deriving DecidableEq

/-- A node on its own. -/
def Node.detached (kind : NodeKind) : Node := ⟨kind, none, [], []⟩

structure Slot where
  generation : UInt32
  node : Option Node
  deriving DecidableEq

/-- The slots and, last freed first, the numbers of the vacant ones. -/
structure Document where
  tree : TreeId
  slots : Array Slot
  free : List Nat
  deriving DecidableEq

namespace Document

def empty (tree : TreeId) : Document := ⟨tree, #[⟨0, some (.detached .root)⟩], []⟩

/-- A document of equal content with an identity of its own. -/
def copy (d : Document) (tree : TreeId) : Document := { d with tree := tree }

/-- The live node at an address. -/
def node? (d : Document) (id : NodeId) : Option Node :=
  d.slots[id.slot]?.bind fun s => if s.generation = id.generation then s.node else none

def contains (d : Document) (id : NodeId) : Bool := (d.node? id).isSome

/-- Number of live nodes, the root among them. -/
def nodeCount (d : Document) : Nat := d.slots.countP (·.node.isSome)

/-- Changes the node at an address, if there is one. -/
def update (d : Document) (id : NodeId) (f : Node → Node) : Document :=
  { d with
    slots := d.slots.modify id.slot fun s =>
      if s.generation = id.generation then { s with node := s.node.map f } else s }

@[simp] theorem update_free (d : Document) (id : NodeId) (f : Node → Node) :
    (d.update id f).free = d.free := rfl

@[simp] theorem update_slots_size (d : Document) (id : NodeId) (f : Node → Node) :
    (d.update id f).slots.size = d.slots.size := by simp [update]

/-- An update is seen at its address and nowhere else. -/
theorem node?_update (d : Document) (id : NodeId) (f : Node → Node) (x : NodeId) :
    (d.update id f).node? x = if x = id then (d.node? id).map f else d.node? x := by
  obtain ⟨slot, generation⟩ := id
  obtain ⟨xslot, xgeneration⟩ := x
  simp only [node?, update, Array.getElem?_modify, NodeId.mk.injEq]
  by_cases hslot : slot = xslot
  · subst hslot
    cases d.slots[slot]? with
    | none => simp
    | some s => grind
  · simp [hslot, Ne.symm hslot]

@[simp] theorem node?_copy (d : Document) (tree : TreeId) (x : NodeId) :
    (d.copy tree).node? x = d.node? x := rfl

end Document

/-- Why an edit is refused. -/
inductive TreeError where
  | invalidTagName (name : String)
  | invalidAttributeName (name : String)
  | unknownNode (id : NodeId)
  | rootMoved
  | rootRemoved
  | childOfText
  | ownSubtree
  | attributeOfNonElement
  | notAChild (node parent : NodeId)
  | outOfSlots
  deriving DecidableEq

/-- The edits that would break the tree share one beginning of their messages. -/
def TreeError.invalidOperation (cause : String) : String :=
  "Invalid tree operation: " ++ cause

def TreeError.message : TreeError → String
  | invalidTagName name => "Invalid tag name: " ++ Text.quoted name
  | invalidAttributeName name => "Invalid attribute name: " ++ Text.quoted name
  | unknownNode id => "Unknown or removed node: " ++ id.shown
  | rootMoved => invalidOperation "the document root cannot be moved"
  | rootRemoved => invalidOperation "the document root cannot be removed"
  | childOfText => invalidOperation "text nodes cannot have children"
  | ownSubtree => invalidOperation "a node cannot be inserted into its own subtree"
  | attributeOfNonElement => invalidOperation "only elements carry attributes"
  | notAChild node parent =>
    invalidOperation (node.shown ++ " is not a child of " ++ parent.shown)
  | outOfSlots => invalidOperation "document has run out of node slots"

end LiveMarkup
