import LiveMarkup.Settings.Basic
import LiveMarkup.Tree

/-! Templates: what an element asks to be made, compiled from its tree. A template holds nothing of
a model, so it can be expanded against any. -/
namespace LiveMarkup

/-- Where a repetition finds its sequence. -/
inductive Source where
  | path (path : String)
  /-- The path that a recursive template is being expanded with. -/
  | recursive (name : String)
  | missing
  deriving DecidableEq

inductive Template where
  /-- A plain element; its text is the direct text of the tree. -/
  | element (tag : String) (attributes : List (String × String)) (text : String)
      (children : List Template)
  | repetition (source : Source) (binding : Option String) (children : List Template)
  | conditional (test : Option String) (children : List Template)
  /-- A definition under a name, or a use of the definition of another name. -/
  | recursive (name use source : Option String) (children : List Template)

/-- A row of templates that are expanded one after another. -/
abbrev Fragment := List Template

namespace Template

def children : Template → Fragment
  | element _ _ _ children => children
  | repetition _ _ children => children
  | conditional _ children => children
  | recursive _ _ _ children => children

def isDirective : Template → Bool
  | element _ _ _ _ => false
  | _ => true

/-- The source of a repetition; `of` goes before `of-rec`. -/
def sourceOf (attributes : List (String × String)) : Source :=
  match Entries.get? "of" attributes, Entries.get? "of-rec" attributes with
  | some path, _ => .path path
  | none, some name => .recursive name
  | none, none => .missing

/-- A directive from the attributes of its element. An empty `as` binds nothing. -/
def ofDirective (directive : Directive) (attributes : List (String × String))
    (children : Fragment) : Template :=
  match directive with
  | .repetition =>
    repetition (sourceOf attributes) ((Entries.get? "as" attributes).filter (· ≠ "")) children
  | .conditional => conditional (Entries.get? "test" attributes) children
  | .recursive =>
    recursive (Entries.get? "name" attributes) (Entries.get? "use" attributes)
      (Entries.get? "of" attributes) children

mutual

/-- The templates of a tree: one for an element, none for a text. -/
def compile (s : Settings) : Tree → Fragment
  | .text _ => []
  | .element tag attributes children =>
    match s.directive? tag with
    | some directive => [ofDirective directive attributes (compileAll s children)]
    | none => [element tag attributes (Tree.directText children) (compileAll s children)]

def compileAll (s : Settings) : List Tree → Fragment
  | [] => []
  | tree :: rest => compile s tree ++ compileAll s rest

end

end Template

namespace Document

/-- The template of an element; other nodes have none. -/
def template? (d : Document) (s : Settings) (id : NodeId) : Option Template :=
  (d.elementTree? id).bind fun tree => (Template.compile s tree).head?

end Document

end LiveMarkup
