import LiveMarkup.Settings.Basic
import LiveMarkup.Tree

/-! The directives of a document as a flat list in document order. -/
namespace LiveMarkup

/-- A directive as it stands in a document; its depth is the number of directives around it. -/
structure Report where
  directive : Directive
  tag : String
  attributes : List (String × String)
  depth : Nat
  deriving DecidableEq

namespace Report

mutual

/-- The directives of a tree, itself included. -/
def ofTree (s : Settings) (depth : Nat) : Tree → List Report
  | .text _ => []
  | .element tag attributes children =>
    match s.directive? tag with
    | some directive => ⟨directive, tag, attributes, depth⟩ :: ofTrees s (depth + 1) children
    | none => ofTrees s depth children

def ofTrees (s : Settings) (depth : Nat) : List Tree → List Report
  | [] => []
  | tree :: rest => ofTree s depth tree ++ ofTrees s depth rest

end

/-- The directives of a document. -/
def ofDocument (s : Settings) (d : Document) : List Report := ofTrees s 0 d.content

def attribute? (r : Report) (name : String) : Option String := Entries.get? name r.attributes

/-- The names that recursive templates are defined under. -/
def defined (reports : List Report) : List String :=
  (reports.filter (·.directive = .recursive)).filterMap (·.attribute? "name")

/-- The names that are used, in places that do not define a name themselves. -/
def used (reports : List Report) : List String :=
  let nameless := reports.filter fun r => r.directive = .recursive ∧ (r.attribute? "name").isNone
  nameless.filterMap (·.attribute? "use")

/-- Keeps the first occurrence of each name. -/
def firsts (names : List String) : List String :=
  names.foldl (fun kept name => if name ∈ kept then kept else kept ++ [name]) []

/-- The names that are used but not defined, each once and in the order of first use. -/
def unresolved (reports : List Report) : List String :=
  firsts ((used reports).filter fun name => name ∉ defined reports)

/-- A directive as a line of a listing, indented by its depth; values stand as they are. -/
def line (r : Report) : String :=
  String.join (List.replicate r.depth "  ") ++ "<" ++ r.tag ++
    String.join (r.attributes.map fun a => " " ++ a.1 ++ "=\"" ++ a.2 ++ "\"") ++ ">"

end Report

end LiveMarkup
