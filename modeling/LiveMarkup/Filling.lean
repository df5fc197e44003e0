import LiveMarkup.Document.Edit
import LiveMarkup.Placeholder

/-! Filling a node in place. What a node says before it is first filled is noted as its source;
from then on it is filled from the source, so filling again with another model is filling anew. -/
namespace LiveMarkup

/-- The note that holds the source of the direct text. -/
def textSource : String := "template-text"

/-- The note that holds the source of an attribute. -/
def attributeSource (name : String) : String := "template-attr:" ++ name

namespace Document

/-- A noted source, or what is there now; an empty note does not count. -/
def sourceOr (d : Document) (id : NodeId) (key current : String) : String :=
  match d.note? id key with
  | some source => if source = "" then current else source
  | none => current

/-- Fills the direct text of a node. -/
def fillText (id : NodeId) (model : Value) (scope : Scope) : Edit Unit := do
  let d ← get
  let source := d.sourceOr id textSource (d.directText id)
  if Placeholder.appearsIn source then
    Edit.apply (·.setNote id textSource source)
    setDirectText id (Placeholder.fill source model scope)

/-- Fills one attribute of a node. -/
def fillAttribute (id : NodeId) (model : Value) (scope : Scope) (a : String × String) :
    Edit Unit := do
  let d ← get
  let source := d.sourceOr id (attributeSource a.1) a.2
  if Placeholder.appearsIn source then
    Edit.apply (·.setNote id (attributeSource a.1) source)
    Edit.apply (·.setAttribute id a.1 (Placeholder.fill source model scope))

/-- Fills a node: its direct text and, one by one, its attributes. -/
def fill (id : NodeId) (model : Value) (scope : Scope) : Edit Unit := do
  fillText id model scope
  let d ← get
  (d.attributes id).forM (fillAttribute id model scope)

end Document

end LiveMarkup
