import LiveMarkup.Expansion

/-! Rendering a document in place. Each directive outside the others is an anchor: the nodes that
it generated before are swept away, it is expanded anew, what comes out is put right before it, and
it is hidden. Plain elements are filled, and so is what is below them. -/
namespace LiveMarkup

/-- What a rendering did: anchors expanded, nodes put before them, nodes swept away. -/
structure Counts where
  directives : Nat
  generated : Nat
  swept : Nat
  deriving DecidableEq

namespace Counts

def zero : Counts := ⟨0, 0, 0⟩

def add (a b : Counts) : Counts :=
  ⟨a.directives + b.directives, a.generated + b.generated, a.swept + b.swept⟩

end Counts

/-- Whether a node carries the mark of generated nodes. -/
def Document.isGenerated (d : Document) (s : Settings) (id : NodeId) : Bool :=
  d.attribute? id s.generatedAttribute == some "true"

/-- The directive of an element. -/
def Document.directive? (d : Document) (s : Settings) (id : NodeId) : Option Directive :=
  (d.tagName? id).bind s.directive?

/-- The run of generated nodes right before an anchor, the nearest first. -/
def Document.generatedRun (d : Document) (s : Settings) (anchor : NodeId) : List NodeId :=
  (d.precedingSiblings anchor).reverse.takeWhile (d.isGenerated s)

namespace Pass

/-- Removes the run of generated nodes before an anchor. -/
def sweep (anchor : NodeId) : Pass Nat := do
  let stage ← get
  let run := stage.document.generatedRun stage.engine.settings anchor
  run.forM fun node => apply (·.remove node)
  pure run.length

/-- Renders an anchor under its parent. -/
def renderAnchor (parent anchor : NodeId) (model : Value) (scope : Scope) : Pass Counts := do
  let swept ← sweep anchor
  let nodes ← expandNode anchor model scope
  nodes.forM fun node => apply (·.insertBefore parent node anchor)
  let stage ← get
  apply (·.setAttribute anchor stage.engine.settings.hiddenAttribute "")
  pure ⟨1, nodes.length, swept⟩

/-- Adds up what is done for each element of a list. -/
def sum {α : Type} (work : α → Pass Counts) : List α → Pass Counts
  | [] => pure .zero
  | a :: rest => do
    let counts ← work a
    let others ← sum work rest
    pure (counts.add others)

/-- Renders the elements that are children of a node when it is come to. The fuel bounds the
depth. -/
def renderChildren (model : Value) (scope : Scope) : (fuel : Nat) → NodeId → Pass Counts
  | 0, _ => pure .zero
  | fuel + 1, parent => do
    let stage ← get
    sum (fun child => do
      let stage ← get
      let d := stage.document
      let s := stage.engine.settings
      if d.isGenerated s child then pure .zero
      else if (d.directive? s child).isSome then renderAnchor parent child model scope
      else do
        edit (Document.fill child model scope)
        renderChildren model scope fuel child) (stage.document.childElements parent)

/-- Renders what is below a node. No line of children is longer than the number of slots. -/
def render (root : NodeId) (model : Value) (scope : Scope) : Pass Counts := do
  modifyEngine fun e => { e with depth := 0 }
  let stage ← get
  renderChildren model scope stage.document.slots.size root

end Pass

end LiveMarkup
