import LiveMarkup.Engine
import LiveMarkup.Filling

/-! Expansion: making detached nodes from a template. An element gives one node; a directive gives
what its children give, as often as it asks for. -/
namespace LiveMarkup

/-- What expands the fragment of a recursive template that is used. -/
abbrev Opener := Fragment → Scope → Pass (List NodeId)

namespace Expansion

/-- The sequence at a path; anything else counts as an empty one. -/
def itemsAt (path : String) (model : Value) (scope : Scope) : List Value :=
  match Path.resolve path model scope with
  | some (.list items) => items
  | _ => []

/-- The path of a repetition. A recursive source is the path that the use around it has bound, or
else the one that the definition has. -/
def sourcePath? (registry : Registry) (scope : Scope) : Source → Option String
  | .path path => some path
  | .recursive name =>
    match scope.find? (sourceBinding name) with
    | some (.string path) => some path
    | _ => (Entries.get? name registry).bind Definition.source
  | .missing => none

/-- A frame inside a scope that binds the source of a recursive template, if it has one. -/
def sourceFrame (scope : Scope) (name : String) : Option String → Scope
  | some path => scope.child.bind (sourceBinding name) (.string path)
  | none => scope.child

/-- Whether a condition holds; a condition without a test does not. -/
def holds (test : Option String) (model : Value) (scope : Scope) : Bool :=
  match test.bind fun path => Path.resolve path model scope with
  | some v => v.isTruthy
  | none => false

/-- Makes the node of an element template, with its text and attributes filled but without
children. The mark of generated nodes goes on last, over an attribute of the same name. -/
def makeElement (tag : String) (attributes : List (String × String)) (text : String)
    (model : Value) (scope : Scope) : Pass NodeId := do
  let stage ← get
  let node ← Pass.edit (Edit.create (·.createElement tag))
  if text ≠ "" then
    Pass.edit (Document.setDirectText node text)
    Pass.apply (·.setNote node textSource text)
  attributes.forM fun a => Pass.apply (·.setAttribute node a.1 a.2)
  Pass.apply (·.setAttribute node stage.engine.settings.generatedAttribute "true")
  Pass.edit (Document.fill node model scope)
  pure node

/-- Expands the fragment of a name with its source or another one. A name without definition and a
use at the bound of the depth give nothing. -/
def use (opener : Opener) (name : String) (source : Option String) (scope : Scope) :
    Pass (List NodeId) := do
  let stage ← get
  match stage.engine.registry.instance? name source with
  | none => pure []
  | some definition =>
    if stage.engine.settings.maxDepth ≤ stage.engine.depth then pure []
    else Pass.inner (opener definition.fragment (sourceFrame scope name definition.source))

mutual

/-- Expands one template. -/
def expand (opener : Opener) (model : Value) : Template → Scope → Pass (List NodeId)
  | .element tag attributes text children, scope => do
    let node ← makeElement tag attributes text model scope
    expandInto opener model node children scope
    pure [node]
  | .repetition source binding children, scope => do
    let stage ← get
    match sourcePath? stage.engine.registry scope source with
    | none => pure []
    | some path =>
      let name := binding.getD stage.engine.settings.defaultBinding
      Pass.gather (fun item => expandAll opener model children (scope.child.bind name item))
        (itemsAt path model scope)
  | .conditional test children, scope =>
    if holds test model scope then expandAll opener model children scope else pure []
  | .recursive name target source children, scope =>
    match name, target with
    | some name, _ => do
      Pass.modifyEngine fun e =>
        { e with registry := (e.registry.register name ⟨source, children⟩).2 }
      expandAll opener model children (sourceFrame scope name source)
    | none, some target => use opener target source scope
    | none, none => expandAll opener model children scope

/-- Expands the children of an element one by one; what a child gives is appended at once. -/
def expandInto (opener : Opener) (model : Value) (node : NodeId) : Fragment → Scope → Pass Unit
  | [], _ => pure ()
  | template :: rest, scope => do
    let outputs ← expand opener model template scope
    outputs.forM fun output => Pass.apply (·.append node output)
    expandInto opener model node rest scope

/-- Expands templates one after another and puts their nodes into one row. -/
def expandAll (opener : Opener) (model : Value) : Fragment → Scope → Pass (List NodeId)
  | [], _ => pure []
  | template :: rest, scope => do
    let nodes ← expand opener model template scope
    let others ← expandAll opener model rest scope
    pure (nodes ++ others)

end

/-- Opens fragments with at most `room` uses of recursive templates inside each other. -/
def openWithin (model : Value) : (room : Nat) → Opener
  | 0 => fun _ _ => pure []
  | room + 1 => fun fragment scope => expandAll (openWithin model room) model fragment scope

end Expansion

namespace Pass

/-- The opener for what the settings leave of the depth. -/
def opener (model : Value) : Pass Opener := do
  let stage ← get
  pure (Expansion.openWithin model (stage.engine.settings.maxDepth - stage.engine.depth))

/-- Expands a template to detached nodes. -/
def expand (template : Template) (model : Value) (scope : Scope) : Pass (List NodeId) := do
  Expansion.expand (← opener model) model template scope

/-- Expands the definition of a recursive template to detached nodes. -/
def use (name : String) (source : Option String) (model : Value) (scope : Scope) :
    Pass (List NodeId) := do
  Expansion.use (← opener model) name source scope

/-- Expands the template of a node, which is compiled only where the cache does not have it. -/
def expandNode (id : NodeId) (model : Value) (scope : Scope) : Pass (List NodeId) := do
  let stage ← get
  let d := stage.document
  let (template?, cache) := stage.engine.cache.getOrCompile d.tree id fun _ =>
    d.template? stage.engine.settings id
  modifyEngine fun e => { e with cache := cache }
  match template? with
  | none => pure []
  | some template => expand template model scope

end Pass

end LiveMarkup
