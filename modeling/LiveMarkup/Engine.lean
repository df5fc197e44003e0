import LiveMarkup.Cache
import LiveMarkup.Document.Edit

/-! An engine: what outlives a rendering. It knows recursive templates by name, in the order in which
the names came up; the last definition of a name counts. Engines share nothing. -/
namespace LiveMarkup

/-- A fragment and the path of the sequence that its repetitions run over. -/
structure Definition where
  source : Option String
  fragment : Fragment

abbrev Registry := List (String × Definition)

namespace Registry

/-- Defines a name; also gives the definition that it had. -/
def register (r : Registry) (name : String) (definition : Definition) :
    Option Definition × Registry :=
  (Entries.get? name r, Entries.put name definition r)

/-- The definition of a name with another source, if one is given. -/
def instance? (r : Registry) (name : String) (source : Option String) : Option Definition :=
  (Entries.get? name r).map fun definition =>
    { definition with source := source <|> definition.source }

end Registry

/-- The name under which the source of a recursive template is bound. -/
def sourceBinding (name : String) : String := name ++ ".of"

structure Engine where
  settings : Settings
  registry : Registry
  cache : Cache
  /-- How many uses of recursive templates are being expanded, each inside the one before. -/
  depth : Nat

namespace Engine

def ofSettings (settings : Settings) : Engine := ⟨settings, [], .empty, 0⟩

/-- A new engine; the settings must be usable. -/
def create (settings : Settings) : Except SettingsError Engine := do
  settings.validate
  pure (ofSettings settings)

/-- Forgets the compiled templates. -/
def clearCache (e : Engine) : Engine := { e with cache := e.cache.clear }

end Engine

/-- An engine at work on a document. -/
structure Stage where
  engine : Engine
  document : Document

/-- Work on a stage; a failure keeps what was done before it. -/
abbrev Pass := EStateM TreeError Stage

namespace Pass

/-- Edits the document. -/
def edit {α : Type} (change : Edit α) : Pass α := fun stage =>
  match change stage.document with
  | .ok a d => .ok a { stage with document := d }
  | .error e d => .error e { stage with document := d }

/-- Makes one change of the document. -/
def apply (change : Document → Except TreeError Document) : Pass Unit := edit (Edit.apply change)

/-- Changes the engine. -/
def modifyEngine (f : Engine → Engine) : Pass Unit :=
  modify fun stage => { stage with engine := f stage.engine }

/-- Works one use of a recursive template further in, and comes back also from a failure. -/
def inner {α : Type} (work : Pass α) : Pass α := fun stage =>
  let enter (s : Stage) : Stage := { s with engine.depth := s.engine.depth + 1 }
  let leave (s : Stage) : Stage := { s with engine.depth := s.engine.depth - 1 }
  match work (enter stage) with
  | .ok a s => .ok a (leave s)
  | .error e s => .error e (leave s)

/-- Makes nodes for each element of a list and puts them into one row. -/
def gather {α : Type} (make : α → Pass (List NodeId)) : List α → Pass (List NodeId)
  | [] => pure []
  | a :: rest => do
    let nodes ← make a
    let others ← gather make rest
    pure (nodes ++ others)

end Pass

end LiveMarkup
