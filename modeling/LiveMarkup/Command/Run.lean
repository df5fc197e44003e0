import LiveMarkup.Command.Error
import LiveMarkup.Markup.Reader
import LiveMarkup.Report
import LiveMarkup.Settings.Decode

/-! The commands, as functions of the files that they read. -/
namespace LiveMarkup

/-- The texts of files by path; a file that is missing or holds no text has none. -/
abbrev Files := String → Option String

/-- What the render command is asked to do. -/
structure RenderOptions where
  template : String
  model : Option String
  script : Option String
  config : Option String
  snapshots : Bool

namespace Command

def readFile (files : Files) (role : FileRole) (path : String) : Except CommandError String :=
  match files path with
  | some text => .ok text
  | none => .error (.unreadable role path)

def loadTemplate (files : Files) (path : String) : Except CommandError Document := do
  let text ← readFile files .template path
  match Document.read ⟨0⟩ text with
  | .ok d => pure d
  | .error e => throw (.template path e)

/-- Without a file the settings have their defaults. -/
def loadSettings (files : Files) : Option String → Except CommandError Settings
  | none => .ok .default
  | some path => do
    let text ← readFile files .config path
    match Settings.ofFile? text with
    | some s => pure s
    | none => throw (.undecodedSettings path)

/-- Without a file the model is an empty mapping; else it must be a container. -/
def loadModel (files : Files) : Option String → Except CommandError Value
  | none => .ok .empty
  | some path => do
    let text ← readFile files .model path
    match Json.read? Json.nestingLimit text with
    | none => throw (.invalidModel path)
    | some j =>
      let model := Value.ofJson j
      if model.isContainer then pure model else throw (.scalarModel model.kind path)

def loadScript (files : Files) (path : String) : Except CommandError Script := do
  let text ← readFile files .script path
  match (Json.read? Json.nestingLimit text).bind Script.ofJson? with
  | some script => pure script
  | none => throw (.invalidScript path)

/-- Snapshots of a script with a blank line between each two, or the last one alone. -/
def snapshotText (all : Bool) (snapshots : List String) : String :=
  (if all then "\n\n".intercalate snapshots else snapshots.getLastD "") ++ "\n"

/-- What the render command writes: the document after a rendering, or what a script makes of it
afterwards. -/
def render (files : Files) (o : RenderOptions) : Except CommandError String := do
  let document ← loadTemplate files o.template
  let model ← loadModel files o.model
  let settings ← loadSettings files o.config
  let engine ← (Engine.create settings).mapError .unusableSettings
  match Pass.render .root model .empty ⟨engine, document⟩ with
  | .error e _ => throw (.render o.template e)
  | .ok _ stage =>
    match o.script with
    | none => pure (stage.document.markup ++ "\n")
    | some path =>
      let script ← loadScript files path
      let snapshots ← (script.replay model stage).mapError .replay
      pure (snapshotText o.snapshots snapshots)

/-- The line under a listing. -/
def summary (path : String) (n : Nat) : String :=
  path ++ ": " ++ Text.decimalString n ++ " directive" ++ (if n = 1 then "" else "s")

/-- What the check command writes: a line for each directive of a template, and their number. -/
def check (files : Files) (template : String) (config : Option String) :
    Except CommandError String := do
  let settings ← loadSettings files config
  settings.validate.mapError .unusableSettings
  let document ← loadTemplate files template
  let reports := Report.ofDocument settings document
  let lines := reports.map Report.line ++ [summary template reports.length]
  pure (String.join (lines.map (· ++ "\n")))

end Command

end LiveMarkup
