import LiveMarkup.Markup.Error
import LiveMarkup.Script

/-! Why a command fails. -/
namespace LiveMarkup

/-- What a file is read for. -/
inductive FileRole where
  | template
  | model
  | script
  | config
  deriving DecidableEq

def FileRole.name : FileRole → String
  | template => "template"
  | model => "model"
  | script => "script"
  | config => "config"

inductive CommandError where
  | unreadable (role : FileRole) (path : String)
  | template (path : String) (cause : MarkupError)
  | invalidModel (path : String)
  | scalarModel (kind path : String)
  | invalidScript (path : String)
  | undecodedSettings (path : String)
  | unusableSettings (cause : SettingsError)
  | render (path : String) (cause : TreeError)
  | replay (cause : ReplayError)
  | unwritable (path : String)
  deriving DecidableEq

namespace CommandError

/-- What was being done, and after it the cause if there is one to tell. -/
def chain : CommandError → List String
  | unreadable role path => ["Failed to read " ++ role.name ++ ": " ++ path]
  | template path cause => ["Failed to parse template: " ++ path, cause.message]
  | invalidModel path => ["Invalid JSON in model: " ++ path]
  | scalarModel kind path =>
    ["Model must be a mapping or sequence, found " ++ kind ++ ": " ++ path]
  | invalidScript path => ["Invalid script: " ++ path]
  | undecodedSettings path => ["Invalid engine config: " ++ path]
  | unusableSettings cause => ["Invalid engine configuration", cause.message]
  | render path cause => ["Failed to render " ++ path, cause.message]
  | replay (.step n cause) =>
    ["Script step " ++ Text.decimalString n ++ " failed", cause.message]
  | replay (.render n cause) =>
    ["Render after step " ++ Text.decimalString n ++ " failed", cause.message]
  | unwritable path => ["Failed to write output: " ++ path]

/-- The whole chain on one line. -/
def message (e : CommandError) : String := ": ".intercalate e.chain

/-- What was being done. -/
def context (e : CommandError) : String := e.chain.headD ""

end CommandError

end LiveMarkup
