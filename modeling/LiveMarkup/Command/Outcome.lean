import LiveMarkup.Command.Arguments

/-! What a run of the program comes to. -/
namespace LiveMarkup

/-- The exit code, what is written to standard output and to a file, and why the run failed. -/
structure RunOutcome where
  code : Nat
  stdout : String
  written : Option (String × String)
  failure : Option CommandError

def programName : String := "canopy"

def programVersion : String := "0.1.0"

namespace RunOutcome

def failed (e : CommandError) : RunOutcome := ⟨1, "", none, some e⟩

/-- Wrong arguments end with the code 2; help and version end well. -/
def ofUsage : Usage → RunOutcome
  | .wrong => ⟨2, "", none, none⟩
  | .help topic => ⟨0, Help.text programName topic, none, none⟩
  | .version => ⟨0, programName ++ " " ++ programVersion ++ "\n", none, none⟩

end RunOutcome

/-- Runs a request. A rendering goes to the output file if one is named, else to standard
output. -/
def Request.run (files : Files) : Request → RunOutcome
  | .render options output =>
    match Command.render files options with
    | .error e => .failed e
    | .ok text =>
      match output with
      | some path => ⟨0, "", some (path, text), none⟩
      | none => ⟨0, text, none, none⟩
  | .check template config =>
    match Command.check files template config with
    | .error e => .failed e
    | .ok text => ⟨0, text, none, none⟩

/-- The paths that a request reads. -/
def Request.paths : Request → List String
  | .render o _ => o.template :: [o.model, o.script, o.config].filterMap id
  | .check template config => template :: config.toList

/-- Runs the program with some arguments on some files. -/
def runProgram (files : Files) (args : List String) : RunOutcome :=
  match Arguments.parse args with
  | .error usage => .ofUsage usage
  | .ok request => request.run files

end LiveMarkup
