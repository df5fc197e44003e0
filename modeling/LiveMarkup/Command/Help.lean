/-! The options of the program and of its commands, and the help about them. -/
namespace LiveMarkup

/-- Whether an option takes a value, only stands or falls, or may be repeated. -/
inductive OptionKind where
  | value
  | flag
  | counter
  | help
  | version
  deriving DecidableEq

structure OptionSpec where
  long : String
  short : Option Char
  kind : OptionKind
  about : String

/-- What help may be asked for. -/
inductive Topic where
  | program
  | render
  | check
  | help
  deriving DecidableEq

namespace Topic

/-- The commands of the program. -/
def commands : List Topic := [render, check, help]

/-- The name of a command; the program itself has none. -/
def name : Topic → String
  | program => ""
  | render => "render"
  | check => "check"
  | help => "help"

def about : Topic → String
  | program => "Render declarative markup templates"
  | render => "Render a template against a JSON model"
  | check => "Parse a template and list the directives it contains"
  | help => "Print this message or the help of the given subcommand(s)"

def verboseOption : OptionSpec :=
  ⟨"verbose", some 'v', .counter, "Increase log verbosity (-v debug, -vv trace)"⟩

def helpOption : OptionSpec := ⟨"help", some 'h', .help, "Print help"⟩

def configOption : OptionSpec := ⟨"config", some 'c', .value, "YAML file with engine settings"⟩

/-- The options of a command. Those of the program stand before the name of a command. -/
def options : Topic → List OptionSpec
  | program =>
    [verboseOption, helpOption, ⟨"version", some 'V', .version, "Print version"⟩]
  | render =>
    [⟨"model", some 'm', .value, "JSON file holding the model (defaults to an empty mapping)"⟩,
      ⟨"script", some 's', .value,
        "JSON array of model mutations to replay after the first render"⟩,
      configOption,
      ⟨"output", some 'o', .value, "Write output to FILE instead of stdout"⟩,
      ⟨"snapshots", none, .flag, "Write the tree after every script step, not just the last one"⟩,
      verboseOption, helpOption]
  | check => [configOption, verboseOption, helpOption]
  | help => []

/-- What stands behind the name of a command, with what is told about it. -/
def arguments : Topic → List (String × String)
  | program => []
  | render => [("<TEMPLATE>", "Markup template to render")]
  | check => [("<TEMPLATE>", "Markup template to check")]
  | help => [("[COMMAND]...", "Print help for the subcommand(s)")]

end Topic

/-- The forms of an option, the short one in a column of its own. -/
def OptionSpec.forms (o : OptionSpec) : String :=
  let short := match o.short with
    | some c => String.ofList ['-', c, ',', ' ']
    | none => "    "
  let more := match o.kind with
    | .value => " <" ++ o.long.toUpper ++ ">"
    | .counter => "..."
    | _ => ""
  short ++ "--" ++ o.long ++ more

namespace Help

/-- Lines of two columns. -/
def columns (rows : List (String × String)) : List String :=
  let width := (rows.map (·.1.length)).foldl max 0
  rows.map fun (a, b) => "  " ++ a ++ String.ofList (List.replicate (width - a.length + 2) ' ') ++ b

/-- Rows under a title, if there are any. -/
def part (title : String) (rows : List (String × String)) : List String :=
  if rows.isEmpty then [] else ["", title ++ ":"] ++ columns rows

/-- How a command is called, with the name of the program in front. -/
def usage (program : String) (t : Topic) : String :=
  let words := match t with
    | .program => [program, "[OPTIONS]", "<COMMAND>"]
    | .help => [program, t.name] ++ t.arguments.map Prod.fst
    | t => [program, t.name, "[OPTIONS]"] ++ t.arguments.map Prod.fst
  "Usage: " ++ " ".intercalate words

/-- The help about a topic: what it is for, how it is called, and what may be said. -/
def text (program : String) (t : Topic) : String :=
  let commands := match t with
    | .program => Topic.commands.map fun c => (c.name, c.about)
    | _ => []
  let lines := [t.about, "", usage program t] ++ part "Commands" commands ++
    part "Arguments" t.arguments ++ part "Options" (t.options.map fun o => (o.forms, o.about))
  String.join (lines.map (· ++ "\n"))

end Help

end LiveMarkup
