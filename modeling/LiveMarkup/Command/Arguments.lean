import LiveMarkup.Command.Help
import LiveMarkup.Command.Run
import LiveMarkup.Entries

/-! The command line. Options may stand anywhere after the name of the command, long ones with
their value behind an equals sign or in the next argument, short ones also with it attached and in
clusters; after two hyphens all is positional. -/
namespace LiveMarkup

/-- What the program is asked to do. -/
inductive Request where
  | render (options : RenderOptions) (output : Option String)
  | check (template : String) (config : Option String)

/-- Why the arguments ask for no command. -/
inductive Usage where
  | wrong
  | help (topic : Topic)
  | version
  deriving DecidableEq

namespace Arguments

/-- What has been read: options by their long name, flags with an empty value, and a path. -/
structure Parsed where
  options : List (String × String)
  path : Option String

def Parsed.empty : Parsed := ⟨[], none⟩

/-- Takes an option. A value is not empty, and only counters may be repeated. -/
def Parsed.add (topic : Topic) (p : Parsed) (spec : OptionSpec) (value : String) :
    Except Usage Parsed :=
  match spec.kind with
  | .help => .error (.help topic)
  | .version => .error .version
  | .counter => .ok p
  | kind =>
    if Entries.contains spec.long p.options || (kind == .value && value == "") then .error .wrong
    else .ok { p with options := Entries.put spec.long value p.options }

/-- Takes a positional argument. There is only one, the path of the template, and it is not
empty. -/
def Parsed.addPath (p : Parsed) (path : String) : Except Usage Parsed :=
  if p.path.isSome || path == "" then .error .wrong else .ok { p with path := some path }

/-- Whether an argument is an option and not a value. A hyphen alone is a value. -/
def isOption (arg : String) : Bool :=
  match arg.toList with
  | '-' :: _ :: _ => true
  | _ => false

/-- The value of an option that is the next argument. -/
def nextValue : List String → Except Usage (String × List String)
  | [] => .error .wrong
  | arg :: rest => if isOption arg then .error .wrong else .ok (arg, rest)

/-- A long option, without its hyphens: its name, and the value behind an equals sign. -/
def longOption (topic : Topic) (s : List Char) (rest : List String) (p : Parsed) :
    Except Usage (Parsed × List String) := do
  let name := String.ofList (s.takeWhile (· != '='))
  let attached := match s.dropWhile (· != '=') with
    | [] => none
    | _ :: value => some (String.ofList value)
  match topic.options.find? (·.long == name) with
  | none => throw .wrong
  | some spec =>
    match spec.kind, attached with
    | .value, some value => pure (← p.add topic spec value, rest)
    | .value, none =>
      let (value, rest) ← nextValue rest
      pure (← p.add topic spec value, rest)
    | _, some _ => throw .wrong
    | _, none => pure (← p.add topic spec "", rest)

/-- A cluster of short options, without its hyphen. What follows an option with a value is the
value; an equals sign before it is dropped. -/
def shortOptions (topic : Topic) (rest : List String) :
    List Char → Parsed → Except Usage (Parsed × List String)
  | [], p => .ok (p, rest)
  | c :: cs, p => do
    match topic.options.find? (·.short == some c) with
    | none => throw .wrong
    | some spec =>
      match spec.kind, cs with
      | .value, [] =>
        let (value, rest) ← nextValue rest
        pure (← p.add topic spec value, rest)
      | .value, '=' :: value => pure (← p.add topic spec (String.ofList value), rest)
      | .value, value => pure (← p.add topic spec (String.ofList value), rest)
      | _, cs => shortOptions topic rest cs (← p.add topic spec "")

/-- Reads arguments from the left. Each round takes at least one, which bounds the fuel. -/
def read (topic : Topic) : (fuel : Nat) → List String → Parsed → Except Usage Parsed
  | 0, _, p => .ok p
  | _ + 1, [], p => .ok p
  | fuel + 1, arg :: rest, p =>
    match arg.toList with
    | ['-', '-'] => rest.foldlM Parsed.addPath p
    | '-' :: '-' :: s => do
      let (p, rest) ← longOption topic s rest p
      read topic fuel rest p
    | '-' :: c :: cs => do
      let (p, rest) ← shortOptions topic rest (c :: cs) p
      read topic fuel rest p
    | _ => do
      let p ← p.addPath arg
      read topic fuel rest p

/-- The path of the template, which has to be there. -/
def Parsed.template (p : Parsed) : Except Usage String :=
  match p.path with
  | some path => .ok path
  | none => .error .wrong

def parseRender (args : List String) : Except Usage Request := do
  let p ← read .render args.length args .empty
  let template ← p.template
  let option (name : String) : Option String := Entries.get? name p.options
  let snapshots := (option "snapshots").isSome
  if snapshots && (option "script").isNone then throw .wrong
  pure (.render ⟨template, option "model", option "script", option "config", snapshots⟩
    (option "output"))

def parseCheck (args : List String) : Except Usage Request := do
  let p ← read .check args.length args .empty
  let template ← p.template
  pure (.check template (Entries.get? "config" p.options))

/-- Help may be asked for about a command. -/
def parseHelp : List String → Usage
  | [] => .help .program
  | [name] =>
    match Topic.commands.find? (·.name == name) with
    | some topic => .help topic
    | none => .wrong
  | _ => .wrong

/-- Options of the program itself, then the name of a command and its arguments. -/
def parse : List String → Except Usage Request
  | [] => .error .wrong
  | arg :: rest =>
    match arg.toList with
    | ['-', '-'] => .error .wrong
    | '-' :: '-' :: s => do
      let _ ← longOption .program s [] .empty
      parse rest
    | '-' :: c :: cs => do
      let _ ← shortOptions .program [] (c :: cs) .empty
      parse rest
    | _ =>
      if arg = "render" then parseRender rest
      else if arg = "check" then parseCheck rest
      else if arg = "help" then .error (parseHelp rest)
      else .error .wrong

end Arguments

end LiveMarkup
