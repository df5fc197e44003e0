import LiveMarkup.Json.Basic
import LiveMarkup.Observed
import LiveMarkup.Render

/-! Scripts: writes to a model that are replayed one after another, each followed by a rendering.
In a script, `set` and `remove` name the entry itself, `push` and `insert` the container. -/
namespace LiveMarkup

/-- A write and the dotted path of its container; the empty path is the model itself. -/
structure ScriptStep where
  container : String
  write : Write

inductive StepError where
  | noContainer (path : String)
  | refused (cause : ModelError)
  deriving DecidableEq

def StepError.message : StepError → String
  | noContainer path => "No mapping or sequence at " ++ Text.quoted path
  | refused cause => cause.message

namespace ScriptStep

/-- The parts of a step that may be given, each at most once. -/
structure Fields where
  path? : Option String
  value? : Option Value
  index? : Option Nat

/-- A step from the name of its operation and its parts. -/
def ofFields? (operation : String) (f : Fields) : Option ScriptStep :=
  match operation with
  | "set" => do
    let (container, key) := Text.splitEntry (← f.path?)
    pure ⟨container, .set key (← f.value?)⟩
  | "push" => do pure ⟨f.path?.getD "", .push (← f.value?)⟩
  | "insert" => do pure ⟨f.path?.getD "", .insert (← f.index?) (← f.value?)⟩
  | "remove" => do
    let (container, key) := Text.splitEntry (← f.path?)
    pure ⟨container, .remove key⟩
  | _ => none

/-- The parts that an operation takes, in the order of a list. -/
def parts : String → List String
  | "set" => ["path", "value"]
  | "push" => ["path", "value"]
  | "insert" => ["path", "index", "value"]
  | "remove" => ["path"]
  | _ => []

/-- Takes one part; a part of the wrong kind is refused. -/
def takePart? (f : Fields) (part : String) (j : Json) : Option Fields :=
  match part with
  | "path" => j.string?.map fun path => { f with path? := some path }
  | "index" => j.count?.map fun n => { f with index? := some n }
  | "value" => some { f with value? := some (.ofJson j) }
  | _ => none

def ofParts? (operation : String) (given : List (String × Json)) : Option ScriptStep :=
  (given.foldlM (fun f (part, j) => takePart? f part j) ⟨none, none, none⟩).bind
    (ofFields? operation)

/-- A step is an object with its operation under `op`, or a list that begins with it. Members that
the operation does not take are passed over; those that count may not be repeated. -/
def ofJson? : Json → Option ScriptStep
  | .object members =>
    match members.filter (·.1 == "op") with
    | [(_, .string operation)] =>
      let given := members.filter fun m => (parts operation).contains m.1
      if (given.map Prod.fst).Nodup then ofParts? operation given else none
    | _ => none
  | .array (.string operation :: items) =>
    let names := parts operation
    if items.length ≤ names.length then ofParts? operation (names.zip items) else none
  | _ => none

/-- The handle of a step's container. -/
def handle? (step : ScriptStep) (model : Value) : Option Handle :=
  if step.container = "" then some .root else Handle.root.nested? model step.container

end ScriptStep

abbrev Script := List ScriptStep

/-- A script is a list of steps. -/
def Script.ofJson? : Json → Option Script
  | .array items => items.mapM ScriptStep.ofJson?
  | _ => none

/-- A document that follows a model, and the first rendering of it that failed. -/
structure Follower where
  stage : Stage
  failure : Option TreeError

/-- Renders the document for a new model. -/
def Follower.follow (model : Model) (f : Follower) : Follower :=
  match Pass.render .root model.value .empty f.stage with
  | .ok _ stage => { f with stage := stage }
  | .error e stage => ⟨stage, f.failure <|> some e⟩

/-- Why a replay stops, and at which step, counted from one. -/
inductive ReplayError where
  | step (n : Nat) (cause : StepError)
  | render (n : Nat) (cause : TreeError)
  deriving DecidableEq

namespace Script

/-- Makes one write; the follower renders. -/
def applyStep (step : ScriptStep) (o : Observed Follower) :
    Except StepError (Observed Follower) :=
  match step.handle? o.model.value with
  | none => .error (.noContainer step.container)
  | some h =>
    match o.write h step.write with
    | (.ok _, o) => .ok o
    | (.error e, _) => .error (.refused e)

/-- Replays steps, of which the first has number `n`, and gives the markup after each. -/
def replayFrom (n : Nat) : Script → Observed Follower → Except ReplayError (List String)
  | [], _ => .ok []
  | step :: rest, o =>
    match applyStep step o with
    | .error e => .error (.step n e)
    | .ok o =>
      match o.state.failure with
      | some e => .error (.render n e)
      | none => do
        let others ← replayFrom (n + 1) rest o
        pure (o.state.stage.document.markup :: others)

/-- Replays a script on a model whose document has been rendered. -/
def replay (script : Script) (model : Value) (stage : Stage) :
    Except ReplayError (List String) :=
  replayFrom 1 script (.wrap model Follower.follow ⟨stage, none⟩)

end Script

end LiveMarkup
