import LiveMarkup.Text.Dotted
import LiveMarkup.Text.Character
import LiveMarkup.Value

/-! Observed models. A model is read and written through handles, which address a place in it by
path. A write either changes the model at that place and is told to the listener, once and with
the whole new model, or it changes nothing and is told to nobody. A locked model refuses every
write; it is locked while its listener runs and while a value of it is being read. -/
namespace LiveMarkup

/-- One step of a handle's path. -/
inductive PathStep where
  | key (name : String)
  | index (n : Nat)
  deriving DecidableEq

def PathStep.shown : PathStep → String
  | key name => name
  | index n => Text.decimalString n

/-- The value one step into another. A step fits only the kind of container it was made for. -/
def PathStep.from? (step : PathStep) (v : Value) : Option Value :=
  match step, v with
  | key name, .map entries => Entries.get? name entries
  | index n, .list items => items[n]?
  | _, _ => none

/-- A place in a model. -/
structure Handle where
  steps : List PathStep
  deriving DecidableEq

namespace Handle

def root : Handle := ⟨[]⟩

def path (h : Handle) : String := Text.joinDots (h.steps.map PathStep.shown)

/-- The value at a handle's place, if the place is still there. -/
def locate? (h : Handle) (model : Value) : Option Value :=
  h.steps.foldlM (fun v step => step.from? v) model

/-- How a handle is shown. -/
def shown (h : Handle) : String := "Reactive \x7b path: " ++ Text.quoted h.path ++ ", .. \x7d"

end Handle

inductive ModelError where
  | stalePath (path : String)
  | notAContainer (path : String)
  | notASequence (path : String)
  | invalidIndex (key : String)
  | outOfBounds (index length : Nat)
  | missingKey (key : String)
  | reentrant
  deriving DecidableEq

def ModelError.message : ModelError → String
  | stalePath path => "No value at path '" ++ path ++ "'"
  | notAContainer path => "Value at path '" ++ path ++ "' is not a mapping or sequence"
  | notASequence path => "Value at path '" ++ path ++ "' is not a sequence"
  | invalidIndex key => "'" ++ key ++ "' is not a valid sequence index"
  | outOfBounds index length =>
    "Index " ++ Text.decimalString index ++ " is out of bounds for a sequence of length " ++
      Text.decimalString length
  | missingKey key => "No key '" ++ key ++ "' to remove"
  | reentrant => "Model was written while its change listener was running"

/-- What one key of a container holds: a scalar, or a place of its own. -/
inductive Entry where
  | scalar (v : Value)
  | nested (h : Handle)

namespace Handle

/-- The step for a key of a container. -/
def step? (key : String) : Value → Option PathStep
  | .map _ => some (.key key)
  | .list _ => (Text.index? key).map .index
  | _ => none

/-- Reads one key through a handle. -/
def get? (h : Handle) (model : Value) (key : String) : Option Entry := do
  let target ← h.locate? model
  let step ← step? key target
  let v ← step.from? target
  pure (if v.isContainer then .nested ⟨h.steps ++ [step]⟩ else .scalar v)

/-- Follows keys through containers. -/
def follow (model : Value) : List String → Handle → Option Handle
  | [], h => some h
  | key :: rest, h =>
    match h.get? model key with
    | some (.nested h) => follow model rest h
    | _ => none

/-- Follows a dotted path to a container below. -/
def nested? (h : Handle) (model : Value) (path : String) : Option Handle :=
  follow model (Text.segments path) h

end Handle

inductive Write where
  /-- Sets a key, or an index up to one past the end. -/
  | set (key : String) (value : Value)
  | push (value : Value)
  | insert (index : Nat) (value : Value)
  | remove (key : String)
  | replace (value : Value)

/-- What a write gives back. -/
inductive Outcome where
  | done
  | old (v : Value)

namespace Write

/-- The index for a key, which must be a written index. -/
def index (key : String) : Except ModelError Nat :=
  match Text.index? key with
  | some i => .ok i
  | none => .error (.invalidIndex key)

/-- Writes to a value in place; the path is what errors call the value. -/
def apply (path : String) (w : Write) : EStateM ModelError Value Outcome := do
  match w, ← get with
  | set key value, .map entries =>
    EStateM.set (Value.map (Entries.put key value entries))
    pure .done
  | set key value, .list items =>
    let i ← MonadExcept.ofExcept (index key)
    if i < items.length then EStateM.set (Value.list (items.set i value))
    else if i = items.length then EStateM.set (Value.list (items ++ [value]))
    else throw (.outOfBounds i items.length)
    pure .done
  | set _ _, _ => throw (.notAContainer path)
  | push value, .list items =>
    EStateM.set (Value.list (items ++ [value]))
    pure .done
  | push _, _ => throw (.notASequence path)
  | insert i value, .list items =>
    if i ≤ items.length then EStateM.set (Value.list (items.take i ++ value :: items.drop i))
    else throw (.outOfBounds i items.length)
    pure .done
  | insert _ _, _ => throw (.notASequence path)
  | remove key, .map entries =>
    match Entries.get? key entries with
    | some v =>
      EStateM.set (Value.map (Entries.erase key entries))
      pure (.old v)
    | none => throw (.missingKey key)
  | remove key, .list items =>
    let i ← MonadExcept.ofExcept (index key)
    match items[i]? with
    | some v =>
      EStateM.set (Value.list (items.eraseIdx i))
      pure (.old v)
    | none => throw (.outOfBounds i items.length)
  | remove _, _ => throw (.notAContainer path)
  | replace value, old =>
    EStateM.set value
    pure (.old old)

/-- What writing to a part in place leaves of the whole. -/
def within (whole : Value → Value) :
    EStateM.Result ModelError Value Outcome → EStateM.Result ModelError Value Outcome
  | .ok outcome v => .ok outcome (whole v)
  | .error e v => .error e (whole v)

/-- Writes in place to what is at the end of some steps into a value. -/
def applyAt (path : String) (w : Write) : List PathStep → EStateM ModelError Value Outcome
  | [], target => w.apply path target
  | .key name :: rest, .map entries =>
    match Entries.get? name entries with
    | none => .error (.stalePath path) (.map entries)
    | some v => within (fun v => .map (Entries.put name v entries)) (applyAt path w rest v)
  | .index i :: rest, .list items =>
    match items[i]? with
    | none => .error (.stalePath path) (.list items)
    | some v => within (fun v => .list (items.set i v)) (applyAt path w rest v)
  | _ :: _, v => .error (.stalePath path) v

end Write

/-- A model and whether it refuses writes at the moment. -/
structure Model where
  value : Value
  locked : Bool

namespace Model

/-- Writes through a handle: the answer, and the model that is left. -/
def answer (m : Model) (h : Handle) (w : Write) : Except ModelError Outcome × Model :=
  if m.locked then (.error .reentrant, m)
  else
    match w.applyAt h.path h.steps m.value with
    | .ok outcome value => (.ok outcome, { m with value := value })
    | .error e value => (.error e, { m with value := value })

/-- The model that a write leaves, if it succeeds. -/
def write (m : Model) (h : Handle) (w : Write) : Except ModelError (Model × Outcome) :=
  match m.answer h w with
  | (.ok outcome, m) => .ok (m, outcome)
  | (.error e, _) => .error e

def lock (m : Model) : Model := { m with locked := true }

end Model

/-- A model with a listener, which keeps a state of its own. The listener sees the locked model. -/
structure Observed (σ : Type) where
  model : Model
  listener : Model → σ → σ
  state : σ

namespace Observed

variable {σ : Type}

/-- Starts to observe a value. -/
def wrap (value : Value) (listener : Model → σ → σ) (state : σ) : Observed σ :=
  ⟨⟨value, false⟩, listener, state⟩

/-- Writes through a handle and, when the write succeeds, runs the listener. -/
def write (o : Observed σ) (h : Handle) (w : Write) : Except ModelError Outcome × Observed σ :=
  match o.model.answer h w with
  | (.error e, model) => (.error e, { o with model := model })
  | (.ok outcome, model) =>
    (.ok outcome, { o with model := model, state := o.listener model.lock o.state })

end Observed

end LiveMarkup
