import LiveMarkup.Markup.Event
import LiveMarkup.Markup.Attribute
import LiveMarkup.Text.Character

/-! Settings of an engine: the tags of the three directives, the name that repetition binds, the
attributes that mark generated and hidden nodes, and the bound on recursion. -/
namespace LiveMarkup

/-- What an element may ask for. -/
inductive Directive where
  | repetition
  | conditional
  | recursive
  deriving DecidableEq

structure Settings where
  repeatTag : String
  conditionalTag : String
  recursiveTag : String
  defaultBinding : String
  generatedAttribute : String
  hiddenAttribute : String
  maxDepth : Nat
  deriving DecidableEq

inductive SettingsError where
  | invalidTag (key tag : String)
  | sharedTag (tag : String)
  | invalidAttribute (key name : String)
  | emptyBinding
  | zeroDepth
  deriving DecidableEq

def SettingsError.message (e : SettingsError) : String :=
  "Invalid configuration: " ++ match e with
    | invalidTag key tag => key ++ " " ++ Text.quoted tag ++ " is not a valid tag name"
    | sharedTag tag => "tag " ++ Text.quoted tag ++ " is used by more than one directive"
    | invalidAttribute key name =>
      key ++ " " ++ Text.quoted name ++ " is not a valid attribute name"
    | emptyBinding => "default-binding must not be empty"
    | zeroDepth => "max-recursion-depth must be at least 1"

namespace Settings

def default : Settings where
  repeatTag := "each"
  conditionalTag := "if"
  recursiveTag := "recursive-template"
  defaultBinding := "item"
  generatedAttribute := "data-generated"
  hiddenAttribute := "hidden"
  maxDepth := 50

/-- Equality of tags: letters of ASCII count without their case. -/
def sameTag (a b : String) : Bool := a.toList.map Markup.lower == b.toList.map Markup.lower

/-- The directive of a tag. A tag that is shared goes to the first one. -/
def directive? (s : Settings) (tag : String) : Option Directive :=
  if sameTag tag s.repeatTag then some .repetition
  else if sameTag tag s.conditionalTag then some .conditional
  else if sameTag tag s.recursiveTag then some .recursive
  else none

/-- A tag that another directive has, too. -/
def sharedTag? (s : Settings) : Option String :=
  if sameTag s.repeatTag s.conditionalTag || sameTag s.repeatTag s.recursiveTag then
    some s.repeatTag
  else if sameTag s.conditionalTag s.recursiveTag then some s.conditionalTag
  else none

/-- The first of the settings that cannot be used: tags, shared tags, attributes, the binding and
the depth, in this order. -/
def fault? (s : Settings) : Option SettingsError :=
  let tags := [("repeat-tag", s.repeatTag), ("conditional-tag", s.conditionalTag),
    ("recursive-tag", s.recursiveTag)]
  let attributes := [("generated-attribute", s.generatedAttribute),
    ("hidden-attribute", s.hiddenAttribute)]
  match tags.find? fun t => !Markup.isTagName t.2 with
  | some (key, tag) => some (.invalidTag key tag)
  | none =>
    match s.sharedTag? with
    | some tag => some (.sharedTag tag)
    | none =>
      match attributes.find? fun a => !Markup.isAttributeName a.2 with
      | some (key, name) => some (.invalidAttribute key name)
      | none =>
        if s.defaultBinding = "" then some .emptyBinding
        else if s.maxDepth = 0 then some .zeroDepth
        else none

def validate (s : Settings) : Except SettingsError Unit :=
  match s.fault? with
  | some e => .error e
  | none => .ok ()

example : Settings.default.fault? = none := by decide +kernel

end Settings

end LiveMarkup
