import LiveMarkup.Json.Reader
import LiveMarkup.Settings.Basic
import LiveMarkup.Text.Character
import LiveMarkup.Yaml.Document

/-! Settings from data: a JSON object or array, or a YAML file of keys and values. Every setting has
a default; unknown and repeated keys are refused. -/
namespace LiveMarkup.Settings

/-- What a setting can be read from: a text, a count, or what may be taken for either. -/
structure Scalar where
  text? : Option String
  count? : Option Nat

/-- The names of the settings in the order of their declaration. -/
def keys : List String :=
  ["repeat-tag", "conditional-tag", "recursive-tag", "default-binding", "generated-attribute",
    "hidden-attribute", "max-recursion-depth"]

/-- Changes one setting by its name. -/
def set? (s : Settings) (key : String) (value : Scalar) : Option Settings :=
  match key with
  | "repeat-tag" => value.text?.map fun t => { s with repeatTag := t }
  | "conditional-tag" => value.text?.map fun t => { s with conditionalTag := t }
  | "recursive-tag" => value.text?.map fun t => { s with recursiveTag := t }
  | "default-binding" => value.text?.map fun t => { s with defaultBinding := t }
  | "generated-attribute" => value.text?.map fun t => { s with generatedAttribute := t }
  | "hidden-attribute" => value.text?.map fun t => { s with hiddenAttribute := t }
  | "max-recursion-depth" => value.count?.map fun n => { s with maxDepth := n }
  | _ => none

/-- The defaults with some settings changed. -/
def ofPairs? (pairs : List (String × Scalar)) : Option Settings :=
  if (pairs.map Prod.fst).Nodup then
    pairs.foldlM (fun s (key, value) => s.set? key value) default
  else none

/-- The first settings in the order of their declaration; the others have their defaults. -/
def ofItems? (items : List Scalar) : Option Settings :=
  if items.length ≤ keys.length then ofPairs? (keys.zip items) else none

def scalarOfJson (j : Json) : Scalar := ⟨j.string?, j.count?⟩

/-- An object gives settings by name, an array in the order of declaration. -/
def ofJson? : Json → Option Settings
  | .object members => ofPairs? (members.map fun (key, j) => (key, scalarOfJson j))
  | .array items => ofItems? (items.map scalarOfJson)
  | _ => none

/-- A count in a file: decimal without leading zeros, or after a mark hexadecimal, octal or
binary; a plus sign may stand in front. It fits 64 bits. -/
def count? (s : List Char) : Option Nat :=
  let digits? (base : Nat) (ds : List Char) : Option Nat :=
    if ds.isEmpty then none else Text.readDigits? base ds
  let unsigned := match s with
    | '+' :: rest => rest
    | s => s
  let n? := match unsigned with
    | '0' :: 'x' :: ds => digits? 16 ds
    | '0' :: 'o' :: ds => digits? 8 ds
    | '0' :: 'b' :: ds => digits? 2 ds
    | ['0'] => some 0
    | '0' :: _ => none
    | ds => digits? 10 ds
  n?.filter (· < 0x10000000000000000)

def scalarOfYaml (s : Yaml.Scalar) : Scalar :=
  ⟨some s.text, if s.numeric then count? s.text.toList else none⟩

/-- The settings of a file, by name. A file with nothing but blanks has the defaults. -/
def ofFile? (text : String) : Option Settings :=
  if Text.trim text = "" then some default
  else
    (Yaml.Document.read? text).bind fun entries =>
      ofPairs? (entries.map fun (key, value) => (key.text, scalarOfYaml value))

end LiveMarkup.Settings
