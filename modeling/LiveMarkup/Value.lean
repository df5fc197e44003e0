import LiveMarkup.Entries
import LiveMarkup.Json.Basic
import LiveMarkup.Json.Quote
import LiveMarkup.Number.Layout
import LiveMarkup.Text.Index

/-! Model values: scalars, sequences and mappings whose keys keep the order in which they were
put. Every value has two written forms, one for data and one for display. -/
namespace LiveMarkup

inductive Value where
  | null
  | bool (b : Bool)
  | number (n : Number)
  | string (s : String)
  | list (items : List Value)
  | map (entries : List (String × Value))
  deriving Inhabited

namespace Value

def empty : Value := map []

/-- What a condition takes for true. Containers are true even when they are empty. -/
def isTruthy : Value → Bool
  | null => false
  | bool b => b
  | number n => n.isTruthy
  | string s => s ≠ ""
  | list _ => true
  | map _ => true

def isContainer : Value → Bool
  | list _ => true
  | map _ => true
  | _ => false

def kind : Value → String
  | null => "null"
  | bool _ => "boolean"
  | number _ => "number"
  | string _ => "string"
  | list _ => "sequence"
  | map _ => "mapping"

/-- Number of entries of a container. -/
def size : Value → Nat
  | list items => items.length
  | map entries => entries.length
  | _ => 0

/-- One step into a value: a key of a mapping, an index of a sequence. -/
def child? (key : String) : Value → Option Value
  | map entries => Entries.get? key entries
  | list items => (Text.index? key).bind fun i => items[i]?
  | _ => none

theorem child?_eq_none_of_not_isContainer {v : Value} (h : v.isContainer = false)
    (key : String) : v.child? key = none := by
  cases v <;> simp_all [isContainer, child?]

/-- Numbers in data: whole ones are written as such below 2^53, and exponents appear from 16 on
and below -5. -/
def dataLayout : Layout := ⟨0x20000000000000, .even, some (-5, 16), true⟩

/-- Undefined and infinite numbers have no data form but `null`. -/
def numberData : Number → List Char
  | .finite negative x => dataLayout.finite negative x
  | _ => ['n', 'u', 'l', 'l']

mutual

/-- The compact JSON form, without spaces. -/
def data : Value → List Char
  | null => ['n', 'u', 'l', 'l']
  | bool true => ['t', 'r', 'u', 'e']
  | bool false => ['f', 'a', 'l', 's', 'e']
  | number n => numberData n
  | string s => Json.quote s
  | list items => '[' :: itemsData items ++ [']']
  | map entries => '\x7b' :: entriesData entries ++ ['\x7d']

/-- Items with commas between them. -/
def itemsData : List Value → List Char
  | [] => []
  | item :: rest =>
    item.data ++ (match rest with
      | [] => []
      | _ :: _ => ',' :: itemsData rest)

/-- Keys and values with commas between the pairs. -/
def entriesData : List (String × Value) → List Char
  | [] => []
  | (key, value) :: rest =>
    Json.quote key ++ ':' :: value.data ++ (match rest with
      | [] => []
      | _ :: _ => ',' :: entriesData rest)

end

def json (v : Value) : String := String.ofList v.data

/-- Numbers on display: whole ones are written as such below 10^21, and no exponent is ever
written. -/
def displayLayout : Layout := ⟨1000000000000000000000, .up, none, false⟩

def numberDisplay : Number → List Char
  | .nan => "NaN".toList
  | .infinite false => "Infinity".toList
  | .infinite true => "-Infinity".toList
  | .finite negative x => displayLayout.finite negative x

mutual

/-- What a placeholder shows: text as it is, nothing for null, items with commas between them,
mappings in their data form. -/
def displayChars : Value → List Char
  | null => []
  | bool true => ['t', 'r', 'u', 'e']
  | bool false => ['f', 'a', 'l', 's', 'e']
  | number n => numberDisplay n
  | string s => s.toList
  | list items => itemsDisplay items
  | map entries => data (map entries)

def itemsDisplay : List Value → List Char
  | [] => []
  | item :: rest =>
    item.displayChars ++ (match rest with
      | [] => []
      | _ :: _ => ',' :: itemsDisplay rest)

end

def display (v : Value) : String := String.ofList v.displayChars

mutual

/-- The value of a JSON document. A repeated key keeps its first place and its last value. -/
def ofJson : Json → Value
  | .null => null
  | .bool b => bool b
  | .number n => number (.finite n.negative n.magnitude)
  | .string s => string s
  | .array items => list (ofItems items)
  | .object members => map (Entries.ofList (ofMembers members))

def ofItems : List Json → List Value
  | [] => []
  | item :: rest => ofJson item :: ofItems rest

def ofMembers : List (String × Json) → List (String × Value)
  | [] => []
  | (key, value) :: rest => (key, ofJson value) :: ofMembers rest

end

end Value

end LiveMarkup
