import LiveMarkup.Number.Basic

/-! JSON documents as they are written: members in their order, repeated keys kept, and numbers
with the note of whether they were written as whole ones. -/
namespace LiveMarkup

/-- A number of a JSON document. `whole?` is its absolute value when it has neither fraction nor
exponent. -/
structure Json.Numeral where
  negative : Bool
  magnitude : Magnitude
  whole? : Option Nat

inductive Json where
  | null
  | bool (value : Bool)
  | number (numeral : Json.Numeral)
  | string (text : String)
  | array (items : List Json)
  | object (members : List (String × Json))
  deriving Inhabited

namespace Json

/-- A count is a whole number without a sign that fits 64 bits. -/
def Numeral.count? (n : Numeral) : Option Nat :=
  if n.negative then none else n.whole?.filter (· < 0x10000000000000000)

def string? : Json → Option String
  | string s => some s
  | _ => none

def count? : Json → Option Nat
  | number n => n.count?
  | _ => none

/-- The first value of a member, for documents whose keys are distinct. -/
def member? (key : String) : Json → Option Json
  | object members => (members.find? (·.1 == key)).map Prod.snd
  | _ => none

end Json

end LiveMarkup
