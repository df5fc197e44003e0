import LiveMarkup.Json.Basic
import LiveMarkup.Json.Quote
import LiveMarkup.Number.Literal

/-! A strict reader of JSON: one document, no trailing text, containers nested no deeper than a
bound, no number beyond the range of double precision. -/
namespace LiveMarkup.Json

/-- The four characters that may stand between tokens. -/
def isSpace (c : Char) : Bool := c == ' ' || c == '\t' || c == '\n' || c == '\r'

def skipSpace (s : List Char) : List Char := s.dropWhile isSpace

/-- An optional fraction: a point and at least one digit. -/
def readFraction : List Char → Option (List Char × List Char)
  | '.' :: rest =>
    let ds := rest.takeWhile Text.isDigit
    if ds.isEmpty then none else some (ds, rest.dropWhile Text.isDigit)
  | s => some ([], s)

/-- The digits of an exponent after its sign, at least one. -/
def readExponentDigits (negative : Bool) (s : List Char) : Option (Int × List Char) :=
  let ds := s.takeWhile Text.isDigit
  if ds.isEmpty then none
  else
    let n : Int := Text.readDecimal ds
    some (if negative then -n else n, s.dropWhile Text.isDigit)

/-- An optional exponent; without one the second component is `none`. -/
def readExponent : List Char → Option (Option Int × List Char)
  | c :: rest =>
    if c = 'e' ∨ c = 'E' then
      let read := match rest with
        | '+' :: rest => readExponentDigits false rest
        | '-' :: rest => readExponentDigits true rest
        | rest => readExponentDigits false rest
      read.map fun (e, rest) => (some e, rest)
    else some (none, c :: rest)
  | [] => some (none, [])

/-- A number without its sign. The whole part has no leading zeros. -/
def readNumeral (negative : Bool) (s : List Char) : Option (Numeral × List Char) := do
  let whole := s.takeWhile Text.isDigit
  if whole.isEmpty || (whole.head? == some '0' && whole.length != 1) then none
  let (fraction, rest) ← readFraction (s.dropWhile Text.isDigit)
  let (exponent, rest) ← readExponent rest
  let magnitude ← Magnitude.ofDecimal? (.ofLiteral whole fraction (exponent.getD 0))
  let whole? := if fraction.isEmpty && exponent.isNone then some (Text.readDecimal whole) else none
  pure (⟨negative, magnitude, whole?⟩, rest)

/-- The text after an expected beginning. -/
def expect? (word : List Char) (s : List Char) : Option (List Char) :=
  if word.isPrefixOf s then some (s.drop word.length) else none

mutual

/-- Reads one value at the beginning of a text. `room` more containers may be entered. -/
def readValue (fuel room : Nat) (s : List Char) : Option (Json × List Char) :=
  match fuel with
  | 0 => none
  | fuel + 1 =>
    match skipSpace s with
    | [] => none
    | '"' :: rest => (readString rest).map fun (cs, t) => (string (String.ofList cs), t)
    | '-' :: rest => (readNumeral true rest).map fun (n, t) => (number n, t)
    | '[' :: rest =>
      if room = 0 then none
      else match skipSpace rest with
        | ']' :: rest => some (array [], rest)
        | rest => (readItems fuel (room - 1) rest).map fun (items, t) => (array items, t)
    | '\x7b' :: rest =>
      if room = 0 then none
      else match skipSpace rest with
        | '\x7d' :: rest => some (object [], rest)
        | rest => (readMembers fuel (room - 1) rest).map fun (ms, t) => (object ms, t)
    | 'n' :: rest => (expect? ['u', 'l', 'l'] rest).map fun t => (null, t)
    | 't' :: rest => (expect? ['r', 'u', 'e'] rest).map fun t => (bool true, t)
    | 'f' :: rest => (expect? ['a', 'l', 's', 'e'] rest).map fun t => (bool false, t)
    | s => (readNumeral false s).map fun (n, t) => (number n, t)

/-- Items with commas between them, up to the closing bracket. -/
def readItems (fuel room : Nat) (s : List Char) : Option (List Json × List Char) :=
  match fuel with
  | 0 => none
  | fuel + 1 => do
    let (item, rest) ← readValue fuel room s
    match skipSpace rest with
    | ']' :: rest => pure ([item], rest)
    | ',' :: rest => (readItems fuel room rest).map fun (items, t) => (item :: items, t)
    | _ => none

/-- Members with commas between them, up to the closing brace. -/
def readMembers (fuel room : Nat) (s : List Char) : Option (List (String × Json) × List Char) :=
  match fuel with
  | 0 => none
  | fuel + 1 =>
    match skipSpace s with
    | '"' :: rest => do
      let (key, rest) ← readString rest
      match skipSpace rest with
      | ':' :: rest => do
        let (value, rest) ← readValue fuel room rest
        let member := (String.ofList key, value)
        match skipSpace rest with
        | '\x7d' :: rest => pure ([member], rest)
        | ',' :: rest => (readMembers fuel room rest).map fun (ms, t) => (member :: ms, t)
        | _ => none
      | _ => none
    | _ => none

end

/-- Containers may be nested this deep in the files that are read. -/
def nestingLimit : Nat := 127

/-- Reads a whole document. Every call consumes a character or enters a list, so twice the length
bounds the depth of calls. -/
def read? (room : Nat) (text : String) : Option Json := do
  let s := text.toList
  let (value, rest) ← readValue (2 * s.length + 2) room s
  if (skipSpace rest).isEmpty then some value else none

end LiveMarkup.Json
