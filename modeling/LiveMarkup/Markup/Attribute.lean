import LiveMarkup.Entries
import LiveMarkup.Markup.Entity
import LiveMarkup.Text.Character

/-! Names of elements and attributes, and the attributes of a tag as they are written. A tag's
content is read from the end of the element name on; offsets are byte offsets in the content. -/
namespace LiveMarkup.Markup

def isAsciiLetter (c : Char) : Bool :=
  (97 ≤ c.toNat && c.toNat ≤ 122) || (65 ≤ c.toNat && c.toNat ≤ 90)

/-- Letters and digits of ASCII and four marks. -/
def isTagChar (c : Char) : Bool :=
  isAsciiLetter c || (48 ≤ c.toNat && c.toNat ≤ 57) || c == '-' || c == '_' || c == '.' || c == ':'

/-- A tag begins with an ASCII letter and goes on with tag characters. -/
def isTagName (name : String) : Bool :=
  match name.toList with
  | [] => false
  | first :: rest => isAsciiLetter first && rest.all isTagChar

/-- Neither blank nor control, and none of the marks that end a name or begin a value. -/
def isAttributeChar (c : Char) : Bool :=
  !(Text.isBlank c || Text.isControl c || c == '"' || c == '\x27' || c == '<' || c == '>' ||
    c == '/' || c == '=')

/-- An attribute name is a row of attribute characters, at least one. -/
def isAttributeName (name : String) : Bool :=
  !name.toList.isEmpty && name.toList.all isAttributeChar

/-- The blanks of markup: space, tab, carriage return and line feed. -/
def isSpace (c : Char) : Bool := c == ' ' || c == '\t' || c == '\r' || c == '\n'

inductive AttributeFault where
  | missingEquals
  | duplicate (earlier : Nat)
  | missingValue
  | unquoted
  | unclosedQuote (quote : Char)
  deriving DecidableEq

/-- A fault and where it is found. -/
structure AttributeError where
  position : Nat
  fault : AttributeFault
  deriving DecidableEq

def AttributeFault.message : AttributeFault → String
  | missingEquals => "attribute key must be directly followed by `=` or space"
  | duplicate earlier =>
    "duplicated attribute, previous declaration at position " ++ Text.decimalString earlier
  | missingValue => "`=` must be followed by an attribute value"
  | unquoted => "attribute value must be enclosed in `\"` or `'`"
  | unclosedQuote quote => "missing closing quote `" ++ quote.toString ++ "` in attribute value"

def AttributeError.message (e : AttributeError) : String :=
  "position " ++ Text.decimalString e.position ++ ": " ++ e.fault.message

/-- A written attribute: the value has its references still in it. -/
structure RawAttribute where
  name : String
  value : List Char
  deriving DecidableEq

/-- Part of a tag's content, with the offset at which it begins. -/
structure Rest where
  offset : Nat
  chars : List Char

namespace Rest

/-- Goes on after a row of characters. -/
def skipWhile (p : Char → Bool) (r : Rest) : Rest :=
  ⟨r.offset + utf8Length (r.chars.takeWhile p), r.chars.dropWhile p⟩

theorem length_skipWhile_le (p : Char → Bool) (r : Rest) :
    (r.skipWhile p).chars.length ≤ r.chars.length :=
  (List.dropWhile_sublist p).length_le

end Rest

/-- Characters of a key after its first one, which may be any. -/
def isKeyChar (c : Char) : Bool := !(c == '=' || isSpace c)

/-- Reads the value after an equals sign; the second component is what follows the value. -/
def readValue (r : Rest) : Except AttributeError (List Char × Rest) :=
  let r := r.skipWhile isSpace
  match r.chars with
  | [] => .error ⟨r.offset, .missingValue⟩
  | quote :: rest =>
    if quote = '"' ∨ quote = '\x27' then
      let tail := (Rest.mk (r.offset + 1) rest).skipWhile (· != quote)
      match tail.chars with
      | [] => .error ⟨tail.offset, .unclosedQuote quote⟩
      | _ :: rest' => .ok (rest.takeWhile (· != quote), ⟨tail.offset + 1, rest'⟩)
    else .error ⟨r.offset, .unquoted⟩

/-- Reads one attribute from the first character of its key on. The keys seen so far come with
their offsets; the last component is what follows the attribute. -/
def readAttribute (seen : List (List Char × Nat)) (start : Nat) (first : Char) (rest : List Char) :
    Except AttributeError (List Char × List Char × Rest) :=
  let key := first :: rest.takeWhile isKeyChar
  let afterKey : Rest := ⟨start + utf8Length key, rest.dropWhile isKeyChar⟩
  let r := afterKey.skipWhile isSpace
  match r.chars with
  | [] => .error ⟨r.offset, .missingEquals⟩
  | c :: tail =>
    if c ≠ '=' then .error ⟨r.offset, .missingEquals⟩
    else match Entries.get? key seen with
      | some earlier => .error ⟨start, .duplicate earlier⟩
      | none => (readValue ⟨r.offset + 1, tail⟩).map fun (value, r) => (key, value, r)

theorem readValue_length {r r' : Rest} {value : List Char} (h : readValue r = .ok (value, r')) :
    r'.chars.length ≤ r.chars.length := by
  have hle := Rest.length_skipWhile_le isSpace r
  simp only [readValue] at h
  split at h
  · cases h
  · next quote rest hchars =>
    rw [hchars, List.length_cons] at hle
    split at h
    · split at h
      · cases h
      · next q rest' hrest =>
        cases h
        have hr := Rest.length_skipWhile_le (· != quote)
          ⟨(r.skipWhile isSpace).offset + 1, rest⟩
        rw [hrest, List.length_cons] at hr
        simp only at hr ⊢
        omega
    · cases h

theorem readAttribute_length {seen : List (List Char × Nat)} {start : Nat} {first : Char}
    {rest key value : List Char} {r : Rest}
    (h : readAttribute seen start first rest = .ok (key, value, r)) :
    r.chars.length ≤ rest.length := by
  have hle := Rest.length_skipWhile_le isSpace
    ⟨start + utf8Length (first :: rest.takeWhile isKeyChar), rest.dropWhile isKeyChar⟩
  have hkey := (List.dropWhile_sublist (l := rest) isKeyChar).length_le
  simp only [readAttribute] at h
  split at h
  · cases h
  · next c tail hchars =>
    rw [hchars, List.length_cons] at hle
    split at h
    · cases h
    · split at h
      · cases h
      · generalize hv : readValue _ = x at h
        cases x with
        | error e => cases h
        | ok x =>
          cases h
          have := readValue_length hv
          simp only at this hle ⊢
          omega

/-- All attributes in their order, up to the first fault. -/
def readAttributes (seen : List (List Char × Nat)) (r : Rest) :
    List RawAttribute × Option AttributeError :=
  match h : (r.skipWhile isSpace).chars with
  | [] => ([], none)
  | first :: rest =>
    let start := (r.skipWhile isSpace).offset
    match h' : readAttribute seen start first rest with
    | .error e => ([], some e)
    | .ok (key, value, r') =>
      have : r'.chars.length < r.chars.length := by
        have h1 := readAttribute_length h'
        have h2 := Rest.length_skipWhile_le isSpace r
        rw [h, List.length_cons] at h2
        omega
      let (others, e) := readAttributes ((key, start) :: seen) r'
      (⟨String.ofList key, value⟩ :: others, e)
termination_by r.chars.length

/-- The name that a tag's content begins with, and the attributes behind it. -/
def tagName (content : List Char) : List Char := content.takeWhile fun c => !isSpace c

def tagAttributes (content : List Char) : List RawAttribute × Option AttributeError :=
  readAttributes [] ⟨utf8Length (tagName content), content.dropWhile fun c => !isSpace c⟩

end LiveMarkup.Markup
