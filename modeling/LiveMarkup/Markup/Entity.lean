import LiveMarkup.Entries
import LiveMarkup.Text.Digits

/-! Character and entity references, and the escapes that the writer uses. Reading an escaped
text gives the text back. Offsets count the bytes of UTF-8. -/
namespace LiveMarkup.Markup

/-- The number of bytes of a text in UTF-8. -/
def utf8Length : List Char → Nat
  | [] => 0
  | c :: rest => c.utf8Size + utf8Length rest

/-- The writer escapes three characters everywhere and the quote in attribute values. -/
def escapeChar (inAttribute : Bool) (c : Char) : List Char :=
  if c = '&' then ['&', 'a', 'm', 'p', ';']
  else if c = '<' then ['&', 'l', 't', ';']
  else if c = '>' then ['&', 'g', 't', ';']
  else if c = '"' ∧ inAttribute then ['&', 'q', 'u', 'o', 't', ';']
  else [c]

def escape (inAttribute : Bool) (s : List Char) : List Char := s.flatMap (escapeChar inAttribute)

/-- What is wrong with a character reference. -/
inductive ReferenceError where
  | signed
  | empty
  | invalidDigit
  | tooLarge
  | zero
  | notACharacter (code : Nat)
  deriving DecidableEq

def ReferenceError.message : ReferenceError → String
  | signed => "unexpected number sign"
  | empty => "cannot parse integer from empty string"
  | invalidDigit => "invalid digit found in string"
  | tooLarge => "number too large to fit in target type"
  | zero => "0x0 character is not permitted in XML"
  | notACharacter code => "`" ++ Text.decimalString code ++ "` is not a valid codepoint"

inductive EntityError where
  | unterminated (start length : Nat)
  | unrecognized (start stop : Nat) (name : String)
  | reference (cause : ReferenceError)
  deriving DecidableEq

/-- A range of byte offsets, the end excluded. -/
def rangeText (start stop : Nat) : String :=
  Text.decimalString start ++ ".." ++ Text.decimalString stop

def EntityError.message : EntityError → String
  | unterminated start length =>
    "Error while escaping character at range " ++ rangeText start length ++
      ": Cannot find ';' after '&'"
  | unrecognized start stop name =>
    "at " ++ rangeText start stop ++ ": unrecognized entity `" ++ name ++ "`"
  | reference cause => "invalid character reference: " ++ cause.message

/-- Reads digits from the left, each one checked before the bound of 32 bits. -/
def codeFrom (base : Nat) : List Char → Nat → Except ReferenceError Nat
  | [], n => .ok n
  | c :: rest, n =>
    match Text.digitIn? base c with
    | none => .error .invalidDigit
    | some d =>
      if base * n + d < 0x100000000 then codeFrom base rest (base * n + d) else .error .tooLarge

def code (base : Nat) (ds : List Char) : Except ReferenceError Nat :=
  match ds with
  | [] => .error .empty
  | c :: _ => if c = '+' ∨ c = '-' then .error .signed else codeFrom base ds 0

/-- The character of a reference, after its number sign: hexadecimal after an `x`, else decimal. -/
def referred (reference : List Char) : Except ReferenceError Char := do
  let n ← match reference with
    | 'x' :: ds => code 16 ds
    | ds => code 10 ds
  if n = 0 then throw .zero
  else if h : n.isValidChar then pure (Char.ofNatAux n h)
  else throw (.notACharacter n)

/-- The five named entities. -/
def namedEntity? (name : String) : Option Char :=
  Entries.get? name [("lt", '<'), ("gt", '>'), ("amp", '&'), ("apos", '\x27'), ("quot", '"')]

/-- The character for what stands between `&` and `;`, which begins at an offset. -/
def entity (start : Nat) (name : List Char) : Except EntityError Char :=
  match name with
  | '#' :: reference =>
    match referred reference with
    | .ok c => .ok c
    | .error cause => .error (.reference cause)
  | _ =>
    match namedEntity? (String.ofList name) with
    | some c => .ok c
    | none =>
      .error (.unrecognized start (start + utf8Length name) (String.ofList name))

/-- Neither the beginning nor the end of a reference. -/
def isNameChar (c : Char) : Bool := c != '&' && c != ';'

/-- Replaces the references of a text of a given length from an offset on. -/
def unescapeFrom (length offset : Nat) (s : List Char) : Except EntityError (List Char) :=
  match s with
  | [] => .ok []
  | c :: rest =>
    if c = '&' then
      match h : rest.dropWhile isNameChar with
      | ';' :: tail =>
        have : tail.length < rest.length := by
          have := (List.dropWhile_sublist (l := rest) isNameChar).length_le
          rw [h, List.length_cons] at this
          exact this
        let name := rest.takeWhile isNameChar
        match entity (offset + 1) name with
        | .error e => .error e
        | .ok d => (d :: ·) <$> unescapeFrom length (offset + utf8Length name + 2) tail
      | _ => .error (.unterminated offset length)
    else (c :: ·) <$> unescapeFrom length (offset + c.utf8Size) rest
termination_by s.length
decreasing_by all_goals (simp only [List.length_cons]; omega)

def unescape (s : List Char) : Except EntityError (List Char) := unescapeFrom (utf8Length s) 0 s

end LiveMarkup.Markup
