import LiveMarkup.Entries
import LiveMarkup.Text.Digits
import LiveMarkup.Yaml.Glyph

/-! Tags in front of scalars. A tag is written in full within angle brackets, or as a handle and
what follows it; a handle stands for the beginning of a tag. -/
namespace LiveMarkup.Yaml

/-- Characters of the names of anchors, handles and directives. -/
def isNameChar (c : Char) : Bool :=
  ('0' ≤ c && c ≤ '9') || ('A' ≤ c && c ≤ 'Z') || ('a' ≤ c && c ≤ 'z') || c == '_' || c == '-'

/-- Characters of tags, those of names apart. -/
def tagMarks : List Char :=
  [';', '/', '?', ':', '@', '&', '=', '+', '$', '.', '!', '~', '*', '\x27', '(', ')']

def isTagChar (bracketed : Bool) (c : Char) : Bool :=
  isNameChar c || tagMarks.contains c || (bracketed && [',', '[', ']'].contains c)

/-- How many octets have to follow the first octet of a character. -/
def octetsBehind? (octet : Nat) : Option Nat :=
  if octet < 0x80 then some 0
  else if octet / 0x20 == 0x06 then some 1
  else if octet / 0x10 == 0x0e then some 2
  else if octet / 0x08 == 0x1e then some 3
  else none

/-- How many octets are due behind an octet, if it may stand where `due` are. -/
def dueBehind? (due octet : Nat) : Option Nat :=
  match due with
  | 0 => octetsBehind? octet
  | due + 1 => if octet / 0x40 == 0x02 then some due else none

/-- The characters of a tag as far as they go. A percent sign and two hexadecimal digits stand for
an octet; `due` more octets have to follow to complete a character. -/
def readUri (bracketed : Bool) (due : Nat) : List Glyph → Option (List Char × List Glyph)
  | [] => if due = 0 then some ([], []) else none
  | g :: rest =>
    if g.char == '%' then
      match rest with
      | h :: l :: rest => do
        let octet ← Text.readDigits? 16 [h.char, l.char]
        let due ← dueBehind? due octet
        let (cs, t) ← readUri bracketed due rest
        pure (Char.ofNat octet :: cs, t)
      | _ => none
    else if due ≠ 0 then none
    else if isTagChar bracketed g.char then
      (readUri bracketed 0 rest).map fun (cs, t) => (g.char :: cs, t)
    else some ([], g :: rest)

/-- The text of a tag ends before a zero octet. -/
def tagText (cs : List Char) : String := String.ofList (cs.takeWhile (· ≠ '\x00'))

/-- What the handles of tags stand for. -/
abbrev Handles := List (String × String)

/-- What handles stand for if a document does not tell. -/
def standardHandles : Handles := [("!", "!"), ("!!", "tag:yaml.org,2002:")]

/-- The tag of integers. -/
def integerTag : String := "tag:yaml.org,2002:int"

/-- A handle of two exclamation marks with a name between them, from behind the first one. -/
def readHandle (s : List Glyph) : Option (String × List Glyph) :=
  let name := (s.takeWhile fun g => isNameChar g.char).map Glyph.char
  (after? '!' (s.dropWhile fun g => isNameChar g.char)).map fun rest =>
    (String.ofList ('!' :: name ++ ['!']), rest)

/-- The tag behind an exclamation mark. Alone the mark is a tag of its own. -/
def readTagText (handles : Handles) (s : List Glyph) : Option (String × List Glyph) :=
  match after? '<' s, readHandle s with
  | some inner, _ => do
    let (uri, rest) ← readUri true 0 inner
    let rest ← after? '>' rest
    if uri.isEmpty then none else pure (tagText uri, rest)
  | none, some (handle, rest) => do
    let (uri, rest) ← readUri false 0 rest
    let start ← Entries.get? handle handles
    if uri.isEmpty then none else pure (start ++ tagText uri, rest)
  | none, none => do
    let (uri, rest) ← readUri false 0 s
    let start ← Entries.get? "!" handles
    pure (if tagText uri = "" then "!" else start ++ tagText uri, rest)

/-- A tag, from behind its exclamation mark. A gap follows it, or within brackets a comma. -/
def readTag (handles : Handles) (flow : Bool) (s : List Glyph) :
    Option (String × List Glyph) := do
  let (tag, rest) ← readTagText handles s
  if startsGap rest || (flow && (after? ',' rest).isSome) then some (tag, rest) else none

end LiveMarkup.Yaml
