import LiveMarkup.Entries
import LiveMarkup.Text.Digits
import LiveMarkup.Yaml.Glyph

/-! Scalars in quotes. They may span lines; blanks around a break are folded with it. -/
namespace LiveMarkup.Yaml

/-- Text in single quotes, from behind the first one; a doubled quote stands for one. `run` holds
the blanks and breaks that have been passed. -/
def readSingleQuoted (run : List Char) : List Glyph → Option (List Char × List Glyph)
  | [] => none
  | g :: rest =>
    if startsAnyMark (g :: rest) then none
    else if isGap g.char then readSingleQuoted (run ++ [g.char]) rest
    else if g.char ≠ '\x27' then
      (readSingleQuoted [] rest).map fun (cs, t) => (folded run ++ g.char :: cs, t)
    else match rest with
      | [] => some (folded run, [])
      | h :: rest =>
        if h.char ≠ '\x27' then some (folded run, h :: rest)
        else (readSingleQuoted [] rest).map fun (cs, t) => (folded run ++ '\x27' :: cs, t)

/-- The character for a letter behind a backslash. -/
def escaped? (c : Char) : Option Char :=
  Entries.get? c [('0', '\x00'), ('a', '\x07'), ('b', '\x08'), ('t', '\t'), ('\t', '\t'),
    ('n', '\n'), ('v', '\x0b'), ('f', '\x0c'), ('r', '\r'), ('e', '\x1b'), (' ', ' '), ('"', '"'),
    ('/', '/'), ('\\', '\\'), ('N', '\u0085'), ('_', '\u00a0'), ('L', '\u2028'), ('P', '\u2029')]

/-- The number of hexadecimal digits behind a letter that announces a code point. -/
def codeWidth? (c : Char) : Option Nat := Entries.get? c [('x', 2), ('u', 4), ('U', 8)]

/-- The character of a code point in hexadecimal digits. -/
def codePoint? (ds : List Char) : Option Char := do
  let n ← Text.readDigits? 16 ds
  if Nat.isValidChar n then some (Char.ofNat n) else none

/-- The character of an escape, from behind the backslash. -/
def escape? : List Glyph → Option (Char × List Glyph)
  | [] => none
  | g :: rest =>
    match codeWidth? g.char with
    | none => (escaped? g.char).map fun c => (c, rest)
    | some n =>
      let ds := (rest.take n).map Glyph.char
      if ds.length = n then (codePoint? ds).map fun c => (c, rest.drop n) else none

/-- Text in double quotes, from behind the first one. A break behind a backslash is dropped with
the blanks that follow it; `joined` tells that this has just happened. Every round takes a
character, which bounds the fuel. -/
def readDoubleQuoted (joined : Bool) (run : List Char) :
    (fuel : Nat) → List Glyph → Option (List Char × List Glyph)
  | 0, _ => none
  | _ + 1, [] => none
  | fuel + 1, g :: rest =>
    if startsAnyMark (g :: rest) then none
    else if isGap g.char then readDoubleQuoted joined (run ++ [g.char]) fuel rest
    else
      let gap := if joined then run.filter isBreak else folded run
      if g.char == '"' then some (gap, rest)
      else if g.char ≠ '\\' then
        (readDoubleQuoted false [] fuel rest).map fun (cs, t) => (gap ++ g.char :: cs, t)
      else if rest.head?.any (isBreak ·.char) then
        (readDoubleQuoted true [] fuel (rest.drop 1)).map fun (cs, t) => (gap ++ cs, t)
      else do
        let (c, rest) ← escape? rest
        let (cs, t) ← readDoubleQuoted false [] fuel rest
        pure (gap ++ c :: cs, t)

end LiveMarkup.Yaml
