import LiveMarkup.Yaml.Glyph

/-! Scalars without quotes. They end before a comment, before a colon with a gap behind it, before
a line that is not indented enough, and within brackets before an indicator of these. -/
namespace LiveMarkup.Yaml

/-- Characters that a plain scalar cannot begin with. -/
def indicators : List Char :=
  [',', '[', ']', '\x7b', '\x7d', '#', '&', '*', '!', '|', '>', '\x27', '"', '%', '@', '\x60']

/-- Characters that separate items within brackets. -/
def flowMarks : List Char := [',', '[', ']', '\x7b', '\x7d']

/-- Whether a plain scalar begins here. Marks of entries, keys and values may begin one if no gap
follows; within brackets only the first of them. -/
def startsPlain (flow : Bool) (s : List Glyph) : Bool :=
  match s with
  | [] => false
  | g :: rest =>
    if startsAnyMark s || isGap g.char then false
    else if g.char == '-' then !startsGap rest
    else if g.char == '?' || g.char == ':' then !flow && !startsGap rest
    else !indicators.contains g.char

/-- The characters of a plain scalar up to a gap or to what ends it. Within brackets a colon cannot
touch an indicator. -/
def readWord (flow : Bool) : List Glyph → Option (List Char × List Glyph)
  | [] => some ([], [])
  | g :: rest =>
    if isGap g.char || (g.char == ':' && startsGap rest) then some ([], g :: rest)
    else if flow && g.char == ':' && rest.head?.any fun h => ('?' :: flowMarks).contains h.char
    then none
    else if flow && flowMarks.contains g.char then some ([], g :: rest)
    else (readWord flow rest).map fun (cs, t) => (g.char :: cs, t)

/-- Whether a tab stands in the indentation of a line behind the first one. -/
def tabIndented (indent : Nat) (run : List Glyph) : Bool :=
  (run.dropWhile fun g => !isBreak g.char).any fun g => g.char == '\t' && g.column < indent

/-- Reads on behind a run of blanks and breaks, which belongs to the text if another word follows.
Every round takes a character, which bounds the fuel. -/
def readPlainFrom (flow : Bool) (indent : Nat) :
    (fuel : Nat) → (run : List Char) → List Glyph → Option (List Char × Point)
  | 0, _, _ => none
  | fuel + 1, run, s =>
    let fresh := run.any isBreak
    if startsAnyMark s || s.head?.any (·.char == '#') then some ([], ⟨s, fresh⟩)
    else do
      let (cs, rest) ← readWord flow s
      if cs.isEmpty then some ([], ⟨rest, fresh⟩)
      else
        let gap := rest.takeWhile fun g => isGap g.char
        let next := rest.dropWhile fun g => isGap g.char
        let text := folded run ++ cs
        let run := gap.map Glyph.char
        if gap.isEmpty then some (text, ⟨next, false⟩)
        else if tabIndented indent gap then none
        else if !flow && next.head?.any (·.column < indent) then
          some (text, ⟨next, run.any isBreak⟩)
        else
          (readPlainFrom flow indent fuel run next).map fun (more, p) => (text ++ more, p)

/-- A plain scalar whose further lines are indented. -/
def readPlain (flow : Bool) (indent : Nat) (s : List Glyph) : Option (List Char × Point) :=
  readPlainFrom flow indent (s.length + 1) [] s

end LiveMarkup.Yaml
