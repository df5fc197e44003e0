import LiveMarkup.Text.Digits
import LiveMarkup.Yaml.Glyph

/-! Scalars of whole lines, below an indicator: literal ones keep their breaks, folded ones join
lines that begin with no blank. -/
namespace LiveMarkup.Yaml

/-- What becomes of the breaks at the end: all are dropped, one is kept, or all are. -/
inductive Chomping where
  | strip
  | clip
  | keep
  deriving DecidableEq

/-- What may be said behind the indicator. `indent?` is counted from the indentation outside. -/
structure BlockHeader where
  chomping : Chomping
  indent? : Option Nat

def chomping? (c : Char) : Option Chomping :=
  if c == '+' then some .keep else if c == '-' then some .strip else none

/-- The marks behind the indicator, in either order. -/
def blockMarks (s : List Char) : BlockHeader × List Char :=
  let digit? (c : Char) : Option Nat := if Text.isDigit c then some (Text.digitValue c) else none
  match s with
  | [] => (⟨.clip, none⟩, [])
  | a :: rest =>
    match chomping? a, digit? a with
    | some k, _ =>
      match rest.head?.bind digit? with
      | some n => (⟨k, some n⟩, rest.drop 1)
      | none => (⟨k, none⟩, rest)
    | none, some n =>
      match rest.head?.bind chomping? with
      | some k => (⟨k, some n⟩, rest.drop 1)
      | none => (⟨.clip, some n⟩, rest)
    | none, none => (⟨.clip, none⟩, a :: rest)

/-- The rest of the line of the indicator: marks, and perhaps a comment. -/
def blockHeader? (line : List Char) : Option BlockHeader :=
  let (header, rest) := blockMarks line
  let rest := rest.dropWhile isBlank
  if header.indent? = some 0 || !rest.head?.all (· == '#') then none else some header

/-- Goes over breaks and indentation to the next line of text; without a given indentation over all
of it. A tab cannot indent. -/
def readBlockBreaks (indent? : Option Nat) : List Glyph → Option (List Char × List Glyph)
  | [] => some ([], [])
  | g :: rest =>
    let indents := indent?.all (g.column < ·)
    if indents && g.char == ' ' then readBlockBreaks indent? rest
    else if indents && g.char == '\t' then none
    else if isBreak g.char then
      (readBlockBreaks indent? rest).map fun (breaks, t) => (g.char :: breaks, t)
    else some ([], g :: rest)

/-- The indentation of the first line of text, or of a deeper empty line before it. -/
def deepestIndent : List Glyph → Nat
  | [] => 0
  | g :: rest =>
    if g.char == ' ' then deepestIndent rest
    else if isBreak g.char then max g.column (deepestIndent rest)
    else g.column

/-- The text of lines, and the breaks behind it: the one that ends the last line, and more. -/
structure BlockText where
  text : List Char
  last : List Char
  more : List Char

/-- Lines at an indentation. `last` and `more` are the breaks before them, and `blank` tells
whether the line before them begins with a blank. Every round takes a line, which bounds the
fuel. -/
def readBlockLines (literal : Bool) (indent : Nat) :
    (fuel : Nat) → (last more : List Char) → (blank : Bool) → List Glyph →
    Option (BlockText × List Glyph)
  | 0, last, more, _, s => some (⟨[], last, more⟩, s)
  | fuel + 1, last, more, blank, s =>
    if s.head?.any (·.column == indent) then do
      let nextBlank := s.head?.any (isBlank ·.char)
      let joined := !literal && last == ['\n'] && !blank && !nextBlank
      let gap := if !joined then last else if more.isEmpty then [' '] else []
      let line := s.takeWhile fun g => !isBreak g.char
      let rest := s.dropWhile fun g => !isBreak g.char
      let ending := (rest.take 1).map Glyph.char
      let (breaks, rest) ← readBlockBreaks (some indent) (rest.drop 1)
      let (t, rest) ← readBlockLines literal indent fuel ending breaks nextBlank rest
      pure ({ t with text := gap ++ more ++ line.map Glyph.char ++ t.text }, rest)
    else some (⟨[], last, more⟩, s)

/-- The text with the breaks at its end that are kept. -/
def BlockText.chomped (t : BlockText) : Chomping → List Char
  | .strip => t.text
  | .clip => t.text ++ t.last
  | .keep => t.text ++ t.last ++ t.more

/-- A scalar of lines, from behind its indicator. `indent` is the least indentation of the item. -/
def readBlock (literal : Bool) (indent : Nat) (s : List Glyph) : Option (List Char × Point) := do
  let header ← blockHeader? ((s.takeWhile fun g => !isBreak g.char).map Glyph.char)
  let below := (s.dropWhile fun g => !isBreak g.char).drop 1
  let given? := header.indent?.map (indent - 1 + ·)
  let (breaks, first) ← readBlockBreaks given? below
  let column := given?.getD (max (deepestIndent below) (max indent 1))
  let (t, rest) ← readBlockLines literal column (first.length + 1) [] breaks false first
  pure (t.chomped header.chomping, ⟨rest, true⟩)

end LiveMarkup.Yaml
