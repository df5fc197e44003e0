import LiveMarkup.Yaml.Directive
import LiveMarkup.Yaml.Node

/-! Files with one flat document: nothing, or a mapping from scalars to scalars, in lines or within
braces. Anything else is refused. -/
namespace LiveMarkup.Yaml

/-- The entries of a document in their order. A document of nothing has none. -/
abbrev Document := List (Scalar × Scalar)

/-- Entries whose aliases are not followed yet. -/
abbrev NodeEntries := List (Node × Node)

/-- A key without a mark of its own stands on one line with its colon, not too far from it. -/
def onOneLine (start colon : Glyph) : Bool :=
  start.line == colon.line && colon.column ≤ start.column + 1024

/-- Whether an indicator with a gap behind it comes next. -/
def startsIndicator (c : Char) (s : List Glyph) : Bool :=
  s.head?.any (·.char == c) && startsGap (s.drop 1)

/-- What comes next in a mapping of lines. -/
inductive Upcoming where
  | done
  | entry (start : Glyph) (rest : List Glyph)
  | misplaced

/-- Entries begin at the column of the first one. What is further out ends the mapping, and so does
the mark of a document. -/
def upcoming (column : Nat) (s : List Glyph) : Upcoming :=
  match s with
  | [] => .done
  | g :: rest =>
    if g.column < column || startsAnyMark s then .done
    else if g.column = column then .entry g rest
    else .misplaced

/-- A key that begins here, and the point of its value. A key behind a question mark may be any
scalar; its value, if it has one, stands behind a colon at the same column. -/
def readBlockKey (column : Nat) (names : Names) (start : Glyph) (rest : List Glyph) (p : Point) :
    Option (Node × Names × Point × Bool) :=
  if startsIndicator '?' p.rest then do
    let (key, names, p) ← readItem (.block (column + 1)) names ⟨rest, true⟩
    match upcoming column p.rest with
    | .entry _ rest =>
      if startsIndicator ':' p.rest then pure (key, names, ⟨rest, true⟩, true)
      else pure (key, names, p, false)
    | _ => pure (key, names, p, false)
  else do
    let (key, names, p) ← readNode (.block (column + 1)) names p
    match (p.skip false).rest with
    | [] => none
    | colon :: rest =>
      if startsIndicator ':' (colon :: rest) && onOneLine start colon then
        pure (key, names, ⟨rest, false⟩, true)
      else none

/-- Keys with their values at a column. Every round takes one, which bounds the fuel. -/
def readBlockEntries (column : Nat) :
    (fuel : Nat) → Names → Point → Option (NodeEntries × Names × Point)
  | 0, _, _ => none
  | fuel + 1, names, p =>
    match upcoming column p.rest with
    | .done => some ([], names, p)
    | .misplaced => none
    | .entry start rest => do
      let (key, names, p, hasValue) ← readBlockKey column names start rest p
      let (value, names, p) ←
        if hasValue then readItem (.block (column + 1)) names p
        else some (.scalar .empty, names, p)
      let (entries, names, p) ← readBlockEntries column fuel names p
      pure ((key, value) :: entries, names, p)

/-- Goes over a comma to the next key, or stays in front of the closing brace. -/
def separated (p : Point) : Option Point :=
  match after? ',' p.rest with
  | some rest => some (Point.skip true ⟨rest, true⟩)
  | none => if (after? '\x7d' p.rest).isSome then some p else none

/-- Keys with their values up to the closing brace. Every round takes one, which bounds the
fuel. -/
def readFlowEntries : (fuel : Nat) → Names → Point → Option (NodeEntries × Names × Point)
  | 0, _, _ => none
  | fuel + 1, names, p =>
    match p.rest with
    | [] => none
    | start :: rest =>
      if start.char == '\x7d' then some ([], names, ⟨rest, false⟩)
      else do
        let marked := start.char == '?'
        let (key, names, p) ←
          if marked then readItem .flow names ⟨rest, false⟩ else readNode .flow names p
        let p := p.skip true
        let (value, names, p) ← match p.rest with
          | [] => none
          | colon :: rest =>
            if colon.char ≠ ':' then some (Node.scalar .empty, names, p)
            else if marked || onOneLine start colon then readItem .flow names ⟨rest, false⟩
            else none
        let p ← separated (p.skip true)
        let (entries, names, p) ← readFlowEntries fuel names p
        pure ((key, value) :: entries, names, p)

/-- A mapping that begins here, or what stands for a document that is left out. Properties on lines
before it are its own, those on the line of a key belong to the key. Two rounds take all properties
that a document may have, which bounds the fuel. -/
def readRoot (marked : Bool) (handles : Handles) :
    (fuel : Nat) → Properties → Point → Option (NodeEntries × Names × Point)
  | 0, _, _ => none
  | fuel + 1, q, p =>
    let names := match q.anchor with
      | some anchor => (Names.empty handles).add anchor none
      | none => .empty handles
    match p.rest with
    | [] => some ([], names, p)
    | g :: rest =>
      let room := p.rest.length + 1
      let entries := if p.fresh then readBlockEntries g.column room names p else none
      if startsMark '.' p.rest then if marked || !q.isEmpty then some ([], names, p) else none
      else if startsMark '-' p.rest || startsIndicator '-' p.rest then none
      else if g.char == '\x7b' then readFlowEntries room names (Point.skip true ⟨rest, true⟩)
      else if startsProperty p then do
        let (r, next) ← readProperties handles false (!·.fresh) p
        if next.fresh || next.rest.head?.all (·.char == '\x7b') then
          let q ← q.merge? r
          readRoot marked handles fuel q next
        else entries
      else entries

/-- Whether nothing follows a document but marks of its end. Every round takes one, which bounds
the fuel. -/
def endsIn : (fuel : Nat) → Point → Bool
  | 0, _ => false
  | fuel + 1, p =>
    let p := p.skip false
    p.rest.isEmpty || (startsMark '.' p.rest && endsIn fuel ⟨p.rest.drop 3, false⟩)

namespace Document

/-- The only document of a file. An alias stands for the scalar that its place has in the end. -/
def read? (text : String) : Option Document := do
  let s ← glyphs? text
  let (d, p) ← readDirectives (s.length + 1) .empty (Point.skip false ⟨s, true⟩)
  let marked := startsMark '-' p.rest
  let p := if marked then Point.skip false ⟨p.rest.drop 3, false⟩ else p
  let (entries, names, p) ← readRoot marked (d.handles ++ standardHandles) 3 .empty p
  if endsIn (s.length + 1) p then
    entries.mapM fun (key, value) => do pure (← names.scalar? key, ← names.scalar? value)
  else none

end Document

end LiveMarkup.Yaml
