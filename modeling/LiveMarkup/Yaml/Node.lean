import LiveMarkup.Yaml.Block
import LiveMarkup.Yaml.Plain
import LiveMarkup.Yaml.Quoted
import LiveMarkup.Yaml.Tag

/-! Scalars where they stand in a file: with an anchor and a tag in front of them, or as an alias
of a scalar that has been named before. -/
namespace LiveMarkup.Yaml

/-- The text of a scalar, and whether it may be a number: it stands there plainly, or in literal
lines under the tag of integers. -/
structure Scalar where
  text : String
  numeric : Bool

/-- What stands for a scalar that is left out. -/
def Scalar.empty : Scalar := ⟨"", true⟩

/-- A scalar that stands there, or the place of one that an alias repeats. -/
inductive Node where
  | scalar (s : Scalar)
  | alias (place : Nat)

/-- What a document names: what the handles of its tags stand for, the places of its anchors, and
the scalars at these places. -/
structure Names where
  handles : Handles
  places : List (String × Nat)
  scalars : List (Nat × Scalar)

namespace Names

/-- No names, with what handles stand for. -/
def empty (handles : Handles) : Names := ⟨handles, [], []⟩

/-- An anchor takes the place whose number is that of the different names before it. So after a
name that is given again the next new name takes the same place, and the last scalar of a place is
the one that is kept. The anchor of a mapping has a place without a scalar. -/
def add (anchor : String) (s : Option Scalar) (names : Names) : Names :=
  let place := names.places.length
  { names with
    places := Entries.put anchor place names.places
    scalars := match s with
      | some s => Entries.put place s names.scalars
      | none => names.scalars }

/-- The scalar of a node, when all names of the document are known. -/
def scalar? (names : Names) : Node → Option Scalar
  | .scalar s => some s
  | .alias place => Entries.get? place names.scalars

example (a b c : Scalar) :
    ((((empty []).add "x" (some a)).add "x" (some b)).add "y" (some c)).scalar? (.alias 1) =
      some c := rfl

end Names

/-- Where an item stands: within braces, or in lines with a least indentation. -/
inductive Context where
  | flow
  | block (indent : Nat)

namespace Context

def isFlow : Context → Bool
  | flow => true
  | block _ => false

def indent : Context → Nat
  | flow => 0
  | block n => n

/-- Whether a point belongs to the item that has been begun. -/
def holds : Context → Point → Bool
  | flow, _ => true
  | block n, p => p.rest.head?.any (n ≤ ·.column)

/-- What stands within braces where an item has been left out. -/
def flowEnds : List Char := [',', ':', '\x7d']

/-- Whether an item is not left out here. Lines of text may be announced one column too early. -/
def hasItem (c : Context) (p : Point) : Bool :=
  match c, p.rest with
  | _, [] => false
  | flow, g :: _ => !flowEnds.contains g.char
  | block n, g :: _ => n ≤ g.column || (g.column + 1 == n && (g.char == '|' || g.char == '>'))

end Context

/-- The name behind the indicator of an anchor or an alias. -/
def readName (s : List Glyph) : Option (String × List Glyph) :=
  let cs := s.takeWhile fun g => isNameChar g.char
  let rest := s.dropWhile fun g => isNameChar g.char
  let ends := startsGap rest ||
    rest.head?.any fun g => ['?', ':', ',', ']', '\x7d', '%', '@', '\x60'].contains g.char
  if cs.isEmpty || !ends then none else some (String.ofList (cs.map Glyph.char), rest)

/-- What may stand in front of an item, each once and in either order. -/
structure Properties where
  anchor : Option String
  tag : Option String

namespace Properties

def empty : Properties := ⟨none, none⟩

def isEmpty (q : Properties) : Bool := q.anchor.isNone && q.tag.isNone

/-- The properties of one item that have been read in two parts. -/
def merge? (q r : Properties) : Option Properties :=
  if (q.anchor.isSome && r.anchor.isSome) || (q.tag.isSome && r.tag.isSome) then none
  else some ⟨q.anchor.or r.anchor, q.tag.or r.tag⟩

end Properties

/-- A property, and the point of what follows it. -/
def readProperty (handles : Handles) (flow : Bool) (p : Point) : Option (Properties × Point) :=
  match p.rest with
  | [] => none
  | g :: rest =>
    if g.char == '&' then
      (readName rest).map fun (anchor, rest) =>
        (⟨some anchor, none⟩, Point.skip flow ⟨rest, false⟩)
    else
      (readTag handles flow rest).map fun (tag, rest) =>
        (⟨none, some tag⟩, Point.skip flow ⟨rest, false⟩)

def startsProperty (p : Point) : Bool := p.rest.head?.any fun g => g.char == '&' || g.char == '!'

/-- Properties as long as they belong together. No more than two do, which bounds the fuel. -/
def readPropertiesFrom (handles : Handles) (flow : Bool) (together : Point → Bool) :
    (fuel : Nat) → Properties → Point → Option (Properties × Point)
  | 0, _, _ => none
  | fuel + 1, q, p =>
    if startsProperty p && (q.isEmpty || together p) then do
      let (r, p) ← readProperty handles flow p
      let q ← q.merge? r
      readPropertiesFrom handles flow together fuel q p
    else some (q, p)

def readProperties (handles : Handles) (flow : Bool) (together : Point → Bool) (p : Point) :
    Option (Properties × Point) :=
  readPropertiesFrom handles flow together 3 .empty p

/-- A scalar of any style, under a tag if there is one. -/
def readContent (c : Context) (tag : Option String) (s : List Glyph) : Option (Scalar × Point) :=
  match s with
  | [] => none
  | g :: rest =>
    let quoted : List Char × List Glyph → Scalar × Point := fun (cs, rest) =>
      (⟨String.ofList cs, false⟩, ⟨rest, false⟩)
    if g.char == '\x27' then (readSingleQuoted [] rest).map quoted
    else if g.char == '"' then (readDoubleQuoted false [] (rest.length + 1) rest).map quoted
    else if !c.isFlow && (g.char == '|' || g.char == '>') then
      let literal := g.char == '|'
      (readBlock literal c.indent rest).map fun (cs, p) =>
        (⟨String.ofList cs, literal && tag == some integerTag⟩, p)
    else if startsPlain c.isFlow s then
      (readPlain c.isFlow c.indent s).map fun (cs, p) => (⟨String.ofList cs, true⟩, p)
    else none

/-- A scalar that stands here, with its properties or as an alias, and the names after it. -/
def readNode (c : Context) (names : Names) (p : Point) : Option (Node × Names × Point) :=
  match p.rest with
  | [] => none
  | g :: rest =>
    if g.char == '*' then do
      let (anchor, rest) ← readName rest
      let place ← Entries.get? anchor names.places
      pure (.alias place, names, ⟨rest, false⟩)
    else do
      let (q, p) ← readProperties names.handles c.isFlow c.holds p
      let (s, p) ←
        if q.isEmpty || c.hasItem p then readContent c q.tag p.rest else some (.empty, p)
      let names := match q.anchor with
        | some anchor => names.add anchor (some s)
        | none => names
      pure (.scalar s, names, p)

/-- A scalar that may be left out, and the point of what follows it. -/
def readItem (c : Context) (names : Names) (p : Point) : Option (Node × Names × Point) :=
  let p := p.skip c.isFlow
  if c.hasItem p then
    (readNode c names p).map fun (n, names, p) => (n, names, p.skip c.isFlow)
  else some (.scalar .empty, names, p)

end LiveMarkup.Yaml
