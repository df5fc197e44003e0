import LiveMarkup.Yaml.Tag

/-! Directives: lines in front of a document that tell the version of YAML, or what a handle of
tags stands for. Each tells something new, and other directives are refused. -/
namespace LiveMarkup.Yaml

/-- What directives have told. -/
structure Directives where
  versioned : Bool
  handles : Handles

namespace Directives

def empty : Directives := ⟨false, []⟩

def isEmpty (d : Directives) : Bool := !d.versioned && d.handles.isEmpty

end Directives

def skipBlanks (s : List Glyph) : List Glyph := s.dropWhile fun g => isBlank g.char

/-- What follows one blank or more. -/
def afterBlanks? (s : List Glyph) : Option (List Glyph) :=
  if s.head?.any fun g => isBlank g.char then some (skipBlanks s) else none

/-- A number of a version, of no more than nine digits. -/
def readVersionNumber (s : List Glyph) : Option (Nat × List Glyph) :=
  let ds := (s.takeWhile fun g => Text.isDigit g.char).map Glyph.char
  if ds.isEmpty || 9 < ds.length then none
  else some (Text.readDecimal ds, s.dropWhile fun g => Text.isDigit g.char)

/-- Versions that can be read, 1.1 and 1.2. -/
def readVersion (s : List Glyph) : Option (List Glyph) := do
  let (major, rest) ← readVersionNumber s
  let (minor, rest) ← readVersionNumber (← after? '.' rest)
  if major = 1 ∧ (minor = 1 ∨ minor = 2) then some rest else none

/-- A handle and the beginning of tags that it stands for, which ends in a gap. -/
def readHandleLine (s : List Glyph) : Option (String × String × List Glyph) := do
  let behind ← after? '!' s
  let (handle, rest) := (readHandle behind).getD ("!", behind)
  let (uri, rest) ← readUri true 0 (← afterBlanks? rest)
  if !uri.isEmpty && startsGap rest then some (handle, tagText uri, rest) else none

/-- What a line tells, from behind its percent sign. -/
def readDirective (d : Directives) (line : List Glyph) : Option Directives := do
  let name := String.ofList ((line.takeWhile fun g => isNameChar g.char).map Glyph.char)
  let body ← afterBlanks? (line.dropWhile fun g => isNameChar g.char)
  let (d, rest) ← match name with
    | "YAML" =>
      if d.versioned then none
      else (readVersion body).map fun rest => ({ d with versioned := true }, rest)
    | "TAG" => do
      let (handle, start, rest) ← readHandleLine body
      if Entries.contains handle d.handles then none
      else pure ({ d with handles := d.handles ++ [(handle, start)] }, rest)
    | _ => none
  if (skipBlanks rest).head?.all (·.char == '#') then some d else none

/-- Goes over the directives of a document, behind which its mark has to come. Every round takes a
line, which bounds the fuel. -/
def readDirectives : (fuel : Nat) → Directives → Point → Option (Directives × Point)
  | 0, _, _ => none
  | fuel + 1, d, p =>
    match p.rest with
    | [] => if d.isEmpty then some (d, p) else none
    | g :: rest =>
      if g.char == '%' && g.column == 0 then do
        let d ← readDirective d (rest.takeWhile fun g => !isBreak g.char)
        let below := (rest.dropWhile fun g => !isBreak g.char).drop 1
        readDirectives fuel d (Point.skip false ⟨below, false⟩)
      else if d.isEmpty || startsMark '-' p.rest then some (d, p)
      else none

end LiveMarkup.Yaml
