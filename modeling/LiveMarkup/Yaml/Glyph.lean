/-! A YAML file as characters at their places, and what stands between its items: blanks, line
breaks, comments, and the marks of documents. -/
namespace LiveMarkup.Yaml

/-- A character of a file at its place. -/
structure Glyph where
  char : Char
  line : Nat
  column : Nat

/-- Ends of lines: a line feed, or a separator of lines or paragraphs. -/
def isBreak (c : Char) : Bool := c == '\n' || c == '\u2028' || c == '\u2029'

def isBlank (c : Char) : Bool := c == ' ' || c == '\t'

def isGap (c : Char) : Bool := isBlank c || isBreak c

/-- Writes every other end of a line as a line feed. -/
def unifyBreaks : List Char → List Char
  | [] => []
  | '\r' :: '\n' :: rest => '\n' :: unifyBreaks rest
  | c :: rest => (if c == '\r' || c == '\u0085' then '\n' else c) :: unifyBreaks rest

/-- Gives characters their places, the first one as it is told. -/
def place (line column : Nat) : List Char → List Glyph
  | [] => []
  | c :: rest =>
    ⟨c, line, column⟩ ::
      if isBreak c then place (line + 1) 0 rest else place line (column + 1) rest

/-- Whether a file may hold a character: no control character but tab and line ends. -/
def isFileChar (c : Char) : Bool :=
  c == '\t' || c == '\n' || c == '\r' || c == '\u0085' || (' ' ≤ c && c ≤ '~')
    || ('\u00a0' ≤ c && c ≠ '\ufffe' && c ≠ '\uffff')

/-- The characters of a file at their places. -/
def glyphs? (text : String) : Option (List Glyph) :=
  let s := text.toList
  if s.all isFileChar then some (place 0 0 (unifyBreaks s)) else none

/-- What follows a character, if it comes next. -/
def after? (c : Char) (s : List Glyph) : Option (List Glyph) :=
  match s with
  | [] => none
  | g :: rest => if g.char == c then some rest else none

/-- Whether a blank, a break or the end comes next. -/
def startsGap (s : List Glyph) : Bool := s.head?.all fun g => isGap g.char

/-- Whether a line begins here with a mark of three equal characters, `---` before a document or
`...` behind it. -/
def startsMark (c : Char) (s : List Glyph) : Bool :=
  s.head?.any (·.column == 0) && (s.take 3).map Glyph.char == [c, c, c] && startsGap (s.drop 3)

def startsAnyMark (s : List Glyph) : Bool := startsMark '-' s || startsMark '.' s

/-- Where reading has come to. A point is fresh at the beginning of a line, and behind an indicator
that allows what the beginning of a line allows: a key may start there, and no tab may stand. -/
structure Point where
  rest : List Glyph
  fresh : Bool

/-- Goes over blanks, breaks and comments to the next item. A byte order mark may begin any line;
it takes a column. Within brackets breaks count for nothing and tabs may stand anywhere. -/
def skipFrom (flow : Bool) : (fresh comment : Bool) → List Glyph → Point
  | fresh, _, [] => ⟨[], fresh⟩
  | fresh, comment, g :: rest =>
    if isBreak g.char then skipFrom flow (fresh || !flow) false rest
    else if g.char == '\ufeff' && g.column == 0 then skipFrom flow fresh false rest
    else if comment || g.char == ' ' || (g.char == '\t' && (flow || !fresh)) then
      skipFrom flow fresh comment rest
    else if g.char == '#' then skipFrom flow fresh true rest
    else ⟨g :: rest, fresh⟩

def Point.skip (flow : Bool) (p : Point) : Point := skipFrom flow p.fresh false p.rest

/-- What a run of blanks and breaks inside a scalar comes to: without a break it stays, a lone
break is a space, and of more breaks the first is dropped. A separator is never dropped. -/
def folded (run : List Char) : List Char :=
  match run.filter isBreak with
  | [] => run
  | ['\n'] => [' ']
  | '\n' :: more => more
  | breaks => breaks

example : folded [' ', '\n', '\t', ' '] = [' '] := by decide

end LiveMarkup.Yaml
