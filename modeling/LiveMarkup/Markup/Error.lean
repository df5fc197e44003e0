import LiveMarkup.Document.Basic
import LiveMarkup.Markup.Attribute

/-! Why a markup text is refused. -/
namespace LiveMarkup

/-- What is malformed about a piece of markup. -/
inductive Malformation where
  | tagNotClosed
  | unknownMark
  | dataNotClosed
  | commentNotClosed
  | doctypeNotClosed
  | instructionNotClosed
  | doctypeWithoutName
  | unmatchedClose (name : String)
  | badElement (cause : TreeError)
  | badAttribute (cause : Markup.AttributeError)
  | badValue (cause : Markup.EntityError)
  | badText (cause : Markup.EntityError)
  deriving DecidableEq

/-- Pieces that are not closed share the wording of what is missing. -/
def Malformation.notClosed (piece close : String) : String :=
  "syntax error: " ++ piece ++ " not closed: `" ++ close ++ "` not found before end of input"

def Malformation.message : Malformation → String
  | tagNotClosed => notClosed "tag" ">"
  | unknownMark => "syntax error: unknown or missed symbol in markup"
  | dataNotClosed => notClosed "CDATA" "]]>"
  | commentNotClosed => notClosed "comment" "-->"
  | doctypeNotClosed => notClosed "DOCTYPE" ">"
  | instructionNotClosed => notClosed "processing instruction or xml declaration" "?>"
  | doctypeWithoutName =>
    "ill-formed document: `<!DOCTYPE>` declaration does not contain a name of a document type"
  | unmatchedClose name =>
    "ill-formed document: close tag `</" ++ name ++ ">` does not match any open tag"
  | badElement cause => cause.message
  | badAttribute cause => "Attribute error: " ++ cause.message
  | badValue cause => "Invalid attribute value: " ++ cause.message
  | badText cause => "Invalid text content: " ++ cause.message

inductive MarkupError where
  /-- A malformed piece and, where it is known, the byte at which it begins. -/
  | malformed (cause : Malformation) (position : Option Nat)
  | mismatchedClose (expected found : String)
  | unclosed (expected : String)
  | tree (cause : TreeError)
  deriving DecidableEq

def MarkupError.message : MarkupError → String
  | malformed cause position =>
    "Markup syntax error: " ++ cause.message ++ (match position with
      | some p => " at byte " ++ Text.decimalString p
      | none => "")
  | mismatchedClose expected found =>
    "Mismatched end tag: expected </" ++ expected ++ ">, found </" ++ found ++ ">"
  | unclosed expected =>
    "Unexpected end of input, expected closing tag </" ++ expected ++ ">"
  | tree cause => cause.message

end LiveMarkup
