import LiveMarkup.Scope
import LiveMarkup.Text.Character

/-! Placeholders in text: a path between two opening and two closing braces, blanks allowed
around it. Filling a text replaces each placeholder by the display form of what its path resolves
to; the inserted text is not looked at again. -/
namespace LiveMarkup.Placeholder

/-- Letters, digits, underscore, point and hyphen, all of them ASCII. -/
def isPathChar (c : Char) : Bool :=
  (97 ≤ c.toNat && c.toNat ≤ 122) || (65 ≤ c.toNat && c.toNat ≤ 90) ||
  (48 ≤ c.toNat && c.toNat ≤ 57) || c == '_' || c == '.' || c == '-'

/-- Two equal characters at the beginning of a text, and the text after them. -/
def pair? (c : Char) : List Char → Option (List Char)
  | a :: b :: rest => if a = c ∧ b = c then some rest else none
  | _ => none

theorem length_of_pair? {c : Char} {s rest : List Char} (h : pair? c s = some rest) :
    s.length = rest.length + 2 := by
  unfold pair? at h
  split at h
  · split at h
    · cases h
      rfl
    · cases h
  · cases h

/-- The path of a placeholder at the beginning of a text, and the text after the placeholder. -/
def token? (s : List Char) : Option (List Char × List Char) := do
  let inner ← pair? '\x7b' s
  let inner := inner.dropWhile Text.isBlank
  let path := inner.takeWhile isPathChar
  let close := (inner.dropWhile isPathChar).dropWhile Text.isBlank
  let rest ← pair? '\x7d' close
  if path.isEmpty then none else some (path, rest)

theorem token?_length {s path rest : List Char} (h : token? s = some (path, rest)) :
    rest.length < s.length := by
  simp only [token?, Option.bind_eq_bind, Option.bind_eq_some_iff] at h
  obtain ⟨inner, hopen, close, hclose, h⟩ := h
  have h1 := length_of_pair? hopen
  have h2 := length_of_pair? hclose
  have h3 := (List.dropWhile_sublist (l := (inner.dropWhile Text.isBlank).dropWhile isPathChar)
    Text.isBlank).length_le
  have h4 := (List.dropWhile_sublist (l := inner.dropWhile Text.isBlank) isPathChar).length_le
  have h5 := (List.dropWhile_sublist (l := inner) Text.isBlank).length_le
  split at h
  · cases h
  · cases h
    omega

/-- A text is a row of plain characters and placeholders. -/
inductive Piece where
  | plain (c : Char)
  | token (path : List Char)

/-- Cuts a text from the left; a placeholder that begins earlier wins. -/
def pieces (s : List Char) : List Piece :=
  match s with
  | [] => []
  | c :: rest =>
    match h : token? (c :: rest) with
    | some (path, tail) =>
      have : tail.length < rest.length + 1 := token?_length h
      .token path :: pieces tail
    | none => .plain c :: pieces rest
termination_by s.length

/-- What stands in place of a placeholder: nothing when its path does not resolve. -/
def shown (path : List Char) (model : Value) (scope : Scope) : List Char :=
  match Path.resolve (String.ofList path) model scope with
  | some v => v.displayChars
  | none => []

def Piece.fill (model : Value) (scope : Scope) : Piece → List Char
  | plain c => [c]
  | token path => shown path model scope

def fillChars (s : List Char) (model : Value) (scope : Scope) : List Char :=
  (pieces s).flatMap (Piece.fill model scope)

def fill (text : String) (model : Value) (scope : Scope) : String :=
  String.ofList (fillChars text.toList model scope)

/-- Two closing braces before the end of the line. -/
def closesOnLine : List Char → Bool
  | [] => false
  | c :: rest =>
    if c = '\n' then false else (pair? '\x7d' (c :: rest)).isSome || closesOnLine rest

/-- Something shaped like a placeholder: two opening braces with two closing ones after them on
the same line, whatever is between. -/
def appears : List Char → Bool
  | [] => false
  | c :: rest =>
    (match pair? '\x7b' (c :: rest) with
      | some inner => closesOnLine inner
      | none => false) || appears rest

/-- Whether a text is taken for the source of a filled text. -/
def appearsIn (text : String) : Bool := appears text.toList

end LiveMarkup.Placeholder
