import LiveMarkup.Text.Dotted
import LiveMarkup.Value

/-! Nested frames of bindings, and dotted paths into a model under them. A name means what the
innermost frame that binds it says. The first segment of a path names a binding or, where no frame
binds it, an entry of the model; each further segment steps into the value found so far. -/
namespace LiveMarkup

abbrev Frame := List (String × Value)

/-- A chain of frames that is never empty; the enclosing ones run outwards. -/
structure Scope where
  frame : Frame
  enclosing : List Frame

namespace Scope

/-- The top level without bindings. -/
def empty : Scope := ⟨[], []⟩

/-- Number of frames around the innermost one. -/
def depth (scope : Scope) : Nat := scope.enclosing.length

/-- Opens an empty frame inside. -/
def child (scope : Scope) : Scope := ⟨[], scope.frame :: scope.enclosing⟩

/-- Binds a name in the innermost frame. -/
def bind (scope : Scope) (name : String) (value : Value) : Scope :=
  { scope with frame := Entries.put name value scope.frame }

/-- All frames from the innermost outwards. -/
def frames (scope : Scope) : List Frame := scope.frame :: scope.enclosing

def find? (scope : Scope) (name : String) : Option Value :=
  scope.frames.findSome? (Entries.get? name)

def contains (scope : Scope) (name : String) : Bool := (scope.find? name).isSome

@[simp] theorem find?_empty (name : String) : empty.find? name = none := rfl

@[simp] theorem find?_child (scope : Scope) (name : String) :
    scope.child.find? name = scope.find? name := rfl

theorem find?_bind (scope : Scope) (key : String) (value : Value) (name : String) :
    (scope.bind key value).find? name = if key = name then some value else scope.find? name := by
  simp only [find?, frames, bind, List.findSome?_cons, Entries.get?_put]
  by_cases h : key = name <;> simp [h]

end Scope

namespace Path

/-- Walks from a value along segments, none of which may be empty. -/
def walk : List String → Value → Option Value
  | [], v => some v
  | segment :: rest, v =>
    if segment = "" then none else (v.child? segment).bind (walk rest)

/-- Where a path starts: at a binding, else at an entry of the model. -/
def start? (name : String) (model : Value) (scope : Scope) : Option Value :=
  match scope.find? name with
  | some v => some v
  | none => model.child? name

def resolve (path : String) (model : Value) (scope : Scope) : Option Value :=
  match Text.segments path with
  | [] => none
  | first :: rest => if first = "" then none else (start? first model scope).bind (walk rest)

theorem walk_append (p q : List String) (v : Value) :
    walk (p ++ q) v = (walk p v).bind (walk q) := by
  induction p generalizing v with
  | nil => rfl
  | cons segment p ih =>
    simp only [List.cons_append, walk]
    split
    · rfl
    · cases v.child? segment with
      | none => rfl
      | some w => exact ih w

end Path

end LiveMarkup
