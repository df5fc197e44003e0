import LiveMarkup.Template

/-! Compiled templates by the node they were compiled from. Addresses are equal across documents,
so a key names the document, too. -/
namespace LiveMarkup

structure Cache where
  entries : List ((TreeId × NodeId) × Template)
  hits : Nat
  misses : Nat

namespace Cache

def empty : Cache := ⟨[], 0, 0⟩

def contains (c : Cache) (tree : TreeId) (id : NodeId) : Bool :=
  Entries.contains (tree, id) c.entries

/-- The template of a node, compiled only where it is not there. A node without a template leaves
no entry. -/
def getOrCompile (c : Cache) (tree : TreeId) (id : NodeId) (compile : Unit → Option Template) :
    Option Template × Cache :=
  match Entries.get? (tree, id) c.entries with
  | some template => (some template, { c with hits := c.hits + 1 })
  | none =>
    match compile () with
    | none => (none, { c with misses := c.misses + 1 })
    | some template =>
      (some template,
        { c with
          entries := Entries.put (tree, id) template c.entries
          misses := c.misses + 1 })

/-- What is given is the entry that there is, or else what is compiled. -/
theorem getOrCompile_fst (c : Cache) (tree : TreeId) (id : NodeId)
    (compile : Unit → Option Template) : (c.getOrCompile tree id compile).1 =
      (Entries.get? (tree, id) c.entries).or (compile ()) := by
  rw [getOrCompile]
  cases Entries.get? (tree, id) c.entries with
  | some template => rfl
  | none => cases compile () <;> rfl

/-- What is given is the entry from then on; other nodes keep theirs. -/
theorem get?_getOrCompile (c : Cache) (tree : TreeId) (id : NodeId)
    (compile : Unit → Option Template) (key : TreeId × NodeId) :
    Entries.get? key (c.getOrCompile tree id compile).2.entries =
      if key = (tree, id) then (c.getOrCompile tree id compile).1
      else Entries.get? key c.entries := by
  by_cases hkey : key = (tree, id)
  · rw [if_pos hkey, hkey, getOrCompile]
    cases h : Entries.get? (tree, id) c.entries with
    | some template => exact h
    | none =>
      cases compile () with
      | none => exact h
      | some template => exact (Entries.get?_put ..).trans (if_pos rfl)
  · rw [if_neg hkey, getOrCompile]
    cases Entries.get? (tree, id) c.entries with
    | some template => rfl
    | none =>
      cases compile () with
      | none => rfl
      | some template => exact (Entries.get?_put ..).trans (if_neg (Ne.symm hkey))

/-- Drops the entry of a node; tells whether there was one. -/
def invalidate (c : Cache) (tree : TreeId) (id : NodeId) : Bool × Cache :=
  (c.contains tree id, { c with entries := Entries.erase (tree, id) c.entries })

/-- Drops all entries and keeps the counters. -/
def clear (c : Cache) : Cache := { c with entries := [] }

end Cache

end LiveMarkup
