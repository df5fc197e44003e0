import LiveMarkup.Document.Basic

/-! Giving slots back. -/
namespace LiveMarkup.Document

/-- Frees one slot: its generation goes up, round the 32 bits, and it is the next one to be
reused. -/
def vacate (d : Document) (id : NodeId) : Document :=
  { d with
    slots := d.slots.modify id.slot fun s => ⟨s.generation + 1, none⟩
    free := id.slot :: d.free }

theorem lt_size_of_node? {d : Document} {id : NodeId} {n : Node} (h : d.node? id = some n) :
    ∃ hlt : id.slot < d.slots.size, d.slots[id.slot].generation = id.generation ∧
      d.slots[id.slot].node = some n := by
  simp only [node?, Option.bind_eq_some_iff] at h
  obtain ⟨s, hs, h⟩ := h
  obtain ⟨hlt, hget⟩ := Array.getElem?_eq_some_iff.1 hs
  subst hget
  split at h
  · exact ⟨hlt, ‹_›, h⟩
  · cases h

theorem nodeCount_vacate {d : Document} {id : NodeId} {n : Node} (h : d.node? id = some n) :
    (d.vacate id).nodeCount + 1 = d.nodeCount := by
  obtain ⟨hlt, -, hnode⟩ := lt_size_of_node? h
  have hpos : 0 < d.slots.countP (·.node.isSome) :=
    Array.countP_pos_iff.2 ⟨d.slots[id.slot], Array.getElem_mem hlt, by simp [hnode]⟩
  have hset : (d.vacate id).slots =
      d.slots.set id.slot ⟨d.slots[id.slot].generation + 1, none⟩ hlt := by
    apply Array.ext
    · simp [vacate]
    · intro i h1 h2
      simp only [vacate, Array.getElem_modify, Array.getElem_set]
      split
      · next heq =>
        subst heq
        rfl
      · rfl
  simp only [nodeCount, hset, Array.countP_set, hnode, Option.isSome_some, Option.isSome_none]
  simp only [if_true, Bool.false_eq_true, if_false]
  omega

/-- Frees the first live node of a worklist, puts its children at the front of the list, the last
one first, and goes on. Every live node is freed once, which bounds the fuel. -/
def releaseWithin : (fuel : Nat) → Document → List NodeId → Document
  | 0, d, _ => d
  | fuel + 1, d, work =>
    match work.dropWhile fun id => !d.contains id with
    | [] => d
    | id :: rest =>
      match d.node? id with
      | none => d
      | some n => releaseWithin fuel (d.vacate id) (n.children.reverse ++ rest)

/-- Frees the nodes of a worklist with all that hangs below them. -/
def release (d : Document) (work : List NodeId) : Document := releaseWithin d.nodeCount d work

theorem release_nil (d : Document) : d.release [] = d := by
  rw [release]
  cases d.nodeCount <;> rfl

theorem release_dead {d : Document} {id : NodeId} (h : d.node? id = none) (rest : List NodeId) :
    d.release (id :: rest) = d.release rest := by
  have hdrop : (id :: rest).dropWhile (fun id => !d.contains id) =
      rest.dropWhile fun id => !d.contains id :=
    List.dropWhile_cons_of_pos (by simp [contains, h])
  rw [release, release]
  cases d.nodeCount with
  | zero => rfl
  | succ fuel => rw [releaseWithin, releaseWithin, hdrop]

theorem release_live {d : Document} {id : NodeId} {n : Node} (h : d.node? id = some n)
    (rest : List NodeId) :
    d.release (id :: rest) = (d.vacate id).release (n.children.reverse ++ rest) := by
  have hdrop : (id :: rest).dropWhile (fun id => !d.contains id) = id :: rest :=
    List.dropWhile_cons_of_neg (by simp [contains, h])
  rw [release, release, ← nodeCount_vacate h, releaseWithin, hdrop]
  simp only [h]

/-- Induction on the steps of a release. -/
theorem release_induction {motive : Document → List NodeId → Prop} (nil : ∀ d, motive d [])
    (dead : ∀ d id rest, d.node? id = none → motive d rest → motive d (id :: rest))
    (live : ∀ d id rest n, d.node? id = some n →
      motive (d.vacate id) (n.children.reverse ++ rest) → motive d (id :: rest))
    (d : Document) (work : List NodeId) : motive d work := by
  obtain ⟨count, hcount⟩ : ∃ count, d.nodeCount = count := ⟨_, rfl⟩
  induction count generalizing d work with
  | zero =>
    induction work with
    | nil => exact nil d
    | cons id rest ih =>
      refine dead d id rest ?_ ih
      cases h : d.node? id with
      | none => rfl
      | some n =>
        have hdrop := nodeCount_vacate h
        omega
  | succ count ihcount =>
    induction work with
    | nil => exact nil d
    | cons id rest ih =>
      cases h : d.node? id with
      | none => exact dead d id rest h ih
      | some n =>
        have hdrop := nodeCount_vacate h
        exact live d id rest n h (ihcount _ _ (by omega))

end LiveMarkup.Document
