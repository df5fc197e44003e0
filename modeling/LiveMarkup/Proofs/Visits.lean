import LiveMarkup.Render

/-! Renderings told anchor by anchor. What is told of a visit to an anchor are the nodes that its
expansion gave and the number of nodes that were swept away for them. A rendering is one that tells
of its visits, of which only the totals are kept. -/
namespace LiveMarkup

/-- A visit of a rendering to an anchor. -/
structure Visit where
  anchor : NodeId
  nodes : List NodeId
  swept : Nat

namespace Visit

def counts (v : Visit) : Counts := ⟨1, v.nodes.length, v.swept⟩

/-- What visits come to. -/
def total : List Visit → Counts
  | [] => .zero
  | v :: rest => v.counts.add (total rest)

end Visit

namespace Pass

/-- Renders an anchor under its parent and tells of it. -/
def visitAnchor (parent anchor : NodeId) (model : Value) (scope : Scope) : Pass (List Visit) := do
  let swept ← sweep anchor
  let nodes ← expandNode anchor model scope
  nodes.forM fun node => apply (·.insertBefore parent node anchor)
  let stage ← get
  apply (·.setAttribute anchor stage.engine.settings.hiddenAttribute "")
  pure [⟨anchor, nodes, swept⟩]

/-- Puts into one row what is told of each element of a list. -/
def visitAll {α : Type} (work : α → Pass (List Visit)) : List α → Pass (List Visit)
  | [] => pure []
  | a :: rest => do
    let visits ← work a
    let others ← visitAll work rest
    pure (visits ++ others)

/-- Renders one child of a node and tells of the visits, given what is done below plain elements. -/
def visitChild (model : Value) (scope : Scope) (below : NodeId → Pass (List Visit))
    (parent child : NodeId) : Pass (List Visit) := do
  let stage ← get
  let d := stage.document
  let s := stage.engine.settings
  if d.isGenerated s child then pure []
  else if (d.directive? s child).isSome then visitAnchor parent child model scope
  else do
    edit (Document.fill child model scope)
    below child

/-- Renders the elements that are children of a node and tells of the visits. -/
def visitChildren (model : Value) (scope : Scope) : (fuel : Nat) → NodeId → Pass (List Visit)
  | 0, _ => pure []
  | fuel + 1, parent => do
    let stage ← get
    visitAll (visitChild model scope (visitChildren model scope fuel) parent)
      (stage.document.childElements parent)

/-- Renders a document and tells of the visits, in document order. -/
def visits (root : NodeId) (model : Value) (scope : Scope) : Pass (List Visit) := do
  modifyEngine fun e => { e with depth := 0 }
  let stage ← get
  visitChildren model scope stage.document.slots.size root

end Pass

theorem Counts.zero_add (c : Counts) : Counts.zero.add c = c := by
  simp [zero, add]

theorem Counts.add_assoc (a b c : Counts) : (a.add b).add c = a.add (b.add c) := by
  simp [add, Nat.add_assoc]

theorem Visit.total_append (visits others : List Visit) :
    total (visits ++ others) = (total visits).add (total others) := by
  induction visits with
  | nil => exact (Counts.zero_add _).symm
  | cons v rest ih => rw [List.cons_append, total, ih, total, Counts.add_assoc]

namespace Visit

variable {α : Type} {visits : List Visit} {runs : List (List α)}

/-- What is added up visit by visit comes to the length of a row of runs, if each visit counts for
the length of its run. -/
theorem sum_eq_length (count : Visit → Nat) (sum : List Visit → Nat) (hnil : sum [] = 0)
    (hcons : ∀ v rest, sum (v :: rest) = count v + sum rest)
    (h : visits.map count = runs.map List.length) : sum visits = runs.flatten.length := by
  induction visits generalizing runs with
  | nil =>
    obtain rfl := List.map_eq_nil_iff.1 h.symm
    exact hnil
  | cons v rest ih =>
    obtain ⟨run, others, rfl, hrun, hothers⟩ := List.map_eq_cons_iff.1 h.symm
    rw [hcons, ih hothers.symm, List.flatten_cons, List.length_append, hrun]

theorem total_generated (h : visits.map (fun v => v.nodes.length) = runs.map List.length) :
    (total visits).generated = runs.flatten.length :=
  sum_eq_length _ (fun visits => (total visits).generated) rfl (fun _ _ => rfl) h

theorem total_swept (h : visits.map swept = runs.map List.length) :
    (total visits).swept = runs.flatten.length :=
  sum_eq_length _ (fun visits => (total visits).swept) rfl (fun _ _ => rfl) h

end Visit

namespace Pass

variable {α : Type} {model : Value} {scope : Scope}

theorem visitAll_append (work : α → Pass (List Visit)) (l l' : List α) :
    visitAll work (l ++ l') = (do
      let visits ← visitAll work l
      let others ← visitAll work l'
      pure (visits ++ others)) := by
  induction l with
  | nil => simp [visitAll]
  | cons a rest ih =>
    simp only [List.cons_append, visitAll, ih, bind_assoc, pure_bind, List.append_assoc]

theorem visitAll_singleton (work : α → Pass (List Visit)) (a : α) : visitAll work [a] = work a := by
  simp [visitAll]

theorem sum_eq_map {work : α → Pass Counts} {telling : α → Pass (List Visit)}
    (h : ∀ a, work a = Visit.total <$> telling a) (l : List α) :
    sum work l = Visit.total <$> visitAll telling l := by
  induction l with
  | nil => simp [sum, visitAll, Visit.total]
  | cons a rest ih => simp [sum, visitAll, h, ih, Visit.total_append]

theorem renderAnchor_eq_map (parent anchor : NodeId) :
    renderAnchor parent anchor model scope =
      Visit.total <$> visitAnchor parent anchor model scope := by
  simp [renderAnchor, visitAnchor, Visit.total, Visit.counts, Counts.add, Counts.zero]

theorem renderChildren_eq_map (fuel : Nat) (parent : NodeId) :
    renderChildren model scope fuel parent =
      Visit.total <$> visitChildren model scope fuel parent := by
  induction fuel generalizing parent with
  | zero => simp [renderChildren, visitChildren, Visit.total]
  | succ fuel ih =>
    rw [renderChildren, visitChildren, map_bind]
    refine bind_congr fun stage => sum_eq_map (fun child => ?_) _
    rw [visitChild, map_bind]
    refine bind_congr fun stage => ?_
    dsimp only
    split
    · simp [Visit.total]
    · split
      · exact renderAnchor_eq_map parent child
      · rw [map_bind]
        exact bind_congr fun _ => ih child

/-- A rendering gives the totals of its visits. -/
theorem render_eq_map (root : NodeId) (model : Value) (scope : Scope) :
    render root model scope = Visit.total <$> visits root model scope := by
  rw [render, visits, map_bind]
  refine bind_congr fun _ => ?_
  rw [map_bind]
  exact bind_congr fun stage => renderChildren_eq_map _ root

end Pass
end LiveMarkup
