import LiveMarkup.Proofs.Document.Reachable

/-! Calls with addresses of nodes that are no longer there. They are refused and change nothing,
but for one: a node may be put before itself, whether it is there or not. -/
namespace LiveMarkup

namespace Operation

/-- The addresses that a call is given. -/
def addresses : Operation → List NodeId
  | createElement _ | createText _ => []
  | setAttribute id _ _ | removeAttribute id _ | setDirectText id _ | remove id | setNote id _ _ =>
    [id]
  | append parent child => [parent, child]
  | insertBefore parent child reference => [parent, child, reference]

/-- A node is to be put before itself. -/
def Idle (o : Operation) : Prop := ∃ parent child, o = insertBefore parent child child

end Operation

namespace Document

variable {d d' : Document} {id p c r x : NodeId} {o : Operation}

theorem setAttribute_of_dead (h : d.node? id = none) (name value : String) :
    d.setAttribute id name value = .error
      (if Markup.isAttributeName name then .unknownNode id else .invalidAttributeName name) := by
  cases hname : Markup.isAttributeName name <;> simp [Document.setAttribute, h, hname]

theorem removeAttribute_of_dead (h : d.node? id = none) (name : String) :
    d.removeAttribute id name = .error (.unknownNode id) := by
  simp [Document.removeAttribute, h]

theorem setNote_of_dead (h : d.node? id = none) (key value : String) :
    d.setNote id key value = .error (.unknownNode id) := by
  simp [Document.setNote, not_contains_iff.2 h]

/-- The root is never gone, so that what is gone is not refused as the root. -/
theorem Sound.remove_of_dead (hd : d.Sound) (h : d.node? id = none) :
    d.remove id = .error (.unknownNode id) := by
  simp [Document.remove, hd.ne_root h, not_contains_iff.2 h]

/-- The parent is looked up before the child. -/
theorem checkPlacement_of_dead (h : d.node? p = none ∨ d.node? c = none) :
    d.checkPlacement p c = .error (.unknownNode (if d.contains p then c else p)) := by
  cases hp : d.contains p with
  | false => simp [checkPlacement, hp]
  | true =>
    obtain ⟨n, hn⟩ := contains_iff.1 hp
    have hc : d.node? c = none := h.resolve_left (by simp [hn])
    simp [checkPlacement, hp, not_contains_iff.2 hc]

theorem append_of_dead (h : d.node? p = none ∨ d.node? c = none) :
    d.append p c = .error (.unknownNode (if d.contains p then c else p)) := by
  rw [Document.append, checkPlacement_of_dead h]
  rfl

theorem insertBefore_self (d : Document) (p c : NodeId) : d.insertBefore p c c = .ok d :=
  if_pos rfl

theorem insertBefore_of_ne (hne : c ≠ r) : d.insertBefore p c r =
    if d.parent? r ≠ some p then .error (.notAChild r p)
    else (do
      d.checkPlacement p c
      pure ((d.detach c).attach p c (placeBefore c r))) :=
  if_neg hne

/-- A node that has a parent is there, and so is the parent: only the child may be gone. -/
theorem Sound.insertBefore_of_dead (hd : d.Sound) (hne : c ≠ r)
    (h : ∃ x ∈ [p, c, r], d.node? x = none) :
    d.insertBefore p c r =
      .error (if d.parent? r = some p then .unknownNode c else .notAChild r p) := by
  rw [insertBefore_of_ne hne]
  by_cases hr : d.parent? r = some p
  · obtain ⟨hlive, hp⟩ := hd.contains_of_parent? hr
    have hc : d.node? c = none := by
      obtain ⟨x, hx, hdead⟩ := h
      rw [List.mem_cons, List.mem_cons, List.mem_singleton] at hx
      obtain rfl | rfl | rfl := hx
      · cases (not_contains_iff.2 hdead).symm.trans hp
      · exact hdead
      · cases (not_contains_iff.2 hdead).symm.trans hlive
    rw [if_neg (not_not_intro hr), if_pos hr, checkPlacement_of_dead (Or.inr hc), if_pos hp]
    rfl
  · rw [if_pos hr, if_neg hr]

/-- A node can be put before another one exactly where that is a child of the parent and the node
may hang there. -/
theorem Sound.insertBefore_isOk_iff (hd : d.Sound) : (∃ d', d.insertBefore p c r = .ok d') ↔
    c = r ∨ r ∈ d.children p ∧ d.contains c = true ∧ c ≠ .root ∧ ¬ d.Above c p := by
  by_cases hne : c = r
  · subst hne
    exact iff_of_true ⟨d, insertBefore_self d p c⟩ (Or.inl rfl)
  rw [insertBefore_of_ne hne, or_iff_right hne, hd.mem_children_iff]
  by_cases hr : d.parent? r = some p
  · have hp := (hd.contains_of_parent? hr).2
    have htext := hd.text?_eq_none_of_parent? hr
    rw [if_neg (not_not_intro hr)]
    refine hd.place_isOk_iff.trans ⟨fun h => ⟨hr, h.child, h.ne_root, h.apart⟩, ?_⟩
    rintro ⟨-, hc, hroot, hline⟩
    exact ⟨hp, hc, hroot, htext, hline⟩
  · rw [if_pos hr]
    exact iff_of_false (fun ⟨_, h⟩ => nomatch h) fun h => hr h.1

theorem run_apply_error {f : Document → Except TreeError Document} {e : TreeError}
    (h : f d = .error e) : Edit.apply f d = .error e d := by
  rw [Edit.apply, h]

theorem run_apply_eq_ok_iff {f : Document → Except TreeError Document} :
    Edit.apply f d = .ok ⟨⟩ d' ↔ f d = .ok d' :=
  ⟨Edit.apply_eq_ok, Edit.apply_of_eq_ok⟩

/-- A call that is given a node that is gone is refused, unless it is to put a node before
itself. -/
theorem Sound.exists_run_error (hd : d.Sound) (hx : x ∈ o.addresses) (hdead : d.node? x = none)
    (hidle : ¬ o.Idle) : ∃ e, o.run d = .error e d := by
  cases o with
  | createElement tag | createText content => cases hx
  | setAttribute id name value =>
    obtain rfl := List.mem_singleton.1 hx
    exact ⟨_, run_apply_error (f := (·.setAttribute x name value))
      (setAttribute_of_dead hdead name value)⟩
  | removeAttribute id name =>
    obtain rfl := List.mem_singleton.1 hx
    exact ⟨_, run_apply_error (f := (·.removeAttribute x name))
      (removeAttribute_of_dead hdead name)⟩
  | setDirectText id content =>
    obtain rfl := List.mem_singleton.1 hx
    exact ⟨_, setDirectText_of_dead hdead⟩
  | append parent child =>
    have h : d.node? parent = none ∨ d.node? child = none := by
      obtain rfl | hx := List.mem_cons.1 hx
      · exact Or.inl hdead
      · exact Or.inr (List.mem_singleton.1 hx ▸ hdead)
    exact ⟨_, run_apply_error (f := (·.append parent child)) (append_of_dead h)⟩
  | insertBefore parent child reference =>
    have hne : child ≠ reference := by
      rintro rfl
      exact hidle ⟨parent, child, rfl⟩
    exact ⟨_, run_apply_error (f := (·.insertBefore parent child reference))
      (hd.insertBefore_of_dead hne ⟨x, hx, hdead⟩)⟩
  | remove id =>
    obtain rfl := List.mem_singleton.1 hx
    exact ⟨_, run_apply_error (f := (·.remove x)) (hd.remove_of_dead hdead)⟩
  | setNote id key value =>
    obtain rfl := List.mem_singleton.1 hx
    exact ⟨_, run_apply_error (f := (·.setNote x key value)) (setNote_of_dead hdead key value)⟩

theorem run_of_idle (h : o.Idle) (d : Document) : o.run d = .ok ⟨⟩ d := by
  obtain ⟨p, c, rfl⟩ := h
  rw [Operation.run, Edit.apply, insertBefore_self]

/-- Of the calls with a node that is gone, those are refused, with nothing changed, that do not put
a node before itself; and a node is put before another one only among the children of the parent. -/
theorem Reachable.run_dead_iff (hd : d.Reachable) :
    (∀ o : Operation, (∃ x ∈ o.addresses, d.contains x = false) →
      ((∃ e, o.run d = .error e d) ↔ ¬ o.Idle) ∧ (o.Idle → o.run d = .ok ⟨⟩ d)) ∧
    ∀ p c r, (∃ d', (Operation.insertBefore p c r).run d = .ok ⟨⟩ d') ↔
      c = r ∨ r ∈ d.children p ∧ d.contains c = true ∧ c ≠ .root ∧ ¬ d.Above c p := by
  refine ⟨fun o ⟨x, hx, hdead⟩ => ⟨⟨?_, ?_⟩, fun hidle => run_of_idle hidle d⟩, fun p c r => ?_⟩
  · rintro ⟨e, he⟩ hidle
    cases he.symm.trans (run_of_idle hidle d)
  · exact hd.sound.exists_run_error hx (not_contains_iff.1 hdead)
  · rw [← hd.sound.insertBefore_isOk_iff]
    exact exists_congr fun d' => run_apply_eq_ok_iff (f := (·.insertBefore p c r))

/-- An element that was taken away again. -/
theorem run_dead_iff_removed :
    let d := Operation.performAll ⟨0⟩ [.createElement "a", .remove ⟨1, 0⟩]
    d.Reachable ∧ d.contains ⟨1, 0⟩ = false ∧
      ∃ e, (Operation.append .root ⟨1, 0⟩).run d = .error e d := by
  intro d
  have hd : d.Reachable := .of_derives (.empty ⟨0⟩) ⟨_, rfl⟩
  have hdead : d.contains ⟨1, 0⟩ = false := by decide
  have hmem : ⟨1, 0⟩ ∈ (Operation.append .root ⟨1, 0⟩).addresses := by decide
  refine ⟨hd, hdead, (hd.run_dead_iff.1 _ ⟨_, hmem, hdead⟩).1.2 ?_⟩
  rintro ⟨_, _, h⟩
  cases h

/-- The element that was taken away is put before itself under the root. -/
theorem not_run_dead_refused : ¬ ∀ (d : Document) (o : Operation), d.Reachable →
    (∃ x ∈ o.addresses, d.contains x = false) → ∃ e d', o.run d = .error e d' := fun h => by
  obtain ⟨e, d', he⟩ := h (Operation.performAll ⟨0⟩ [.createElement "a", .remove ⟨1, 0⟩])
    (.insertBefore .root ⟨1, 0⟩ ⟨1, 0⟩) (.of_derives (.empty ⟨0⟩) ⟨_, rfl⟩)
    ⟨⟨1, 0⟩, by decide, by decide⟩
  cases he.symm.trans (run_of_idle ⟨_, _, rfl⟩ _)

end Document
end LiveMarkup
