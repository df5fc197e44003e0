import LiveMarkup.Proofs.Document.DirectText
import LiveMarkup.Proofs.Document.Walk

/-! The calls that change a document, as data. Whatever calls are made on a new document, failing
ones included, it stays sound; and a call that fails changes nothing, but for one. -/
namespace LiveMarkup

inductive Operation where
  | createElement (tag : String)
  | createText (content : String)
  | setAttribute (id : NodeId) (name value : String)
  | removeAttribute (id : NodeId) (name : String)
  | setDirectText (id : NodeId) (content : String)
  | append (parent child : NodeId)
  | insertBefore (parent child reference : NodeId)
  | remove (id : NodeId)
  | setNote (id : NodeId) (key value : String)

/-- The document after a row of edits, whether they succeed or not. -/
def Edit.after {α : Type} (work : Edit α) (d : Document) : Document :=
  match work d with
  | .ok _ d' => d'
  | .error _ d' => d'

theorem discard_create (f : Document → Except TreeError (NodeId × Document)) (d : Document) :
    (discard (Edit.create f) : Edit Unit) d = match f d with
      | .ok (_, d') => .ok ⟨⟩ d'
      | .error e => .error e d := by
  cases hf : f d <;>
    simp [discard, Functor.discard, Functor.mapConst, EStateM.map, Edit.create, hf]

namespace Operation

def run : Operation → Edit Unit
  | createElement tag => discard (Edit.create (·.createElement tag))
  | createText content => discard (Edit.create (·.createText content))
  | setAttribute id name value => Edit.apply (·.setAttribute id name value)
  | removeAttribute id name => Edit.apply (·.removeAttribute id name)
  | setDirectText id content => Document.setDirectText id content
  | append parent child => Edit.apply (·.append parent child)
  | insertBefore parent child reference => Edit.apply (·.insertBefore parent child reference)
  | remove id => Edit.apply (·.remove id)
  | setNote id key value => Edit.apply (·.setNote id key value)

/-- The document after a call, whether the call succeeds or not. -/
def perform (o : Operation) (d : Document) : Document := Edit.after o.run d

/-- The document that calls make of a new one. -/
def performAll (tree : TreeId) (ops : List Operation) : Document :=
  ops.foldl (fun d o => o.perform d) (Document.empty tree)

end Operation

namespace Document

variable {d d' : Document} {id x : NodeId} {o : Operation} {e : TreeError}

theorem Sound.after_apply {f : Document → Except TreeError Document} (hd : d.Sound)
    (h : ∀ d', f d = .ok d' → d'.Sound) : (Edit.after (Edit.apply f) d).Sound := by
  rw [Edit.after, Edit.apply]
  cases hf : f d with
  | ok d' => exact h d' hf
  | error e => exact hd

theorem Sound.after_create {f : Document → Except TreeError (NodeId × Document)} (hd : d.Sound)
    (h : ∀ id d', f d = .ok (id, d') → d'.Sound) :
    (Edit.after (discard (Edit.create f)) d).Sound := by
  rw [Edit.after, discard_create]
  cases hf : f d with
  | ok r => exact h r.1 r.2 hf
  | error e => exact hd

theorem Sound.after_setDirectText (hd : d.Sound) (id : NodeId) (content : String) :
    (Edit.after (Document.setDirectText id content) d).Sound := by
  rw [Edit.after]
  cases hid : d.node? id with
  | none =>
    rw [setDirectText_of_dead hid]
    exact hd
  | some n =>
    obtain ⟨⟨_, kind, notes, kids⟩, rfl, hs⟩ := hd.exists_shape (contains_iff.2 ⟨n, hid⟩)
    by_cases hkind : ∃ s, kind = .text s
    · obtain ⟨s, rfl⟩ := hkind
      rw [Shape.id_mk, hd.setDirectText_of_text hs]
      by_cases hcontent : content = ""
      · rwa [if_pos hcontent]
      · rw [if_neg hcontent]
        cases hmake : d.createText content with
        | ok r => exact hd.createText hmake
        | error e => exact hd
    · rw [not_exists] at hkind
      rcases hd.setDirectText hs hkind content with ⟨-, -, h⟩ | ⟨d', new, h, hsound, -⟩
      · rw [Shape.id_mk, h]
        exact hd
      · rw [Shape.id_mk, h]
        exact hsound

/-- No call breaks a sound document. -/
theorem Sound.perform (hd : d.Sound) (o : Operation) : (o.perform d).Sound := by
  cases o with
  | createElement tag => exact hd.after_create fun _ _ => hd.createElement
  | createText content => exact hd.after_create fun _ _ => hd.createText
  | setAttribute id name value => exact hd.after_apply fun _ => hd.setAttribute
  | removeAttribute id name => exact hd.after_apply fun _ => hd.removeAttribute
  | setDirectText id content => exact hd.after_setDirectText id content
  | append parent child => exact hd.after_apply fun _ => hd.append
  | insertBefore parent child reference => exact hd.after_apply fun _ => hd.insertBefore
  | remove id => exact hd.after_apply fun _ => hd.remove_ok
  | setNote id key value => exact hd.after_apply fun _ => hd.setNote

theorem Sound.performAll (tree : TreeId) (ops : List Operation) :
    (Operation.performAll tree ops).Sound := by
  rw [Operation.performAll]
  suffices ∀ d : Document, d.Sound → (ops.foldl (fun d o => o.perform d) d).Sound from
    this _ (Sound.empty tree)
  induction ops with
  | nil => exact fun d hd => hd
  | cons o ops ih => exact fun d hd => ih _ (hd.perform o)

/-- After any calls: the root stands in the first slot on top of everything; the links of parents
and children agree and lead upwards to a node without parent in finitely many steps, so that walks
downwards, the search for an id and the reading of trees end, too; texts have no children; the free
list names the vacant slots; names are valid and distinct. -/
theorem performAll_well_linked (tree : TreeId) (ops : List Operation) :
    let d := Operation.performAll tree ops
    (∃ n, d.slots[0]? = some ⟨0, some n⟩ ∧ n.kind = .root ∧ n.parent = none) ∧
    (∀ p, (∀ c, c ∈ d.children p ↔
      d.contains p = true ∧ d.contains c = true ∧ d.parent? c = some p) ∧ (d.children p).Nodup) ∧
    ((∀ x, d.contains x = true →
        (∃ top ∈ d.lineage d.slots.size x, d.contains top = true ∧ d.parent? top = none) ∧
        d.walk^[d.slots.size] [x] = []) ∧
      (∀ id fuel, d.slots.size < fuel → d.searchById id fuel [.root] = d.elementById? id) ∧
      ∀ x n, d.node? x = some n → d.trees x = match n.kind with
        | .root => n.children.flatMap d.trees
        | .element tag attributes => [.element tag attributes (n.children.flatMap d.trees)]
        | .text content => [.text content]) ∧
    (∀ x content, d.text? x = some content → d.children x = []) ∧
    (d.free.Nodup ∧ ∀ i, i ∈ d.free ↔ ∃ s, d.slots[i]? = some s ∧ s.node = none) ∧
    ∀ x n tag attributes, d.node? x = some n → n.kind = .element tag attributes →
      Markup.isTagName tag = true ∧ (Entries.keys attributes).Nodup ∧
        ∀ name ∈ Entries.keys attributes, Markup.isAttributeName name = true := by
  intro d
  have hd : d.Sound := Sound.performAll tree ops
  refine ⟨?_, fun p => ⟨fun c => ?_, ?_⟩,
    ⟨fun x hx => ⟨hd.exists_top hx, hd.walk_iterate_eq_nil hx⟩, fun id fuel hfuel => ?_,
      fun x n => hd.trees_of_node?⟩, fun x content hx => ?_,
    ⟨hd.accounted.nodup, hd.accounted.mem_iff⟩, fun x n tag attributes hn hkind => ?_⟩
  · obtain ⟨n, hn, hkind, hparent⟩ := hd.root
    obtain ⟨⟨generation, node⟩, hs, hgeneration, hnode⟩ := node?_eq_some_iff.1 hn
    obtain rfl : generation = 0 := hgeneration
    obtain rfl : node = some n := hnode
    exact ⟨n, hs, hkind, hparent⟩
  · rw [hd.mem_children_iff]
    refine ⟨fun h => ?_, fun h => h.2.2⟩
    obtain ⟨hc, hp⟩ := hd.contains_of_parent? h
    exact ⟨hp, hc, h⟩
  · cases hp : d.node? p with
    | none => simp [children, hp]
    | some n =>
      rw [children_of_node? hp]
      exact hd.nodup hp
  · exact searchById_of_walk id (hd.walk_iterate_eq_nil hd.contains_root) hfuel
  · rw [text?, Option.bind_eq_some_iff] at hx
    obtain ⟨n, hn, htext⟩ := hx
    rw [children_of_node? hn]
    have hvalid := hd.valid hn
    split at htext
    · next s hs => rwa [Node.Valid, hs] at hvalid
    · cases htext
  · have hvalid := hd.valid hn
    rwa [Node.Valid, hkind] at hvalid

/-- A text is to get a text of its own, and there is a slot for it. -/
def Leaks (d : Document) : Operation → Prop
  | .setDirectText id content => content ≠ "" ∧ (d.text? id).isSome = true ∧ d.HasRoom
  | _ => False

theorem apply_error {f : Document → Except TreeError Document}
    (h : Edit.apply f d = .error e d') : d' = d := by
  rw [Edit.apply] at h
  split at h
  · cases h
  · cases h
    rfl

theorem create_error {f : Document → Except TreeError (NodeId × Document)}
    (h : (discard (Edit.create f) : Edit Unit) d = .error e d') : d' = d := by
  rw [discard_create] at h
  split at h
  · cases h
  · cases h
    rfl

/-- How the replacement of a direct text fails: with nothing done, or with the new text made. -/
theorem Sound.setDirectText_error (hd : d.Sound) {content : String}
    (h : Document.setDirectText id content d = .error e d') :
    ¬ d.Leaks (.setDirectText id content) ∧ d' = d ∨
    d.Leaks (.setDirectText id content) ∧ e = .childOfText ∧
      ∃ t, d.createText content = .ok (t, d') := by
  cases hid : d.node? id with
  | none =>
    rw [setDirectText_of_dead hid] at h
    cases h
    exact Or.inl ⟨fun hleak => by simp [Leaks, text?, hid] at hleak, rfl⟩
  | some n =>
    obtain ⟨⟨_, kind, notes, kids⟩, rfl, hs⟩ := hd.exists_shape (contains_iff.2 ⟨n, hid⟩)
    by_cases hkind : ∃ s, kind = .text s
    · obtain ⟨s, rfl⟩ := hkind
      rw [Shape.id_mk, hd.setDirectText_of_text hs] at h
      by_cases hcontent : content = ""
      · rw [if_pos hcontent] at h
        cases h
      · rw [if_neg hcontent] at h
        cases hmake : d.createText content with
        | ok r =>
          rw [hmake] at h
          cases h
          refine Or.inr ⟨⟨hcontent, by simp [text?, hs.1], ?_⟩, rfl, r.1, rfl⟩
          by_contra hroom
          rw [Document.createText, allocate_of_no_room hd.accounted hroom] at hmake
          cases hmake
        | error e =>
          rw [hmake] at h
          cases h
          exact Or.inl
            ⟨fun hleak => ((allocate_error_iff hd.accounted _ _).1 hmake).2 hleak.2.2, rfl⟩
    · rw [not_exists] at hkind
      refine Or.inl ⟨fun hleak => ?_, ?_⟩
      · have htext := text?_eq_none_of_kind hs.1 hkind
        have hsome := hleak.2.1
        rw [Shape.id_mk] at hsome
        rw [htext] at hsome
        cases hsome
      · rcases hd.setDirectText hs hkind content with ⟨-, -, h'⟩ | ⟨d'', new, h', -⟩
        · rw [Shape.id_mk, h'] at h
          cases h
          rfl
        · rw [Shape.id_mk, h'] at h
          cases h

theorem Sound.run_error (hd : d.Sound) (h : o.run d = .error e d') : ¬ d.Leaks o ∧ d' = d ∨
    d.Leaks o ∧ e = .childOfText ∧ ∃ t content, d.createText content = .ok (t, d') := by
  cases o with
  | createElement tag => exact Or.inl ⟨not_false, create_error h⟩
  | createText content => exact Or.inl ⟨not_false, create_error h⟩
  | setAttribute id name value =>
    exact Or.inl ⟨not_false, apply_error (f := (·.setAttribute id name value)) h⟩
  | removeAttribute id name =>
    exact Or.inl ⟨not_false, apply_error (f := (·.removeAttribute id name)) h⟩
  | setDirectText id content =>
    refine (hd.setDirectText_error h).imp_right fun ⟨hleak, he, t, hmake⟩ => ?_
    exact ⟨hleak, he, t, content, hmake⟩
  | append parent child =>
    exact Or.inl ⟨not_false, apply_error (f := (·.append parent child)) h⟩
  | insertBefore parent child reference =>
    exact Or.inl ⟨not_false, apply_error (f := (·.insertBefore parent child reference)) h⟩
  | remove id =>
    exact Or.inl ⟨not_false, apply_error (f := (·.remove id)) h⟩
  | setNote id key value =>
    exact Or.inl ⟨not_false, apply_error (f := (·.setNote id key value)) h⟩

/-- A call that fails leaves everything as it was, but for a text that is to get a text of its own:
then one more text is left behind, which hangs nowhere. -/
theorem performAll_failed_iff (tree : TreeId) (ops : List Operation) (o : Operation)
    (e : TreeError) (d' : Document) (h : o.run (Operation.performAll tree ops) = .error e d') :
    (d' = Operation.performAll tree ops ↔ ¬ (Operation.performAll tree ops).Leaks o) ∧
    ((Operation.performAll tree ops).Leaks o → e = .childOfText ∧
      d'.nodeCount = (Operation.performAll tree ops).nodeCount + 1 ∧
      ∃ t content, d'.node? t = some (.detached (.text content)) ∧
        ∀ x, x ≠ t → d'.node? x = (Operation.performAll tree ops).node? x) := by
  have hd : (Operation.performAll tree ops).Sound := Sound.performAll tree ops
  rcases hd.run_error h with ⟨hleak, hsame⟩ | ⟨hleak, he, t, content, hmake⟩
  · exact ⟨iff_of_true hsame hleak, fun h => absurd h hleak⟩
  · have hcount := nodeCount_allocate hd.accounted hmake
    obtain ⟨-, hnode⟩ := node?_allocate hd.accounted hmake
    refine ⟨iff_of_false (fun hsame => ?_) (not_not_intro hleak), fun _ => ⟨he, hcount, t, content,
      by rw [hnode, if_pos rfl], fun x hx => by rw [hnode, if_neg hx]⟩⟩
    rw [hsame] at hcount
    omega

/-- A text that is to get a text of its own. -/
theorem performAll_failed_iff_text :
    let d := Operation.performAll ⟨0⟩ [.createText "x"]
    let o := Operation.setDirectText ⟨1, 0⟩ "y"
    o.run d = .error .childOfText (o.perform d) ∧ d.Leaks o ∧ o.perform d ≠ d ∧
      (o.perform d).nodeCount = d.nodeCount + 1 := by
  intro d o
  have herror : o.run d = .error .childOfText (o.perform d) := rfl
  have hleak : d.Leaks o := ⟨by decide, by decide, Or.inr (by decide)⟩
  obtain ⟨hiff, hleft⟩ := performAll_failed_iff ⟨0⟩ [.createText "x"] o .childOfText (o.perform d)
    herror
  exact ⟨herror, hleak, fun hsame => hiff.1 hsame hleak, (hleft hleak).2.1⟩

theorem not_failed_unchanged : ¬ ∀ (tree : TreeId) (ops : List Operation) (o : Operation)
    (e : TreeError) (d' : Document), o.run (Operation.performAll tree ops) = .error e d' →
      d' = Operation.performAll tree ops := fun h =>
  absurd (h ⟨0⟩ [.createText "x"] (.setDirectText ⟨1, 0⟩ "y") .childOfText _ rfl) (by decide)

end Document
end LiveMarkup
