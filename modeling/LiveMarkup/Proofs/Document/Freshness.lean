import LiveMarkup.Proofs.Document.Ages

/-! Addresses are given out once. Along a run of calls, as long as no slot goes through a whole round
of generations, a new node gets an address that has never been heard of, and the address of a node
that is gone leads nowhere for the rest of the run. -/
namespace LiveMarkup

namespace Operation

/-- The address that a call answers with: that of the node it makes. -/
def made (o : Operation) (d : Document) : Option NodeId :=
  match o with
  | createElement tag => (d.createElement tag).toOption.map Prod.fst
  | createText content => (d.createText content).toOption.map Prod.fst
  | _ => none

/-- The document after the first so many of the calls. -/
def afterFirst (d : Document) (ops : List Operation) (count : Nat) : Document :=
  performFrom d (ops.take count)

variable {d : Document} {ops : List Operation} {o : Operation} {i j k : Nat}

theorem performFrom_append (d : Document) (ops ops' : List Operation) :
    performFrom d (ops ++ ops') = performFrom (performFrom d ops) ops' := List.foldl_append

theorem afterFirst_succ (h : ops[k]? = some o) :
    afterFirst d ops (k + 1) = o.perform (afterFirst d ops k) := by
  rw [afterFirst, List.take_add_one, h, Option.toList_some, performFrom_append]
  rfl

/-- From one moment to a later one. -/
theorem exists_between (ops : List Operation) (h : i ≤ j) :
    ∃ between, ops.take j = ops.take i ++ between := by
  obtain ⟨count, rfl⟩ := Nat.exists_eq_add_of_le h
  exact ⟨_, List.take_add⟩

end Operation

namespace Document

variable {d d' : Document} {id x : NodeId} {o : Operation} {ops ops' : List Operation}

/-- The addresses that questions to a document are answered with. -/
inductive Told (d : Document) : NodeId → Prop
  | root : Told d .root
  | parent {x p : NodeId} (h : d.parent? x = some p) : Told d p
  | previousSibling {x y : NodeId} (h : d.previousSibling? x = some y) : Told d y
  | child {x c : NodeId} (h : c ∈ d.children x) : Told d c
  | childElement {x c : NodeId} (h : c ∈ d.childElements x) : Told d c
  | byId {id : String} {x : NodeId} (h : d.elementById? id = some x) : Told d x

/-- An address to which there is nothing to say: no question about it finds anything, and no
question has it for an answer. -/
structure Unknown (d : Document) (x : NodeId) : Prop where
  contains : d.contains x = false
  tagName? : d.tagName? x = none
  text? : d.text? x = none
  attributes : d.attributes x = []
  attribute? : ∀ name, d.attribute? x name = none
  note? : ∀ key, d.note? x key = none
  parent? : d.parent? x = none
  previousSibling? : d.previousSibling? x = none
  children : d.children x = []
  childElements : d.childElements x = []
  directText : d.directText x = ""
  serialize : d.serialize x = ""
  serializeChildren : d.serializeChildren x = ""
  not_told : ¬ d.Told x

theorem searchById_contains {id : String} {fuel : Nat} {work : List NodeId}
    (h : d.searchById id fuel work = some x) : d.contains x = true := by
  induction fuel generalizing work with
  | zero => cases h
  | succ fuel ih =>
    cases work with
    | nil => cases h
    | cons y rest =>
      rw [searchById] at h
      split at h
      · next hy =>
        cases h
        by_contra hdead
        rw [contains, Option.not_isSome_iff_eq_none] at hdead
        simp [attribute?, attributes, hdead, Entries.get?] at hy
      · exact ih h

/-- Questions are answered with live nodes. -/
theorem Sound.contains_of_told (hd : d.Sound) (h : d.Told x) : d.contains x = true := by
  have hchild : ∀ {p c}, c ∈ d.children p → d.contains c = true := fun hc =>
    (hd.contains_of_parent? (hd.mem_children_iff.1 hc)).1
  cases h with
  | root => exact hd.contains_root
  | parent h => exact (hd.contains_of_parent? h).2
  | previousSibling h =>
    have hmem := List.mem_of_getLast? h
    rw [precedingSiblings] at hmem
    split at hmem
    · cases hmem
    · split at hmem
      · exact hchild ((List.takeWhile_sublist _).mem hmem)
      · cases hmem
  | child h => exact hchild h
  | childElement h => exact hchild (List.mem_of_mem_filter h)
  | byId h => exact searchById_contains h

theorem Sound.unknown (hd : d.Sound) (hx : d.contains x = false) : d.Unknown x := by
  have hnone := not_contains_iff.1 hx
  have hparent : d.parent? x = none := by rw [parent?, hnone, Option.bind_none]
  have hattributes : d.attributes x = [] := by rw [attributes, hnone]
  have hchildren : d.children x = [] := by rw [children, hnone]
  have htrees : d.trees x = [] := by
    rw [trees]
    cases d.slots.size with
    | zero => rfl
    | succ fuel => rw [treesAt, hnone]
  exact {
    contains := hx
    tagName? := by rw [tagName?, hnone, Option.bind_none]
    text? := by rw [text?, hnone, Option.bind_none]
    attributes := hattributes
    attribute? := fun name => by rw [attribute?, hattributes]; rfl
    note? := fun key => by rw [note?, hnone, Option.bind_none]
    parent? := hparent
    previousSibling? := by rw [previousSibling?, precedingSiblings, hparent]; rfl
    children := hchildren
    childElements := by rw [childElements, hchildren]; rfl
    directText := by rw [directText, hchildren]; rfl
    serialize := by rw [serialize, htrees]; rfl
    serializeChildren := by rw [serializeChildren, hchildren]; rfl
    not_told := fun htold => by rw [hd.contains_of_told htold] at hx; cases hx }

/-- A new node comes to an address that found nothing. -/
theorem Sound.contains_of_made (hd : d.Sound) (h : o.made d = some x) :
    d.contains x = false ∧ (o.perform d).contains x = true := by
  have hok : ∀ {result : Except TreeError (NodeId × Document)},
      result.toOption.map Prod.fst = some x → ∃ d', result = .ok (x, d') := by
    rintro (e | ⟨y, d'⟩) h
    · cases h
    · cases h
      exact ⟨d', rfl⟩
  obtain ⟨kind, d', hmake, hafter⟩ :
      ∃ kind d', d.allocate kind = .ok (x, d') ∧ o.perform d = d' := by
    cases o with
    | createElement tag =>
      obtain ⟨d', hmake⟩ := hok h
      have hafter : (Operation.createElement tag).perform d = d' := by
        rw [Operation.perform, Edit.after, Operation.run, discard_create, hmake]
      rw [Document.createElement] at hmake
      split at hmake
      · exact ⟨_, d', hmake, hafter⟩
      · cases hmake
    | createText content =>
      obtain ⟨d', hmake⟩ := hok h
      refine ⟨_, d', hmake, ?_⟩
      rw [Operation.perform, Edit.after, Operation.run, discard_create, hmake]
    | _ => cases h
  obtain ⟨hnone, hnode⟩ := node?_allocate hd.accounted hmake
  refine ⟨not_contains_iff.2 hnone, ?_⟩
  rw [hafter, contains, hnode, if_pos rfl]
  rfl

/-- What is gone stays away for as long as its slot has not gone through all generations. -/
theorem contains_performFrom_append_eq_false (hx : d.contains x = true)
    (hgone : (Operation.performFrom d ops).contains x = false)
    (hround : Operation.releasesAll x.slot (ops ++ ops') d < 2 ^ 32) :
    (Operation.performFrom d (ops ++ ops')).contains x = false := by
  have haged := (Aged.of_contains hx).performFrom ops
  have hpos : 0 < Operation.releasesAll x.slot ops d := by
    by_contra hzero
    obtain ⟨a, -, -, hstill⟩ := haged
    rw [hstill (by omega)] at hgone
    cases hgone
  rw [Operation.releasesAll_append] at hround
  rw [Operation.performFrom_append]
  exact (haged.performFrom ops').contains_eq_false (by omega) (by omega)

/-- Along calls that release no slot as often as there are generations: the address of a new node
was never that of a live node before, no question was ever answered with it, and no call was; and
the address of a node that is gone is unknown from then on. -/
theorem addresses_given_once (hd : d.Reachable) (ops : List Operation)
    (hrounds : ∀ slot, Operation.releasesAll slot ops d < 2 ^ 32) :
    (∀ k o x, ops[k]? = some o → o.made (Operation.afterFirst d ops k) = some x →
      (Operation.afterFirst d ops (k + 1)).contains x = true ∧
      (∀ i ≤ k, (Operation.afterFirst d ops i).Unknown x) ∧
      ∀ i < k, ∀ o', ops[i]? = some o' → o'.made (Operation.afterFirst d ops i) ≠ some x) ∧
    ∀ i j k x, i ≤ j → j ≤ k → (Operation.afterFirst d ops i).contains x = true →
      (Operation.afterFirst d ops j).contains x = false →
      (Operation.afterFirst d ops k).Unknown x := by
  have hsound : ∀ k, (Operation.afterFirst d ops k).Sound := fun k =>
    (hd.of_derives ⟨_, rfl⟩).sound
  have hgone : ∀ {i j k x}, i ≤ j → j ≤ k → (Operation.afterFirst d ops i).contains x = true →
      (Operation.afterFirst d ops j).contains x = false →
      (Operation.afterFirst d ops k).contains x = false := by
    intro i j k x hij hjk hi hj
    obtain ⟨between, hbetween⟩ := Operation.exists_between ops hij
    obtain ⟨after, hafter⟩ := Operation.exists_between ops hjk
    rw [Operation.afterFirst, hbetween, Operation.performFrom_append] at hj
    rw [Operation.afterFirst, hafter, hbetween, List.append_assoc, Operation.performFrom_append]
    refine contains_performFrom_append_eq_false hi hj (lt_of_le_of_lt ?_ (hrounds x.slot))
    have hsplit : ops = ops.take i ++ (between ++ after) ++ ops.drop k := by
      rw [← List.append_assoc, ← hbetween, ← hafter, List.take_append_drop]
    conv_rhs => rw [hsplit, Operation.releasesAll_append, Operation.releasesAll_append]
    omega
  refine ⟨fun k o x ho hmade => ?_, fun i j k x hij hjk hi hj =>
    (hsound k).unknown (hgone hij hjk hi hj)⟩
  obtain ⟨hbefore, hnow⟩ := (hsound k).contains_of_made hmade
  rw [← Operation.afterFirst_succ ho] at hnow
  have hnever : ∀ i ≤ k, (Operation.afterFirst d ops i).contains x = false := by
    intro i hi
    by_contra hlive
    have hlost := hgone hi (Nat.le_succ k) (Bool.not_eq_false _ ▸ hlive) hbefore
    rw [hnow] at hlost
    cases hlost
  refine ⟨hnow, fun i hi => (hsound i).unknown (hnever i hi), fun i hi o' ho' hmade' => ?_⟩
  have hlive := ((hsound i).contains_of_made hmade').2
  rw [← Operation.afterFirst_succ ho', hnever (i + 1) hi] at hlive
  cases hlive

/-- A text is made in the slot of another one that is gone. -/
theorem addresses_given_once_reused_slot :
    let d := Document.empty ⟨0⟩
    let ops : List Operation := [.createText "a", .remove ⟨1, 0⟩, .createText "b"]
    (Operation.createText "b").made (Operation.afterFirst d ops 2) = some ⟨1, 1⟩ ∧
    (Operation.createText "a").made (Operation.afterFirst d ops 0) ≠ some ⟨1, 1⟩ ∧
    (Operation.afterFirst d ops 3).contains ⟨1, 1⟩ = true ∧
    (Operation.afterFirst d ops 3).Unknown ⟨1, 0⟩ := by
  intro d ops
  obtain ⟨hnew, hold⟩ := addresses_given_once (.empty ⟨0⟩) ops fun slot =>
    lt_of_le_of_lt (Operation.releasesAll_le slot ops d) (by decide)
  have hmade : (Operation.createText "b").made (Operation.afterFirst d ops 2) = some ⟨1, 1⟩ := by
    decide
  obtain ⟨hlive, -, hfirst⟩ := hnew 2 _ _ rfl hmade
  exact ⟨hmade, hfirst 0 (by decide) _ rfl, hlive,
    hold 1 2 3 ⟨1, 0⟩ (by decide) (by decide) (by decide) (by decide)⟩

end Document

end LiveMarkup
