import Mathlib.Logic.Function.Iterate
import LiveMarkup.Proofs.Document.Shape

/-! Walks downwards in a sound document end. A walk that goes through a worklist takes every live
node at most once, so the bounds of the search for an id and of the reading of trees never cut
anything off. -/
namespace LiveMarkup.Document

variable {d : Document} {x : NodeId} {p : Option NodeId} {s : Shape} {ss : List Shape} {n : Node}
  {id : String} {stack passed : List NodeId} {result : Option NodeId}

/-- One step through a worklist: the address in front makes way for its children. -/
def walk (d : Document) : List NodeId → List NodeId
  | [] => []
  | id :: rest => d.children id ++ rest

/-- A worklist of shapes is exhausted when each of their nodes has been in front once. -/
theorem walk_iterate_eq_nil (hss : ∀ s ∈ ss, ∃ p, s.In d p) :
    d.walk^[(Shape.idsAll ss).length] (ss.map Shape.id) = [] := by
  obtain ⟨size, hsize⟩ : ∃ size, (Shape.idsAll ss).length = size := ⟨_, rfl⟩
  induction size generalizing ss with
  | zero =>
    cases ss with
    | nil => rfl
    | cons s ss =>
      obtain ⟨id, kind, notes, kids⟩ := s
      simp [Shape.idsAll, Shape.ids] at hsize
  | succ size ih =>
    rcases ss with _ | ⟨⟨id, kind, notes, kids⟩, ss⟩
    · cases hsize
    obtain ⟨p, hs⟩ := hss _ (List.mem_cons_self ..)
    have hlength : (Shape.idsAll (kids ++ ss)).length = size := by
      simp only [Shape.idsAll, Shape.ids, List.length_append, List.length_cons] at hsize
      simp only [Shape.idsAll_append, List.length_append]
      omega
    have hrest : ∀ t ∈ kids ++ ss, ∃ p, t.In d p := fun t ht =>
      hs.exists_in_of_mem (List.forall_mem_cons.1 hss).2 (List.mem_append.1 ht)
    have hstep : d.walk ((⟨id, kind, notes, kids⟩ :: ss : List Shape).map Shape.id) =
        (kids ++ ss).map Shape.id := by
      rw [List.map_cons, walk, Shape.id_mk, children_of_node? hs.1, List.map_append]
    have hih := ih hrest hlength
    rw [hlength] at hih
    rw [hsize, Function.iterate_succ_apply, hstep, hih]

theorem walk_iterate_nil (d : Document) (k : Nat) : d.walk^[k] [] = [] :=
  Function.iterate_fixed rfl k

/-- The walk below a live node ends within the number of slots. -/
theorem Sound.walk_iterate_eq_nil (hd : d.Sound) (hx : d.contains x = true) :
    d.walk^[d.slots.size] [x] = [] := by
  obtain ⟨s, rfl, hs⟩ := hd.exists_shape hx
  have hend := Document.walk_iterate_eq_nil (d := d) (List.forall_mem_singleton.2 ⟨_, hs⟩)
  rw [Shape.idsAll_singleton] at hend
  have hle : s.ids.length ≤ d.slots.size :=
    length_le_size_of_nodup (hd.nodup_ids hs) fun _ hmem => hs.contains hmem
  rw [← Nat.sub_add_cancel hle, Function.iterate_add_apply]
  exact (congrArg _ hend).trans (walk_iterate_nil d _)

/-- A search that comes to its end, from a stack with its top at the right: the addresses that it
takes and passes, in order, and the one that it gives. -/
inductive Searches (d : Document) (id : String) :
    (stack passed : List NodeId) → Option NodeId → Prop
  | exhausted : Searches d id [] [] none
  | found {stack : List NodeId} {x : NodeId} (hx : d.attribute? x "id" = some id) :
      Searches d id (stack ++ [x]) [] (some x)
  | pass {stack passed : List NodeId} {x : NodeId} {result : Option NodeId}
      (hx : d.attribute? x "id" ≠ some id)
      (h : Searches d id (stack ++ (d.children x).reverse) passed result) :
      Searches d id (stack ++ [x]) (x :: passed) result

/-- With fuel for all that is passed, the search gives what it comes to. -/
theorem Searches.searchById_eq (h : d.Searches id stack passed result) {fuel : Nat}
    (hfuel : passed.length < fuel) : d.searchById id fuel stack.reverse = result := by
  induction h generalizing fuel with
  | exhausted =>
    obtain ⟨fuel, rfl⟩ := Nat.exists_eq_add_one.2 hfuel
    rfl
  | found hx =>
    obtain ⟨fuel, rfl⟩ := Nat.exists_eq_add_one.2 (Nat.lt_of_le_of_lt (Nat.zero_le _) hfuel)
    rw [List.reverse_concat, searchById, if_pos hx]
  | pass hx _ ih =>
    obtain ⟨fuel, rfl⟩ := Nat.exists_eq_add_one.2 (Nat.lt_of_le_of_lt (Nat.zero_le _) hfuel)
    rw [List.reverse_concat, searchById, if_neg hx, ← ih (Nat.lt_of_succ_lt_succ hfuel),
      List.reverse_append, List.reverse_reverse]

/-- A search comes to its end when the walk through its worklist does, at the latest. -/
theorem exists_searches (id : String) {k : Nat} (h : d.walk^[k] stack.reverse = []) :
    ∃ passed result, d.Searches id stack passed result ∧ passed.length ≤ k := by
  induction k generalizing stack with
  | zero =>
    obtain rfl := List.reverse_eq_nil_iff.1 h
    exact ⟨[], none, .exhausted, Nat.le_refl _⟩
  | succ k ih =>
    rcases stack.eq_nil_or_concat' with rfl | ⟨stack, x, rfl⟩
    · exact ⟨[], none, .exhausted, Nat.zero_le _⟩
    · by_cases hx : d.attribute? x "id" = some id
      · exact ⟨[], some x, .found hx, Nat.zero_le _⟩
      · rw [Function.iterate_succ_apply, List.reverse_concat, walk] at h
        have hnext : d.walk^[k] (stack ++ (d.children x).reverse).reverse = [] := by simpa using h
        obtain ⟨passed, result, hsearch, hlength⟩ := ih hnext
        exact ⟨x :: passed, result, .pass hx hsearch, Nat.succ_le_succ hlength⟩

/-- Past the end of its walk, a search does not depend on the bound. -/
theorem searchById_of_walk (id : String) {k : Nat} {work : List NodeId}
    (h : d.walk^[k] work = []) {fuel : Nat} (hfuel : k < fuel) :
    d.searchById id fuel work = d.searchById id (k + 1) work := by
  rw [← work.reverse_reverse] at h ⊢
  obtain ⟨passed, result, hsearch, hlength⟩ := exists_searches id h
  exact (hsearch.searchById_eq (Nat.lt_of_le_of_lt hlength hfuel)).trans
    (hsearch.searchById_eq (Nat.lt_succ_of_le hlength)).symm

/-- What a live node shows, told through what its children show. -/
theorem Sound.trees_of_node? (hd : d.Sound) (hn : d.node? x = some n) :
    d.trees x = match n.kind with
      | .root => n.children.flatMap d.trees
      | .element tag attributes => [.element tag attributes (n.children.flatMap d.trees)]
      | .text content => [.text content] := by
  obtain ⟨s, rfl, hs⟩ := hd.exists_shape (contains_iff.2 ⟨n, hn⟩)
  obtain ⟨id, kind, notes, kids⟩ := s
  have hnode := hn.symm.trans hs.1
  cases hnode
  have hinner : (kids.map Shape.id).flatMap d.trees = Shape.treesAll kids := by
    rw [Shape.treesAll_eq_flatMap, List.flatMap_map]
    exact List.flatMap_congr fun c hc => hd.trees_eq (Shape.inAll_iff.1 hs.2 c hc)
  rw [hd.trees_eq hs, hinner]
  cases kind <;> rfl

end LiveMarkup.Document
