import LiveMarkup.Proofs.Document.Replaces

/-! Documents without loose nodes: all that is live hangs below the root, so the number of live nodes
is the size of what the document shows. -/
namespace LiveMarkup

theorem Tree.sizeAll_append (row others : List Tree) :
    sizeAll (row ++ others) = sizeAll row + sizeAll others := by
  induction row with
  | nil => simp [sizeAll]
  | cons tree row ih => simp [sizeAll, ih, Nat.add_assoc]

namespace Shape

variable {d : Document} {s : Shape} {q : NodeId} {kids : List Shape}

theorem InAll.sizeAll_treesAll_of_forall (hkids : InAll d (some q) kids)
    (h : ∀ c ∈ kids, c.In d (some q) → Tree.sizeAll c.trees = c.ids.length) :
    Tree.sizeAll (treesAll kids) = (idsAll kids).length := by
  induction kids with
  | nil => rfl
  | cons c kids ih =>
    rw [List.forall_mem_cons] at h
    rw [treesAll, Tree.sizeAll_append, idsAll, List.length_append, h.1 hkids.1, ih hkids.2 h.2]

/-- Below a node, what is shown has as many nodes as there are. -/
theorem In.sizeAll_trees (hd : d.Sound) (hs : s.In d (some q)) :
    Tree.sizeAll s.trees = s.ids.length := by
  induction s generalizing q with
  | mk id kind notes kids ih =>
    rw [ids, List.length_cons, ← hs.2.sizeAll_treesAll_of_forall fun c hc => ih c hc]
    cases kind with
    | root =>
      obtain rfl : id = .root := hd.valid hs.1
      cases hd.parent?_root.symm.trans hs.parent?
    | element tag attributes => simp [trees, Tree.sizeAll, Tree.size]
    | text content =>
      have hnone : kids.map Shape.id = [] := hd.valid hs.1
      obtain rfl := List.map_eq_nil_iff.1 hnone
      simp [trees, treesAll, Tree.sizeAll, Tree.size]

theorem InAll.sizeAll_treesAll (hd : d.Sound) (hkids : InAll d (some q) kids) :
    Tree.sizeAll (treesAll kids) = (idsAll kids).length :=
  hkids.sizeAll_treesAll_of_forall fun _ _ hc => hc.sizeAll_trees hd

end Shape

namespace Document

variable {d d' : Document} {x : NodeId} {s s' : Shape}

/-- Every live node can be reached from the root, from a node to a child of it at a time. -/
def Rooted (d : Document) : Prop :=
  ∀ x, d.contains x = true → Relation.ReflTransGen (fun p c => c ∈ d.children p) .root x

theorem Sound.rooted_iff (hd : d.Sound) :
    d.Rooted ↔ ∀ x, d.contains x = true → d.Above .root x := by
  have hlinks : (fun p c => c ∈ d.children p) = fun p c => d.parent? c = some p := by
    funext p c
    exact propext hd.mem_children_iff
  rw [Rooted, hlinks]
  rfl

/-- The live nodes are those of the root's shape. -/
theorem Sound.rooted_iff_ids (hd : d.Sound) {p : Option NodeId} (hs : s.In d p)
    (hroot : s.id = .root) : d.Rooted ↔ ∀ x, d.contains x = true → x ∈ s.ids := by
  rw [hd.rooted_iff]
  refine forall_congr' fun x => imp_congr_right fun _ => ?_
  rw [hd.mem_ids_iff hs, hroot]

/-- What takes the place of all that hangs below the root is all there is. -/
theorem Rooted.replaces (h : d.Rooted) (hd : d.Sound) (hd' : d'.Sound) (hs : s.In d none)
    (hs' : s'.In d' none) (hroot : s.id = .root) (hroot' : s'.id = .root)
    (hrep : d.Replaces d' s.ids s'.ids) : d'.Rooted := by
  refine (hd'.rooted_iff_ids hs' hroot').2 fun x hx => ?_
  by_contra hnew
  by_cases hold : x ∈ s.ids
  · have hgone := (hrep.gone x hold).resolve_left hnew
    rw [contains, hgone] at hx
    cases hx
  · rw [contains, hrep.same x hold hnew] at hx
    exact hold ((hd.rooted_iff_ids hs hroot).1 h x hx)

theorem Rooted.empty (tree : TreeId) : (empty tree).Rooted := by
  have hs : (⟨.root, .root, [], []⟩ : Shape).In (Document.empty tree) none := ⟨rfl, trivial⟩
  refine ((Sound.empty tree).rooted_iff_ids hs rfl).2 fun x hx => ?_
  obtain ⟨n, hn⟩ := contains_iff.1 hx
  rw [node?_empty, Option.ite_none_right_eq_some] at hn
  exact List.mem_singleton.2 hn.1

theorem nodeCount_eq_zero (h : ∀ x, d.contains x = false) : d.nodeCount = 0 := by
  refine Array.countP_eq_zero.2 fun a ha => ?_
  obtain ⟨i, hi, rfl⟩ := Array.mem_iff_getElem.1 ha
  intro hnode
  obtain ⟨n, hn⟩ := Option.isSome_iff_exists.1 hnode
  have hlive : d.contains ⟨i, d.slots[i].generation⟩ = true :=
    contains_iff.2 ⟨n, node?_eq_some_iff.2 ⟨_, Array.getElem?_eq_getElem hi, rfl, hn⟩⟩
  cases hlive.symm.trans (h _)

/-- The number of live nodes, from a list of them all. -/
theorem nodeCount_eq_length {l : List NodeId} (hnodup : l.Nodup)
    (hl : ∀ x, x ∈ l ↔ d.contains x = true) : d.nodeCount = l.length := by
  induction l generalizing d with
  | nil => exact nodeCount_eq_zero fun x => by simpa using hl x
  | cons x l ih =>
    obtain ⟨hx, hnodup⟩ := List.nodup_cons.1 hnodup
    obtain ⟨n, hn⟩ := contains_iff.1 ((hl x).1 (List.mem_cons_self ..))
    rw [List.length_cons, ← nodeCount_vacate hn, ih hnodup fun y => ?_]
    rw [contains, node?_vacate hn]
    split
    · next heq => simp [heq, hx]
    · next hne => rw [← contains, ← hl, List.mem_cons, or_iff_right hne]

/-- Without loose nodes, the live nodes are the root and those that are shown. -/
theorem Rooted.nodeCount_eq (h : d.Rooted) (hd : d.Sound) :
    d.nodeCount = Tree.sizeAll d.content + 1 := by
  obtain ⟨notes, kids, hs, hcontent⟩ := hd.exists_content
  rw [nodeCount_eq_length (hd.nodup_ids hs) fun x =>
    ⟨fun hx => hs.contains hx, (hd.rooted_iff_ids hs rfl).1 h x⟩, hcontent, Shape.ids,
    List.length_cons, Shape.InAll.sizeAll_treesAll hd hs.2]

end Document
end LiveMarkup
