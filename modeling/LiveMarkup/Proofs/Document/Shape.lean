import LiveMarkup.Tree
import LiveMarkup.Proofs.Document.Lineage

/-! Shapes: nodes with their addresses, their notes and all that hangs below them. In a sound
document every live node has a shape, its addresses are what the node is above of, and shapes that
hang from one parent share no address. -/
namespace LiveMarkup

inductive Shape where
  | mk (id : NodeId) (kind : NodeKind) (notes : List (String × String)) (children : List Shape)

namespace Shape

def id : Shape → NodeId
  | ⟨id, _, _, _⟩ => id

mutual

/-- The addresses in document order. -/
def ids : Shape → List NodeId
  | ⟨id, _, _, children⟩ => id :: idsAll children

def idsAll : List Shape → List NodeId
  | [] => []
  | s :: rest => s.ids ++ idsAll rest

end

mutual

/-- What a shape stands for without addresses and notes. -/
def trees : Shape → List Tree
  | ⟨_, .root, _, children⟩ => treesAll children
  | ⟨_, .element tag attributes, _, children⟩ => [.element tag attributes (treesAll children)]
  | ⟨_, .text content, _, _⟩ => [.text content]

def treesAll : List Shape → List Tree
  | [] => []
  | s :: rest => s.trees ++ treesAll rest

end

mutual

/-- A document holds a shape under a parent. -/
def In (d : Document) (parent : Option NodeId) : Shape → Prop
  | ⟨id, kind, notes, children⟩ =>
    d.node? id = some ⟨kind, parent, children.map Shape.id, notes⟩ ∧ InAll d (some id) children

def InAll (d : Document) (parent : Option NodeId) : List Shape → Prop
  | [] => True
  | s :: rest => s.In d parent ∧ InAll d parent rest

end

variable {d d' : Document} {p : Option NodeId} {s : Shape} {ss ts : List Shape} {x : NodeId}

@[simp] theorem id_mk (id : NodeId) (kind : NodeKind) (notes : List (String × String))
    (children : List Shape) : (mk id kind notes children).id = id := rfl

@[simp] theorem idsAll_append (ss ts : List Shape) :
    idsAll (ss ++ ts) = idsAll ss ++ idsAll ts := by
  induction ss with
  | nil => rfl
  | cons s ss ih => simp [idsAll, ih]

theorem idsAll_singleton (s : Shape) : idsAll [s] = s.ids := by
  rw [idsAll, idsAll, List.append_nil]

@[simp] theorem treesAll_append (ss ts : List Shape) :
    treesAll (ss ++ ts) = treesAll ss ++ treesAll ts := by
  induction ss with
  | nil => rfl
  | cons s ss ih => simp [treesAll, ih]

@[simp] theorem inAll_append :
    InAll d p (ss ++ ts) ↔ InAll d p ss ∧ InAll d p ts := by
  induction ss with
  | nil => simp [InAll]
  | cons s ss ih => simp [InAll, ih, and_assoc]

theorem inAll_iff : InAll d p ss ↔ ∀ s ∈ ss, s.In d p := by
  induction ss with
  | nil => simp [InAll]
  | cons s ss ih => simp [InAll, ih]

/-- When the first shape of a worklist makes way for its children, there are still shapes only. -/
theorem In.exists_in_of_mem {id : NodeId} {kind : NodeKind} {notes : List (String × String)}
    {children : List Shape} (hs : (mk id kind notes children).In d p)
    (hss : ∀ t ∈ ss, ∃ q, t.In d q) (h : s ∈ children ∨ s ∈ ss) : ∃ q, s.In d q := by
  rcases h with h | h
  · exact ⟨_, inAll_iff.1 hs.2 s h⟩
  · exact hss s h

theorem mem_idsAll_iff : x ∈ idsAll ss ↔ ∃ s ∈ ss, x ∈ s.ids := by
  induction ss with
  | nil => simp [idsAll]
  | cons s ss ih => simp [idsAll, ih]

theorem length_ids_le (h : s ∈ ss) : s.ids.length ≤ (idsAll ss).length := by
  obtain ⟨left, right, rfl⟩ := List.append_of_mem h
  simp only [idsAll_append, idsAll, List.length_append]
  omega

theorem idsAll_perm (h : ss.Perm ts) : (idsAll ss).Perm (idsAll ts) := by
  induction h with
  | nil => exact .refl _
  | cons s _ ih => exact ih.append_left s.ids
  | swap s t ss =>
    simp only [idsAll, ← List.append_assoc]
    exact List.perm_append_comm.append_right _
  | trans _ _ ih ih' => exact ih.trans ih'

theorem id_mem_ids (s : Shape) : s.id ∈ s.ids := by
  cases s
  simp [ids, id]

theorem treesAll_eq_flatMap (ss : List Shape) : treesAll ss = ss.flatMap trees := by
  induction ss with
  | nil => rfl
  | cons s ss ih => simp [treesAll, ih]

/-- Induction on the nodes of a shape. -/
@[elab_as_elim, induction_eliminator]
theorem induction {motive : Shape → Prop}
    (mk : ∀ id kind notes children, (∀ c ∈ children, motive c) →
      motive ⟨id, kind, notes, children⟩) : ∀ s, motive s := by
  refine @Shape.rec motive (fun ss => ∀ c ∈ ss, motive c) mk (fun c hc => ?_)
    fun s rest hs hrest c hc => ?_
  · cases hc
  · rcases List.mem_cons.1 hc with rfl | hc
    · exact hs
    · exact hrest c hc

/-- Only the nodes of a shape count for it. -/
theorem In.congr (hs : s.In d p) (h : ∀ x ∈ s.ids, d'.node? x = d.node? x) : s.In d' p := by
  induction s generalizing p with
  | mk id kind notes children ih =>
    simp only [ids, List.mem_cons, forall_eq_or_imp] at h
    refine ⟨h.1.trans hs.1, inAll_iff.2 fun c hc => ih c hc (inAll_iff.1 hs.2 c hc) fun x hx => ?_⟩
    exact h.2 x (mem_idsAll_iff.2 ⟨c, hc, hx⟩)

theorem InAll.congr (hs : InAll d p ss) (h : ∀ x ∈ idsAll ss, d'.node? x = d.node? x) :
    InAll d' p ss :=
  inAll_iff.2 fun s hmem => (inAll_iff.1 hs s hmem).congr fun x hx =>
    h x (mem_idsAll_iff.2 ⟨s, hmem, hx⟩)

theorem In.contains (hs : s.In d p) (hx : x ∈ s.ids) : d.contains x = true := by
  induction s generalizing p with
  | mk id kind notes children ih =>
    rcases List.mem_cons.1 hx with rfl | hx
    · exact Document.contains_iff.2 ⟨_, hs.1⟩
    · obtain ⟨c, hc, hx⟩ := mem_idsAll_iff.1 hx
      exact ih c hc (inAll_iff.1 hs.2 c hc) hx

theorem InAll.contains (hs : InAll d p ss) (hx : x ∈ idsAll ss) : d.contains x = true := by
  obtain ⟨s, hmem, hx⟩ := mem_idsAll_iff.1 hx
  exact (inAll_iff.1 hs s hmem).contains hx

theorem In.parent? (hs : s.In d p) : d.parent? s.id = p := by
  cases s
  exact Document.parent?_of_node? hs.1

/-- Reading a shape back gives its trees, given fuel for its nodes. -/
theorem In.treesAt (hs : s.In d p) {fuel : Nat} (hfuel : s.ids.length ≤ fuel) :
    d.treesAt fuel s.id = s.trees := by
  induction s generalizing p fuel with
  | mk id kind notes children ih =>
    rw [ids, List.length_cons] at hfuel
    obtain ⟨fuel, rfl⟩ := Nat.exists_eq_add_of_le' (Nat.le_trans (Nat.le_add_left 1 _) hfuel)
    have hinner : (children.map Shape.id).flatMap (d.treesAt fuel) = treesAll children := by
      rw [treesAll_eq_flatMap, List.flatMap_map]
      refine List.flatMap_congr fun c hc => ih c hc (inAll_iff.1 hs.2 c hc) ?_
      have : c.ids.length ≤ (idsAll children).length := by
        obtain ⟨l, r, rfl⟩ := List.append_of_mem hc
        simp [idsAll]
        omega
      omega
    simp only [Document.treesAt, id_mk, hs.1, hinner]
    cases kind <;> rfl

end Shape

namespace Document.Sound

variable {d : Document} {p : Option NodeId} {s t : Shape} {ss : List Shape} {x : NodeId}

/-- The addresses of a shape are those that its own is above of. -/
theorem mem_ids_iff (hd : d.Sound) (hs : s.In d p) : x ∈ s.ids ↔ d.Above s.id x := by
  constructor
  · induction s generalizing p with
    | mk id kind notes children ih =>
      intro hx
      rcases List.mem_cons.1 hx with rfl | hx
      · exact .refl
      · obtain ⟨c, hc, hx⟩ := Shape.mem_idsAll_iff.1 hx
        have hcs := Shape.inAll_iff.1 hs.2 c hc
        exact (ih c hc hcs hx).head hcs.parent?
  · intro h
    induction h with
    | refl => exact s.id_mem_ids
    | @tail y z hy hz ih =>
      clear hy
      induction s generalizing p with
      | mk id kind notes children ihs =>
        refine List.mem_cons_of_mem _ (Shape.mem_idsAll_iff.2 ?_)
        rcases List.mem_cons.1 ih with rfl | ih
        · have hz := hd.mem_children_iff.2 hz
          rw [children_of_node? hs.1] at hz
          obtain ⟨c, hc, rfl⟩ := List.mem_map.1 hz
          exact ⟨c, hc, c.id_mem_ids⟩
        · obtain ⟨c, hc, hy⟩ := Shape.mem_idsAll_iff.1 ih
          exact ⟨c, hc, ihs c hc (Shape.inAll_iff.1 hs.2 c hc) hy⟩

/-- Different nodes under one parent, or without any, have nothing in common below them. -/
theorem disjoint_ids (hd : d.Sound) (hs : s.In d p) (ht : t.In d p) (hne : s.id ≠ t.id) :
    List.Disjoint s.ids t.ids := by
  have hline : ∀ {a b : Shape}, a.In d p → b.In d p → d.Above a.id b.id → a.id = b.id := by
    intro a b ha hb h
    cases p with
    | none => exact (above_iff_of_parent?_eq_none hb.parent?).1 h
    | some q =>
      rcases (above_iff_of_parent? hb.parent?).1 h with h | h
      · exact h
      · exact absurd h (hd.not_above_parent ha.parent?)
  intro x hxs hxt
  rcases above_or_above ((hd.mem_ids_iff hs).1 hxs) ((hd.mem_ids_iff ht).1 hxt) with h | h
  · exact hne (hline hs ht h)
  · exact hne (hline ht hs h).symm

theorem nodup_idsAll (hd : d.Sound) (hs : Shape.InAll d p ss)
    (hnodup : (ss.map Shape.id).Nodup) (hids : ∀ s ∈ ss, s.ids.Nodup) :
    (Shape.idsAll ss).Nodup := by
  induction ss with
  | nil => exact List.nodup_nil
  | cons s ss ih =>
    rw [List.map_cons, List.nodup_cons] at hnodup
    refine List.nodup_append'.2 ⟨hids s (List.mem_cons_self ..),
      ih hs.2 hnodup.2 fun t ht => hids t (List.mem_cons_of_mem _ ht), fun x hx hxs => ?_⟩
    obtain ⟨t, ht, hxt⟩ := Shape.mem_idsAll_iff.1 hxs
    refine hd.disjoint_ids hs.1 (Shape.inAll_iff.1 hs.2 t ht) (fun h => hnodup.1 ?_) hx hxt
    exact List.mem_map.2 ⟨t, ht, h.symm⟩

/-- No address comes twice in a shape. -/
theorem nodup_ids (hd : d.Sound) (hs : s.In d p) : s.ids.Nodup := by
  induction s generalizing p with
  | mk id kind notes children ih =>
    refine List.nodup_cons.2 ⟨fun h => ?_, hd.nodup_idsAll hs.2 (hd.nodup hs.1) fun c hc =>
      ih c hc (Shape.inAll_iff.1 hs.2 c hc)⟩
    obtain ⟨c, hc, hx⟩ := Shape.mem_idsAll_iff.1 h
    have hcs := Shape.inAll_iff.1 hs.2 c hc
    exact hd.not_above_parent hcs.parent? ((hd.mem_ids_iff hcs).1 hx)

/-- Every live node has a shape. The induction is on the room that lines of parents leave below a
node. -/
theorem exists_shape (hd : d.Sound) (hx : d.contains x = true) :
    ∃ s : Shape, s.id = x ∧ s.In d (d.parent? x) := by
  obtain ⟨line, -, hmem, hnodup, -⟩ := hd.exists_line x
  obtain ⟨room, hroom⟩ : ∃ room, d.slots.size < line.length + room :=
    ⟨d.slots.size + 1, by omega⟩
  induction room generalizing x line with
  | zero =>
    have := hd.length_line_le hx hmem hnodup
    omega
  | succ room ih =>
    obtain ⟨n, hn⟩ := contains_iff.1 hx
    have hchild : ∀ c ∈ n.children, ∃ s : Shape, s.id = c ∧ s.In d (some x) := by
      intro c hc
      obtain ⟨m, hm, hp⟩ := hd.child hn hc
      have hcp : d.parent? c = some x := parent?_eq_some_iff.2 ⟨m, hm, hp⟩
      rw [← hcp]
      refine ih (contains_iff.2 ⟨m, hm⟩) (c :: line) (fun y => ?_)
        (List.nodup_cons.2 ⟨fun h => hd.not_above_parent hcp ((hmem c).1 h), hnodup⟩) ?_
      · rw [List.mem_cons, hmem, above_iff_of_parent? hcp]
      · rw [List.length_cons]
        omega
    have hchildren : ∀ l ⊆ n.children, ∃ ss : List Shape, ss.map Shape.id = l ∧
        Shape.InAll d (some x) ss := by
      intro l hl
      induction l with
      | nil => exact ⟨[], rfl, trivial⟩
      | cons c l ihl =>
        obtain ⟨s, rfl, hs⟩ := hchild c (hl (List.mem_cons_self ..))
        obtain ⟨ss, rfl, hss⟩ := ihl fun y hy => hl (List.mem_cons_of_mem _ hy)
        exact ⟨s :: ss, rfl, hs, hss⟩
    obtain ⟨ss, hmap, hss⟩ := hchildren n.children (List.Subset.refl _)
    refine ⟨⟨x, n.kind, n.notes, ss⟩, rfl, ?_, hss⟩
    rw [hmap, parent?_of_node? hn, hn]

/-- Every element has a shape that is one. -/
theorem exists_element (hd : d.Sound) {tag : String} (htag : d.tagName? x = some tag) :
    ∃ attributes notes kids,
      (⟨x, .element tag attributes, notes, kids⟩ : Shape).In d (d.parent? x) := by
  obtain ⟨n, hn, hkind⟩ := Option.bind_eq_some_iff.1 htag
  obtain ⟨⟨x, kind, notes, kids⟩, rfl, hs⟩ := hd.exists_shape (contains_iff.2 ⟨n, hn⟩)
  obtain rfl : _ = n := Option.some.inj (hs.1.symm.trans hn)
  cases kind with
  | root | text _ => cases hkind
  | element tag attributes =>
    cases hkind
    exact ⟨attributes, notes, kids, hs⟩

/-- What a document shows of a live node is its shape. -/
theorem trees_eq (hd : d.Sound) (hs : s.In d p) : d.trees s.id = s.trees :=
  hs.treesAt (length_le_size_of_nodup (hd.nodup_ids hs) fun _ hx => hs.contains hx)

/-- The root with all that hangs below it. -/
theorem exists_content (hd : d.Sound) : ∃ notes kids,
    (⟨.root, .root, notes, kids⟩ : Shape).In d none ∧ d.content = Shape.treesAll kids := by
  obtain ⟨⟨id, kind, notes, kids⟩, hid, hs⟩ := hd.exists_shape hd.contains_root
  obtain rfl : id = .root := hid
  rw [hd.parent?_root] at hs
  obtain ⟨n, hn, hkind, -⟩ := hd.root
  obtain rfl : kind = .root := by
    rw [hs.1] at hn
    cases hn
    exact hkind
  exact ⟨notes, kids, hs, hd.trees_eq hs⟩

end Document.Sound
end LiveMarkup
