import Mathlib.Data.List.Perm.Subperm
import Mathlib.Logic.Relation
import Mathlib.Order.WellFounded
import LiveMarkup.Proofs.Document.Lookup

/-! Sound documents: links that agree in both directions and never run in a circle, nodes with
valid content, an exact free list. What changes no link, and the making, taking out and putting in
of single nodes, keep a document sound. -/
namespace LiveMarkup

/-- Only the first address holds a root, names are valid and distinct, texts have no children. -/
def Node.Valid (id : NodeId) (n : Node) : Prop :=
  match n.kind with
  | .root => id = .root
  | .element tag attributes => Markup.isTagName tag = true ∧ (Entries.keys attributes).Nodup ∧
      ∀ name ∈ Entries.keys attributes, Markup.isAttributeName name = true
  | .text _ => n.children = []

namespace Document

structure Sound (d : Document) : Prop where
  root : ∃ n, d.node? .root = some n ∧ n.kind = .root ∧ n.parent = none
  child : ∀ {p c n}, d.node? p = some n → c ∈ n.children →
    ∃ m, d.node? c = some m ∧ m.parent = some p
  parent : ∀ {p c m}, d.node? c = some m → m.parent = some p →
    ∃ n, d.node? p = some n ∧ c ∈ n.children
  nodup : ∀ {p n}, d.node? p = some n → n.children.Nodup
  valid : ∀ {id n}, d.node? id = some n → n.Valid id
  /-- Every line of parents ends. -/
  grounded : WellFounded fun p c => d.parent? c = some p
  accounted : d.Accounted

/-- A node is above itself and above all that hangs below it. -/
def Above (d : Document) : NodeId → NodeId → Prop :=
  Relation.ReflTransGen fun p c => d.parent? c = some p

variable {d d' : Document} {id p c x : NodeId} {n m : Node}

theorem parent?_eq_some_iff :
    d.parent? c = some p ↔ ∃ m, d.node? c = some m ∧ m.parent = some p := by
  simp [parent?, Option.bind_eq_some_iff]

namespace Sound

theorem contains_root (hd : d.Sound) : d.contains .root = true := by
  obtain ⟨n, hn, -, -⟩ := hd.root
  exact contains_iff.2 ⟨n, hn⟩

theorem ne_root (hd : d.Sound) (hx : d.node? x = none) : x ≠ .root := by
  rintro rfl
  obtain ⟨n, hn, -⟩ := hd.root
  cases hx.symm.trans hn

theorem parent?_root (hd : d.Sound) : d.parent? .root = none := by
  obtain ⟨n, hn, -, hp⟩ := hd.root
  rw [parent?_of_node? hn, hp]

/-- Both directions of a link say the same. -/
theorem mem_children_iff (hd : d.Sound) : c ∈ d.children p ↔ d.parent? c = some p := by
  rw [parent?_eq_some_iff]
  constructor
  · intro h
    cases hp : d.node? p with
    | none => simp [children, hp] at h
    | some n =>
      rw [children_of_node? hp] at h
      exact hd.child hp h
  · rintro ⟨m, hm, hp⟩
    obtain ⟨n, hn, hc⟩ := hd.parent hm hp
    rwa [children_of_node? hn]

theorem nodup_children (hd : d.Sound) (p : NodeId) : (d.children p).Nodup := by
  cases hp : d.node? p with
  | none => simp [children, hp]
  | some n =>
    rw [children_of_node? hp]
    exact hd.nodup hp

theorem link_iff (hd : d.Sound) (hp : d.node? p = some n) (hc : d.node? c = some m) :
    c ∈ n.children ↔ m.parent = some p := by
  rw [← children_of_node? hp, hd.mem_children_iff, parent?_of_node? hc]

theorem contains_of_parent? (hd : d.Sound) (h : d.parent? c = some p) :
    d.contains c = true ∧ d.contains p = true := by
  obtain ⟨m, hm, hp⟩ := parent?_eq_some_iff.1 h
  obtain ⟨n, hn, -⟩ := hd.parent hm hp
  exact ⟨contains_iff.2 ⟨m, hm⟩, contains_iff.2 ⟨n, hn⟩⟩

theorem text?_eq_none_of_parent? (hd : d.Sound) (h : d.parent? c = some p) :
    d.text? p = none := by
  obtain ⟨m, hm, hmp⟩ := parent?_eq_some_iff.1 h
  obtain ⟨n, hn, hmem⟩ := hd.parent hm hmp
  have hvalid := hd.valid hn
  rw [text?, hn, Option.bind_some]
  split
  · next content hkind =>
    rw [Node.Valid, hkind] at hvalid
    rw [hvalid] at hmem
    cases hmem
  · rfl

theorem nodup_keys (hd : d.Sound) (x : NodeId) : (Entries.keys (d.attributes x)).Nodup := by
  rw [attributes]
  split
  · next hn => exact (hd.valid hn).2.1
  · exact List.nodup_nil

/-- No node is above its own parent. -/
theorem not_above_parent (hd : d.Sound) (h : d.parent? c = some p) : ¬ d.Above c p := fun hcp =>
  hd.grounded.transGen.irrefl.irrefl c (Relation.TransGen.tail' hcp h)

/-- All that is above a live node is live. -/
theorem contains_of_above (hd : d.Sound) (h : d.Above c x) (hx : d.contains x = true) :
    d.contains c = true := by
  induction h using Relation.ReflTransGen.head_induction_on with
  | refl => exact hx
  | head hp _ _ => exact (hd.contains_of_parent? hp).2

/-- All that hangs below a live node is live. -/
theorem contains_of_below (hd : d.Sound) (h : d.Above c x) (hc : d.contains c = true) :
    d.contains x = true := by
  cases h with
  | refl => exact hc
  | tail _ hp => exact (hd.contains_of_parent? hp).1

/-- Two nodes above a third one are in one line. -/
theorem above_or_above (h : d.Above c x) (h' : d.Above p x) : d.Above c p ∨ d.Above p c := by
  induction h with
  | refl => exact Or.inr h'
  | @tail y z hy hz ih =>
    cases h' with
    | refl => exact Or.inl (Relation.ReflTransGen.tail hy hz)
    | @tail y' _ hy' hz' =>
      obtain rfl : y = y' := Option.some.inj (hz.symm.trans hz')
      exact ih hy'

end Sound

theorem Sound.empty (tree : TreeId) : (empty tree).Sound := by
  have hnode : ∀ {x n}, (Document.empty tree).node? x = some n →
      x = .root ∧ n = .detached .root := by
    intro x n h
    rw [node?_empty, Option.ite_none_right_eq_some] at h
    exact ⟨h.1, (Option.some.inj h.2).symm⟩
  refine ⟨⟨_, rfl, rfl, rfl⟩, ?_, ?_, ?_, ?_, ⟨fun c => ⟨c, fun p h => ?_⟩⟩, .empty tree⟩
  · intro p c n h hc
    obtain ⟨-, rfl⟩ := hnode h
    cases hc
  · intro p c m h hp
    obtain ⟨-, rfl⟩ := hnode h
    cases hp
  · intro p n h
    obtain ⟨-, rfl⟩ := hnode h
    exact List.nodup_nil
  · intro id n h
    obtain ⟨rfl, rfl⟩ := hnode h
    rfl
  · obtain ⟨m, hm, hp⟩ := parent?_eq_some_iff.1 h
    obtain ⟨-, rfl⟩ := hnode hm
    cases hp

/-- The nodes of the second document are those of the first one, rewritten where they stand. -/
def Rewrites (g : NodeId → Node → Node) (d d' : Document) : Prop :=
  ∀ x, d'.node? x = (d.node? x).map (g x)

theorem Rewrites.exists_old {g : NodeId → Node → Node} (h : Rewrites g d d')
    (hx : d'.node? x = some m) : ∃ n, d.node? x = some n ∧ g x n = m :=
  Option.map_eq_some_iff.1 ((h x).symm.trans hx)

theorem Rewrites.new {g : NodeId → Node → Node} (h : Rewrites g d d') (hx : d.node? x = some n) :
    d'.node? x = some (g x n) :=
  (h x).trans (congrArg (Option.map _) hx)

/-- Rewriting that makes no new parents makes no circles. -/
theorem Rewrites.grounded {g : NodeId → Node → Node} (h : Rewrites g d d') (hd : d.Sound)
    (hparent : ∀ x n p, (g x n).parent = some p → n.parent = some p) :
    WellFounded fun p c => d'.parent? c = some p := by
  refine Subrelation.wf (fun {p c} hp => ?_) hd.grounded
  obtain ⟨m, hm, hmp⟩ := parent?_eq_some_iff.1 hp
  obtain ⟨n, hn, rfl⟩ := h.exists_old hm
  exact parent?_eq_some_iff.2 ⟨n, hn, hparent c n p hmp⟩

/-- Rewriting keeps a document sound if it treats both directions of a link alike and makes links
between live nodes only. -/
theorem Sound.rewrite {g : NodeId → Node → Node} (hd : d.Sound) (h : Rewrites g d d')
    (hroot : ∀ n, n.kind = .root → n.parent = none →
      (g .root n).kind = .root ∧ (g .root n).parent = none)
    (hlink : ∀ p c n m, d.node? p = some n → d.node? c = some m →
      (c ∈ (g p n).children ↔ (g c m).parent = some p))
    (hlive : ∀ x n, d.node? x = some n → (∀ c ∈ (g x n).children, d.contains c = true) ∧
      ∀ p, (g x n).parent = some p → d.contains p = true)
    (hnodup : ∀ x n, d.node? x = some n → (g x n).children.Nodup)
    (hvalid : ∀ x n, d.node? x = some n → (g x n).Valid x)
    (hgrounded : WellFounded fun p c => d'.parent? c = some p) (haccounted : d'.Accounted) :
    d'.Sound where
  root := by
    obtain ⟨n, hn, hkind, hp⟩ := hd.root
    exact ⟨g .root n, h.new hn, hroot n hkind hp⟩
  child := by
    intro p c n' hp hc
    obtain ⟨n, hn, rfl⟩ := h.exists_old hp
    obtain ⟨m, hm⟩ := contains_iff.1 ((hlive p n hn).1 c hc)
    exact ⟨g c m, h.new hm, (hlink p c n m hn hm).1 hc⟩
  parent := by
    intro p c m' hc hp
    obtain ⟨m, hm, rfl⟩ := h.exists_old hc
    obtain ⟨n, hn⟩ := contains_iff.1 ((hlive c m hm).2 p hp)
    exact ⟨g p n, h.new hn, (hlink p c n m hn hm).2 hp⟩
  nodup := by
    intro p n' hp
    obtain ⟨n, hn, rfl⟩ := h.exists_old hp
    exact hnodup p n hn
  valid := by
    intro x n' hx
    obtain ⟨n, hn, rfl⟩ := h.exists_old hx
    exact hvalid x n hn
  grounded := hgrounded
  accounted := haccounted

theorem Sound.live (hd : d.Sound) (hx : d.node? x = some n) :
    (∀ c ∈ n.children, d.contains c = true) ∧ ∀ p, n.parent = some p → d.contains p = true := by
  refine ⟨fun c hc => ?_, fun p hp => ?_⟩
  · obtain ⟨m, hm, -⟩ := hd.child hx hc
    exact contains_iff.2 ⟨m, hm⟩
  · obtain ⟨m, hm, -⟩ := hd.parent hx hp
    exact contains_iff.2 ⟨m, hm⟩

/-- What a node says may change as long as it stays valid. -/
theorem Sound.update (hd : d.Sound) (id : NodeId) {f : Node → Node}
    (hparent : ∀ n, (f n).parent = n.parent) (hchildren : ∀ n, (f n).children = n.children)
    (hroot : id ≠ .root ∨ ∀ n, (f n).kind = n.kind)
    (hvalid : ∀ n, d.node? id = some n → n.Valid id → (f n).Valid id) :
    (d.update id f).Sound := by
  have hrewrites : Rewrites (fun x n => if x = id then f n else n) d (d.update id f) :=
    node?_update_eq_map f
  have hparents : ∀ x n, (if x = id then f n else n).parent = n.parent := by
    intro x n
    split
    · exact hparent n
    · rfl
  have hkids : ∀ x n, (if x = id then f n else n).children = n.children := by
    intro x n
    split
    · exact hchildren n
    · rfl
  refine hd.rewrite hrewrites (fun n hkind hp => ⟨?_, (hparents _ n).trans hp⟩)
    (fun p c n m hn hm => ?_) (fun x n hn => ?_) (fun x n hn => ?_) (fun x n hn => ?_)
    (hrewrites.grounded hd fun x n p hp => (hparents x n).symm.trans hp) (hd.accounted.update id f)
  · split
    · next hx => rw [hroot.resolve_left fun hne => hne hx.symm, hkind]
    · exact hkind
  · rw [hkids, hparents]
    exact hd.link_iff hn hm
  · rw [hkids, hparents]
    exact hd.live hn
  · rw [hkids]
    exact hd.nodup hn
  · split
    · next hx =>
      subst hx
      exact hvalid n hn (hd.valid hn)
    · exact hd.valid hn

/-- A new node has no links. -/
theorem Sound.allocate (hd : d.Sound) {kind : NodeKind} (h : d.allocate kind = .ok (id, d'))
    (hvalid : (Node.detached kind).Valid id) : d'.Sound := by
  obtain ⟨hid, hnode⟩ := node?_allocate hd.accounted h
  have hold : ∀ {x n}, d.node? x = some n → d'.node? x = some n := by
    intro x n hx
    rw [hnode, if_neg, hx]
    rintro rfl
    rw [hid] at hx
    cases hx
  have hcases : ∀ {x n}, d'.node? x = some n →
      (x = id ∧ n = .detached kind) ∨ d.node? x = some n := by
    intro x n hx
    rw [hnode] at hx
    split at hx
    · exact Or.inl ⟨‹_›, (Option.some.inj hx).symm⟩
    · exact Or.inr hx
  refine ⟨?_, ?_, ?_, ?_, ?_, ?_, hd.accounted.allocate h⟩
  · obtain ⟨n, hn, hkind, hp⟩ := hd.root
    exact ⟨n, hold hn, hkind, hp⟩
  · intro p c n hp hc
    obtain ⟨-, rfl⟩ | hp := hcases hp
    · cases hc
    · obtain ⟨m, hm, hmp⟩ := hd.child hp hc
      exact ⟨m, hold hm, hmp⟩
  · intro p c m hc hp
    obtain ⟨-, rfl⟩ | hc := hcases hc
    · cases hp
    · obtain ⟨n, hn, hmem⟩ := hd.parent hc hp
      exact ⟨n, hold hn, hmem⟩
  · intro p n hp
    obtain ⟨-, rfl⟩ | hp := hcases hp
    · exact List.nodup_nil
    · exact hd.nodup hp
  · intro x n hx
    obtain ⟨rfl, rfl⟩ | hx := hcases hx
    · exact hvalid
    · exact hd.valid hx
  · refine Subrelation.wf (fun {q y} h => ?_) hd.grounded
    obtain ⟨m, hm, hp⟩ := parent?_eq_some_iff.1 h
    obtain ⟨-, rfl⟩ | hm := hcases hm
    · cases hp
    · exact parent?_eq_some_iff.2 ⟨m, hm, hp⟩

end Document
end LiveMarkup
