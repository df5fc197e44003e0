import LiveMarkup.Proofs.Document.Sound

/-! Moving a node keeps a document sound: to take it out never harms, and to put it back in needs a
parent that is no text and does not hang below it. -/
namespace LiveMarkup

theorem Node.Valid.of_kind {id : NodeId} {n m : Node} (h : n.Valid id) (hkind : m.kind = n.kind)
    (htext : ∀ s, n.kind = .text s → n.children = [] → m.children = []) : m.Valid id := by
  unfold Node.Valid at h ⊢
  rw [hkind]
  split at h
  · exact h
  · exact h
  · next s hs => exact htext s hs h

namespace Document

variable {d : Document} {id p c x : NodeId} {n m : Node}

/-- Taking a node out of its place. -/
theorem Sound.detach (hd : d.Sound) (id : NodeId) : (d.detach id).Sound := by
  cases hp : d.parent? id with
  | none => rwa [detach_of_parent?_eq_none hp]
  | some p =>
    have hrewrites : Rewrites _ d (d.detach id) := node?_detach hp
    have hkids : ∀ {x : NodeId} {n : Node} {c}, c ∈ (if x = p then n.children.filter (· ≠ id)
        else n.children) ↔ c ∈ n.children ∧ (x = p → c ≠ id) := by
      intro x n c
      split <;> simp [*]
    have hparent : ∀ {x : NodeId} {n : Node} {q}, (if x = id then none else n.parent) = some q ↔
        n.parent = some q ∧ x ≠ id := by
      intro x n q
      split <;> simp [*]
    refine hd.rewrite hrewrites (fun n hkind hn => ⟨hkind, ?_⟩) (fun q c n m hn hm => ?_)
      (fun x n hn => ⟨fun c hc => ?_, fun q hq => ?_⟩) (fun x n hn => ?_) (fun x n hn => ?_)
      (hrewrites.grounded hd fun x n q hq => (hparent.1 hq).1) (hd.accounted.detach id)
    · rw [hn, ite_self]
    · rw [hkids, hparent, hd.link_iff hn hm]
      refine and_congr_right fun hq => ⟨fun h hc => ?_, fun h _ => h⟩
      subst hc
      rw [parent?_of_node? hm, hq] at hp
      exact h (Option.some.inj hp) rfl
    · exact (hd.live hn).1 c (hkids.1 hc).1
    · exact (hd.live hn).2 q (hparent.1 hq).1
    · dsimp only
      split
      · exact (hd.nodup hn).filter _
      · exact hd.nodup hn
    · refine (hd.valid hn).of_kind rfl fun s hs hnone => ?_
      simp [hnone]

/-- No line of parents comes back to a node that is hung below a node that it is not above. -/
theorem Sound.grounded_attach (hd : d.Sound) (hline : ¬ d.Above c p)
    {place : List NodeId → List NodeId} :
    WellFounded fun q y => (d.attach p c place).parent? y = some q := by
  have hstep : ∀ {q y}, (d.attach p c place).parent? y = some q →
      (y = c ∧ q = p) ∨ (y ≠ c ∧ d.parent? y = some q) := by
    intro q y h
    obtain ⟨k, hk, hkq⟩ := parent?_eq_some_iff.1 h
    obtain ⟨l, hl, rfl⟩ := Rewrites.exists_old (node?_attach p c place) hk
    dsimp only at hkq
    split at hkq
    · exact Or.inl ⟨‹_›, (Option.some.inj hkq).symm⟩
    · exact Or.inr ⟨‹_›, parent?_eq_some_iff.2 ⟨l, hl, hkq⟩⟩
  have hfree : ∀ y, ¬ d.Above c y →
      Acc (fun q y => (d.attach p c place).parent? y = some q) y := by
    intro y
    induction y using hd.grounded.induction with
    | _ y ih =>
      intro hy
      refine ⟨y, fun q hq => ?_⟩
      rcases hstep hq with ⟨rfl, -⟩ | ⟨-, hq⟩
      · exact absurd .refl hy
      · exact ih q hq fun h => hy (h.tail hq)
  refine ⟨fun x => ?_⟩
  induction x using hd.grounded.induction with
  | _ x ih =>
    refine ⟨x, fun q hq => ?_⟩
    rcases hstep hq with ⟨-, rfl⟩ | ⟨-, hq⟩
    · exact hfree q hline
    · exact ih q hq

/-- Putting a node without parent into a place. -/
theorem Sound.attach (hd : d.Sound) (hp : d.node? p = some n) (htext : ∀ s, n.kind ≠ .text s)
    (hc : d.node? c = some m) (hcp : m.parent = none) (hroot : c ≠ .root) (hline : ¬ d.Above c p)
    {place : List NodeId → List NodeId} (hplace : ∀ l, (place l).Perm (c :: l)) :
    (d.attach p c place).Sound := by
  have horphan : ∀ {q k}, d.node? q = some k → c ∉ k.children := by
    intro q k hk hmem
    have hq := (hd.link_iff hk hc).1 hmem
    rw [hcp] at hq
    cases hq
  have hkids : ∀ {x : NodeId} {k : Node} {y}, y ∈ (if x = p then place k.children
      else k.children) ↔ y ∈ k.children ∨ (x = p ∧ y = c) := by
    intro x k y
    split <;> simp [*, (hplace _).mem_iff, or_comm]
  refine hd.rewrite (node?_attach p c place) (fun k hkind hk => ⟨hkind, ?_⟩)
    (fun q y k l hk hl => ?_) (fun x k hk => ⟨fun y hy => ?_, fun q hq => ?_⟩)
    (fun x k hk => ?_) (fun x k hk => ?_) (hd.grounded_attach hline)
    (hd.accounted.attach p c place)
  · exact (if_neg (Ne.symm hroot)).trans hk
  · rw [hkids, hd.link_iff hk hl]
    split
    · next hy =>
      subst hy
      cases hl.symm.trans hc
      simp [hcp, eq_comm]
    · next hy => simp [hy]
  · rcases hkids.1 hy with hy | ⟨-, rfl⟩
    · exact (hd.live hk).1 y hy
    · exact contains_iff.2 ⟨m, hc⟩
  · dsimp only at hq
    split at hq
    · cases hq
      exact contains_iff.2 ⟨n, hp⟩
    · exact (hd.live hk).2 q hq
  · dsimp only
    split
    · exact (hplace _).nodup_iff.2 (List.nodup_cons.2 ⟨horphan hk, hd.nodup hk⟩)
    · exact hd.nodup hk
  · refine (hd.valid hk).of_kind rfl fun s hs hnone => ?_
    refine (if_neg ?_).trans hnone
    rintro rfl
    cases hk.symm.trans hp
    exact htext s hs

end Document
end LiveMarkup
