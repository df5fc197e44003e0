import Mathlib.Algebra.Group.Nat.Defs
import LiveMarkup.Proofs.Document.Reachable

/-! How old the slots of a document get. A call releases no slot twice, and a slot that was released
since a node was in it has another generation, until the generations come round. -/
namespace LiveMarkup

/-- The generation of a slot, if there is the slot. -/
def Document.generation? (d : Document) (slot : Nat) : Option UInt32 :=
  d.slots[slot]?.map Slot.generation

namespace Operation

/-- How often a call releases a slot: whether the slot gets another generation. -/
def releases (o : Operation) (d : Document) (slot : Nat) : Nat :=
  match d.generation? slot, (o.perform d).generation? slot with
  | some g, some g' => if g' = g then 0 else 1
  | _, _ => 0

/-- How often calls, one after another, release a slot. -/
def releasesAll (slot : Nat) : List Operation → Document → Nat
  | [], _ => 0
  | o :: ops, d => o.releases d slot + releasesAll slot ops (o.perform d)

theorem releasesAll_append (slot : Nat) (ops ops' : List Operation) (d : Document) :
    releasesAll slot (ops ++ ops') d =
      releasesAll slot ops d + releasesAll slot ops' (performFrom d ops) := by
  induction ops generalizing d with
  | nil => simp [releasesAll, performFrom]
  | cons o ops ih => simp [releasesAll, performFrom, ih, Nat.add_assoc]

theorem releasesAll_le (slot : Nat) (ops : List Operation) (d : Document) :
    releasesAll slot ops d ≤ ops.length := by
  induction ops generalizing d with
  | nil => exact Nat.zero_le _
  | cons o ops ih =>
    have hone : o.releases d slot ≤ 1 := by
      rw [releases]
      split
      · split <;> omega
      · omega
    have := ih (o.perform d)
    rw [releasesAll, List.length_cons]
    omega

end Operation

namespace Document

variable {d d' d₁ : Document} {id x : NodeId} {n : Node}

/-- Every slot that was in use is still in use, in the same generation. -/
def Stays (d d' : Document) : Prop :=
  ∀ (slot : Nat) (a : Slot), d.slots[slot]? = some a → ∃ b, d'.slots[slot]? = some b ∧
    b.generation = a.generation ∧ (a.node.isSome = true → b.node.isSome = true)

/-- Some of the slots in use have been released, each once. -/
def Fades (d d' : Document) : Prop :=
  ∀ (slot : Nat) (a : Slot), d.slots[slot]? = some a → ∃ b, d'.slots[slot]? = some b ∧
    (b.generation = a.generation ∧ b.node.isSome = a.node.isSome ∨
      b.generation = a.generation + 1 ∧ a.node.isSome = true ∧ b.node = none)

/-- Every slot has been released at most once, and those in use that were not are still in use. -/
def Ages (d d' : Document) : Prop :=
  ∀ (slot : Nat) (a : Slot), d.slots[slot]? = some a → ∃ b, d'.slots[slot]? = some b ∧
    (b.generation = a.generation ∧ (a.node.isSome = true → b.node.isSome = true) ∨
      b.generation = a.generation + 1)

/-- An update of a node leaves its slot in use. -/
theorem exists_slot_update (d : Document) (id : NodeId) (f : Node → Node) {slot : Nat} {a : Slot}
    (ha : d.slots[slot]? = some a) : ∃ b, (d.update id f).slots[slot]? = some b ∧
      b.generation = a.generation ∧ b.node.isSome = a.node.isSome := by
  simp only [update, Array.getElem?_modify, ha]
  split
  · refine ⟨_, rfl, ?_⟩
    dsimp only
    split <;> simp
  · exact ⟨a, rfl, rfl, rfl⟩

theorem updatesKeep_stays : UpdatesKeep Stays where
  refl _ _ a ha := ⟨a, ha, rfl, fun h => h⟩
  trans h h' slot a ha := by
    obtain ⟨b, hb, hgeneration, hlive⟩ := h slot a ha
    obtain ⟨c, hc, hgeneration', hlive'⟩ := h' slot b hb
    exact ⟨c, hc, hgeneration'.trans hgeneration, fun h => hlive' (hlive h)⟩
  update d id f slot a ha := by
    obtain ⟨b, hb, hgeneration, hlive⟩ := exists_slot_update d id f ha
    exact ⟨b, hb, hgeneration, fun h => hlive.trans h⟩

theorem stays_allocate {kind : NodeKind} (h : d.allocate kind = .ok (id, d')) : d.Stays d' := by
  intro slot a ha
  unfold allocate at h
  split at h
  · next free rest hfree =>
    split at h
    · next b hb =>
      cases h
      by_cases hslot : free = slot
      · subst hslot
        rw [hb] at ha
        cases ha
        have hlt := (Array.getElem?_eq_some_iff.1 hb).1
        exact ⟨{ a with node := some (.detached kind) }, by simp [hlt], rfl, fun _ => rfl⟩
      · exact ⟨a, by simp [hslot, ha], rfl, fun h => h⟩
    · cases h
  · split at h
    · cases h
      have hlt := (Array.getElem?_eq_some_iff.1 ha).1
      exact ⟨a, by simp [Array.getElem?_push, hlt.ne, ha], rfl, fun h => h⟩
    · cases h

theorem releasesKeep_fades : ReleasesKeep Fades where
  refl _ _ a ha := ⟨a, ha, Or.inl ⟨rfl, rfl⟩⟩
  trans h h' slot a ha := by
    obtain ⟨b, hb, ⟨hgeneration, hlive⟩ | ⟨hgeneration, hlive, hvacant⟩⟩ := h slot a ha
    · obtain ⟨c, hc, ⟨hgeneration', hlive'⟩ | ⟨hgeneration', hlive', hvacant'⟩⟩ := h' slot b hb
      · exact ⟨c, hc, Or.inl ⟨hgeneration'.trans hgeneration, hlive'.trans hlive⟩⟩
      · exact ⟨c, hc, Or.inr ⟨by rw [hgeneration', hgeneration], hlive ▸ hlive', hvacant'⟩⟩
    · obtain ⟨c, hc, ⟨hgeneration', hlive'⟩ | ⟨-, hlive', -⟩⟩ := h' slot b hb
      · refine ⟨c, hc, Or.inr ⟨hgeneration'.trans hgeneration, hlive, ?_⟩⟩
        simpa [hvacant] using hlive'
      · simp [hvacant] at hlive'
  update d id f slot a ha := by
    obtain ⟨b, hb, hsame⟩ := exists_slot_update d id f ha
    exact ⟨b, hb, Or.inl hsame⟩
  vacate {d id n} hid slot a ha := by
    obtain ⟨hlt, -, hnode⟩ := lt_size_of_node? hid
    simp only [vacate, Array.getElem?_modify, ha]
    split
    · next hslot =>
      subst hslot
      obtain rfl : d.slots[id.slot] = a := (Array.getElem?_eq_some_iff.1 ha).2
      exact ⟨_, rfl, Or.inr ⟨rfl, by rw [hnode]; rfl, rfl⟩⟩
    · exact ⟨a, rfl, Or.inl ⟨rfl, rfl⟩⟩

theorem Stays.ages (h : d.Stays d') : d.Ages d' := fun slot a ha => by
  obtain ⟨b, hb, hgeneration, hlive⟩ := h slot a ha
  exact ⟨b, hb, Or.inl ⟨hgeneration, hlive⟩⟩

theorem Fades.ages_of_stays (h : d.Fades d₁) (h' : d₁.Stays d') : d.Ages d' := fun slot a ha => by
  obtain ⟨b, hb, hcases⟩ := h slot a ha
  obtain ⟨c, hc, hgeneration, hlive⟩ := h' slot b hb
  refine ⟨c, hc, ?_⟩
  rcases hcases with ⟨hsame, hlive'⟩ | ⟨hnext, -⟩
  · exact Or.inl ⟨hgeneration.trans hsame, fun h => hlive (hlive'.trans h)⟩
  · exact Or.inr (hgeneration.trans hnext)

theorem Fades.ages (h : d.Fades d') : d.Ages d' := h.ages_of_stays (updatesKeep_stays.refl _)

instance : Std.Refl Ages := ⟨fun d => (updatesKeep_stays.refl d).ages⟩

/-- Taking nodes away, one after another. -/
theorem moves_fades_forM_remove (d : Document) (ids : List NodeId) :
    Moves Fades (ids.forM fun id => Edit.apply (·.remove id)) d fun _ _ => True := by
  have : Std.Refl Fades := ⟨releasesKeep_fades.refl⟩
  have : IsTrans Document Fades := ⟨fun _ _ _ => releasesKeep_fades.trans⟩
  exact .forM fun id _ d₁ _ => Edit.moves_apply fun _ => releasesKeep_fades.remove

theorem moves_stays_insertText (d : Document) (id : NodeId) (before : Nat) (content : String) :
    Moves Stays (insertText id before content) d fun _ _ => True := by
  have : Std.Refl Stays := ⟨updatesKeep_stays.refl⟩
  have : IsTrans Document Stays := ⟨fun _ _ _ => updatesKeep_stays.trans⟩
  refine (Edit.moves_create (R := Stays) fun _ _ => stays_allocate).bind fun text d₁ _ _ => ?_
  exact Edit.moves_apply fun _ => updatesKeep_stays.place

/-- The texts are removed first; then the new one is made, maybe in a slot of theirs. -/
theorem moves_ages_setDirectText (d : Document) (id : NodeId) (content : String) :
    Moves Ages (setDirectText id content) d fun _ _ => True := by
  cases hlive : d.contains id with
  | false => exact .of_error (setDirectText_of_dead (not_contains_iff.1 hlive)) (Std.Refl.refl d)
  | true =>
    refine .congr (setDirectText_of_live hlive) ?_
    refine (moves_fades_forM_remove d _).seq (Q := Stays) (fun _ d₁ _ _ => ?_)
      (fun _ => Fades.ages) fun _ _ => Fades.ages_of_stays
    split
    · exact moves_stays_insertText d₁ id _ content
    · have : Std.Refl Stays := ⟨updatesKeep_stays.refl⟩
      exact .pure trivial

/-- No call releases a slot twice. -/
theorem ages_perform (d : Document) (o : Operation) : d.Ages (o.perform d) := by
  suffices h : Moves Ages o.run d fun _ _ => True by
    rw [Moves] at h
    rw [Operation.perform, Edit.after]
    split at h <;> simp_all
  have hstays := updatesKeep_stays
  cases o with
  | createElement tag =>
    refine moves_discard (Std.Refl.refl d) fun id d' h => ?_
    rw [Document.createElement] at h
    split at h
    · exact (stays_allocate h).ages
    · cases h
  | createText content =>
    exact moves_discard (Std.Refl.refl d) fun _ _ h => (stays_allocate h).ages
  | setAttribute id name value => exact Edit.moves_apply fun _ h => (hstays.setAttribute h).ages
  | removeAttribute id name => exact Edit.moves_apply fun _ h => (hstays.removeAttribute h).ages
  | setDirectText id content => exact moves_ages_setDirectText d id content
  | append parent child => exact Edit.moves_apply fun _ h => (hstays.place h).ages
  | insertBefore parent child reference =>
    exact Edit.moves_apply fun _ h => (hstays.insertBefore h).ages
  | remove id => exact Edit.moves_apply fun _ h => (releasesKeep_fades.remove h).ages
  | setNote id key value => exact Edit.moves_apply fun _ h => (hstays.setNote h).ages

/-- The slot of an address has been released so often since a node was found there; if it has not
been released, the node is still there. -/
def Aged (d : Document) (x : NodeId) (count : Nat) : Prop :=
  ∃ a, d.slots[x.slot]? = some a ∧ a.generation = x.generation + UInt32.ofNat count ∧
    (count = 0 → d.contains x = true)

variable {count : Nat}

theorem Aged.of_contains (hx : d.contains x = true) : d.Aged x 0 := by
  obtain ⟨n, hn⟩ := contains_iff.1 hx
  obtain ⟨a, ha, hgeneration, -⟩ := node?_eq_some_iff.1 hn
  exact ⟨a, ha, by simpa using hgeneration, fun _ => hx⟩

theorem Aged.perform (h : d.Aged x count) (o : Operation) :
    (o.perform d).Aged x (count + o.releases d x.slot) := by
  obtain ⟨a, ha, hgeneration, hlive⟩ := h
  obtain ⟨b, hb, hcases⟩ := ages_perform d o x.slot a ha
  have hcount : o.releases d x.slot = if b.generation = a.generation then 0 else 1 := by
    simp only [Operation.releases, generation?, ha, hb, Option.map_some]
  rcases hcases with ⟨hsame, hlive'⟩ | hnext
  · rw [hcount, if_pos hsame]
    refine ⟨b, hb, hsame.trans hgeneration, fun hzero => ?_⟩
    obtain ⟨n, hn⟩ := contains_iff.1 (hlive hzero)
    obtain ⟨a', ha', hgeneration', hnode⟩ := node?_eq_some_iff.1 hn
    cases ha.symm.trans ha'
    obtain ⟨m, hm⟩ := Option.isSome_iff_exists.1 (hlive' (by rw [hnode]; rfl))
    exact contains_iff.2 ⟨m, node?_eq_some_iff.2 ⟨b, hb, hsame.trans hgeneration', hm⟩⟩
  · rw [hcount, hnext, if_neg (by simp)]
    refine ⟨b, hb, ?_, fun h => by omega⟩
    rw [hnext, hgeneration, UInt32.add_assoc]
    congr 1
    simp

theorem Aged.performFrom (h : d.Aged x count) (ops : List Operation) :
    (Operation.performFrom d ops).Aged x (count + Operation.releasesAll x.slot ops d) := by
  induction ops generalizing d count with
  | nil => exact h
  | cons o ops ih =>
    rw [Operation.releasesAll, ← Nat.add_assoc]
    exact ih (h.perform o)

/-- Short of a whole round of generations, nothing is found at the address of a released slot. -/
theorem Aged.contains_eq_false (h : d.Aged x count) (hpos : 0 < count) (hlt : count < 2 ^ 32) :
    d.contains x = false := by
  obtain ⟨a, ha, hgeneration, -⟩ := h
  by_contra hlive
  obtain ⟨n, hn⟩ := contains_iff.1 (Bool.not_eq_false _ ▸ hlive)
  obtain ⟨a', ha', hgeneration', -⟩ := node?_eq_some_iff.1 hn
  cases ha.symm.trans ha'
  have hzero : UInt32.ofNat count = 0 := by
    simpa using hgeneration.symm.trans hgeneration'
  have := congrArg UInt32.toNat hzero
  simp only [UInt32.toNat_ofNat', UInt32.toNat_zero] at this
  omega

/-- An address that finds nothing is that of a released slot, and does not find anything later. -/
theorem Aged.contains_perform_eq_false (h : d.Aged x count) (hdead : d.contains x = false)
    (o : Operation) (hlt : count + o.releases d x.slot < 2 ^ 32) :
    (o.perform d).contains x = false := by
  refine (h.perform o).contains_eq_false ?_ hlt
  obtain ⟨a, -, -, hlive⟩ := h
  by_contra hzero
  rw [hlive (by omega)] at hdead
  cases hdead

end Document
end LiveMarkup
