import LiveMarkup.Proofs.Moves
import LiveMarkup.Proofs.Document.Operation
import LiveMarkup.Proofs.Document.Reading

/-! The documents that calls can make: new ones, copies, and what calls make of them, failing calls
included. Every document that is read is one of them. -/
namespace LiveMarkup

/-- The document after calls, one after another. -/
def Operation.performFrom (d : Document) (ops : List Operation) : Document :=
  ops.foldl (fun d o => o.perform d) d

namespace Document

variable {d d' d₁ : Document} {id p c r : NodeId} {o : Operation}

/-- Calls make the second document of the first. -/
def Derives (d d' : Document) : Prop := ∃ ops, Operation.performFrom d ops = d'

namespace Derives

instance : Std.Refl Derives := ⟨fun _ => ⟨[], rfl⟩⟩

instance : IsTrans Document Derives where
  trans d₁ d₂ d₃ := by
    rintro ⟨ops, rfl⟩ ⟨ops', rfl⟩
    exact ⟨ops ++ ops', List.foldl_append⟩

theorem perform (d : Document) (o : Operation) : d.Derives (o.perform d) := ⟨[o], rfl⟩

theorem sound (h : d.Derives d') (hd : d.Sound) : d'.Sound := by
  obtain ⟨ops, rfl⟩ := h
  induction ops generalizing d with
  | nil => exact hd
  | cons o ops ih => exact ih (hd.perform o)

theorem of_apply {f : Document → Except TreeError Document} (ho : o.run = Edit.apply f)
    (h : f d = .ok d') : d.Derives d' :=
  ⟨[o], by simp only [Operation.performFrom, List.foldl, Operation.perform, ho, Edit.after,
    Edit.apply, h]⟩

theorem of_create {f : Document → Except TreeError (NodeId × Document)}
    (ho : o.run = discard (Edit.create f)) (h : f d = .ok (id, d')) : d.Derives d' :=
  ⟨[o], by simp only [Operation.performFrom, List.foldl, Operation.perform, ho, Edit.after,
    discard_create, h]⟩

theorem createElement {tag : String} (h : d.createElement tag = .ok (id, d')) : d.Derives d' :=
  of_create (o := .createElement tag) rfl h

theorem createText {content : String} (h : d.createText content = .ok (id, d')) : d.Derives d' :=
  of_create (o := .createText content) rfl h

theorem setAttribute {name value : String} (h : d.setAttribute id name value = .ok d') :
    d.Derives d' :=
  of_apply (o := .setAttribute id name value) rfl h

theorem append (h : d.append p c = .ok d') : d.Derives d' :=
  of_apply (o := .append p c) rfl h

theorem insertBefore (h : d.insertBefore p c r = .ok d') : d.Derives d' :=
  of_apply (o := .insertBefore p c r) rfl h

theorem remove (h : d.remove id = .ok d') : d.Derives d' :=
  of_apply (o := .remove id) rfl h

theorem setNote {key value : String} (h : d.setNote id key value = .ok d') : d.Derives d' :=
  of_apply (o := .setNote id key value) rfl h

theorem setDirectText (d : Document) (id : NodeId) (content : String) :
    Moves Derives (Document.setDirectText id content) d fun _ _ => True := by
  have h := perform d (.setDirectText id content)
  rw [Operation.perform, Operation.run, Edit.after] at h
  rw [Moves]
  split at h <;> simp_all

theorem readerKeeps (d₀ : Document) : ReaderKeeps d₀.Derives where
  createElement hd h := IsTrans.trans _ _ _ hd (createElement h)
  createText hd h := IsTrans.trans _ _ _ hd (createText h)
  setAttribute hd h := IsTrans.trans _ _ _ hd (setAttribute h)
  append hd h := IsTrans.trans _ _ _ hd (append h)
  insertBefore hd h := IsTrans.trans _ _ _ hd (insertBefore h)
  remove hd h := IsTrans.trans _ _ _ hd (remove h)

end Derives

/-- A document is read by calls that make it of an empty one. -/
theorem derives_of_read {tree : TreeId} {text : String} (h : read tree text = .ok d) :
    (empty tree).Derives d :=
  (Derives.readerKeeps _).read (Std.Refl.refl _) h

/-- What changes of single nodes keep to. -/
structure UpdatesKeep (R : Document → Document → Prop) : Prop where
  refl : ∀ d, R d d
  trans : ∀ {d₁ d₂ d₃}, R d₁ d₂ → R d₂ d₃ → R d₁ d₃
  update : ∀ d id f, R d (d.update id f)

/-- What changes of single nodes and giving slots back keep to. -/
structure ReleasesKeep (R : Document → Document → Prop) : Prop extends UpdatesKeep R where
  vacate : ∀ {d id n}, d.node? id = some n → R d (d.vacate id)

/-- What the smallest steps of calls keep to. -/
structure StepsKeep (R : Document → Document → Prop) : Prop extends ReleasesKeep R where
  allocate : ∀ {d d' kind id}, d.allocate kind = .ok (id, d') → R d d'

variable {R : Document → Document → Prop}

namespace UpdatesKeep

theorem detach (hR : UpdatesKeep R) (d : Document) (id : NodeId) : R d (d.detach id) := by
  unfold Document.detach
  split
  · exact hR.refl d
  · exact hR.trans (hR.update d id _) (hR.update _ _ _)

theorem attach (hR : UpdatesKeep R) (d : Document) (p c : NodeId)
    (place : List NodeId → List NodeId) : R d (d.attach p c place) :=
  hR.trans (hR.update d c _) (hR.update _ _ _)

theorem place (hR : UpdatesKeep R) {place : List NodeId → List NodeId}
    (h : (do
      d.checkPlacement p c
      Pure.pure ((d.detach c).attach p c place)) = Except.ok d') : R d d' := by
  obtain ⟨-, rfl⟩ := eq_of_place_eq_ok h
  exact hR.trans (hR.detach d c) (hR.attach _ _ _ _)

theorem insertBefore (hR : UpdatesKeep R) (h : d.insertBefore p c r = .ok d') : R d d' := by
  obtain rfl | h := insertBefore_eq_ok h
  · exact hR.refl _
  · exact hR.place h

theorem setAttribute (hR : UpdatesKeep R) {name value : String}
    (h : d.setAttribute id name value = .ok d') : R d d' := by
  rw [Document.setAttribute] at h
  split at h
  · cases h
  · split at h
    · cases h
    · cases h
      exact hR.update ..
    · cases h

theorem removeAttribute (hR : UpdatesKeep R) {name : String}
    (h : d.removeAttribute id name = .ok d') : R d d' := by
  rw [Document.removeAttribute] at h
  split at h
  · cases h
  · cases h
    exact hR.update ..
  · cases h
    exact hR.refl d

theorem setNote (hR : UpdatesKeep R) {key value : String}
    (h : d.setNote id key value = .ok d') : R d d' := by
  rw [Document.setNote] at h
  split at h
  · cases h
    exact hR.update ..
  · cases h

end UpdatesKeep

namespace ReleasesKeep

theorem release (hR : ReleasesKeep R) (d : Document) (work : List NodeId) :
    R d (d.release work) := by
  induction d, work using release_induction with
  | nil d =>
    rw [release_nil]
    exact hR.refl d
  | dead d id rest hid ih => rwa [release_dead hid]
  | live d id rest n hid ih =>
    rw [release_live hid]
    exact hR.trans (hR.vacate hid) ih

theorem remove (hR : ReleasesKeep R) (h : d.remove id = .ok d') : R d d' := by
  rw [Document.remove] at h
  split at h
  · cases h
  · split at h
    · cases h
      exact hR.trans (hR.detach d id) (hR.release _ _)
    · cases h

end ReleasesKeep

theorem moves_discard {f : Document → Except TreeError (NodeId × Document)} (hrefl : R d d)
    (h : ∀ id d', f d = .ok (id, d') → R d d') :
    Moves R (discard (Edit.create f) : Edit Unit) d fun _ _ => True := by
  rw [Moves, discard_create]
  cases hf : f d with
  | ok r => exact ⟨h r.1 r.2 hf, trivial⟩
  | error e => exact hrefl

/-- Replacing texts takes the old ones away, makes the new one and places it. -/
theorem moves_setDirectText [Std.Refl R] [IsTrans Document R] {content : String}
    (hremove : ∀ text ∈ d.childTexts id, ∀ {d₁ d₂}, R d d₁ → d₁.remove text = .ok d₂ → R d₁ d₂)
    (hinsert : ∀ {d₁ d₂ text}, R d d₁ → d₁.createText content = .ok (text, d₂) → R d₁ d₂ ∧
      ∀ {d₃ place}, (∀ l, (place l).Perm (text :: l)) → (do
        d₂.checkPlacement id text
        Pure.pure ((d₂.detach text).attach id text place)) = Except.ok d₃ → R d₂ d₃) :
    Moves R (Document.setDirectText id content) d fun _ _ => True := by
  cases hlive : d.contains id with
  | false => exact .of_error (setDirectText_of_dead (not_contains_iff.1 hlive)) (Std.Refl.refl d)
  | true =>
    refine .congr (setDirectText_of_live hlive) ?_
    have hloop : Moves R ((d.childTexts id).forM fun text => Edit.apply (·.remove text)) d
        fun _ _ => True :=
      .forM fun text htext _ hR => Edit.moves_apply fun _ => hremove text htext hR
    refine hloop.bind fun _ d₁ hR _ => ?_
    split
    · refine (Edit.moves_create fun _ _ hmake => (hinsert hR hmake).1).bind
        fun text d₂ _ hmake => Edit.moves_apply fun d₃ => (hinsert hR hmake).2 fun l => ?_
      exact List.perm_middle.trans (by rw [List.take_append_drop])
    · exact .pure trivial

namespace StepsKeep

theorem createElement (hR : StepsKeep R) {tag : String}
    (h : d.createElement tag = .ok (id, d')) : R d d' := by
  rw [Document.createElement] at h
  split at h
  · exact hR.allocate h
  · cases h

theorem setDirectText (hR : StepsKeep R) (d : Document) (id : NodeId) (content : String) :
    Moves R (Document.setDirectText id content) d fun _ _ => True := by
  have : Std.Refl R := ⟨hR.refl⟩
  have : IsTrans Document R := ⟨fun _ _ _ => hR.trans⟩
  exact moves_setDirectText (fun _ _ _ _ _ => hR.remove) fun _ hmake =>
    ⟨hR.allocate hmake, fun _ => hR.place⟩

/-- Every call is made of such steps. -/
theorem perform (hR : StepsKeep R) (d : Document) (o : Operation) : R d (o.perform d) := by
  have : Std.Refl R := ⟨hR.refl⟩
  suffices h : Moves R o.run d fun _ _ => True by
    rw [Moves] at h
    rw [Operation.perform, Edit.after]
    split at h <;> simp_all
  cases o with
  | createElement tag => exact moves_discard (hR.refl d) fun _ _ => hR.createElement
  | createText content => exact moves_discard (hR.refl d) fun _ _ => hR.allocate
  | setAttribute id name value => exact Edit.moves_apply fun _ => hR.setAttribute
  | removeAttribute id name => exact Edit.moves_apply fun _ => hR.removeAttribute
  | setDirectText id content => exact hR.setDirectText d id content
  | append parent child => exact Edit.moves_apply fun _ => hR.place
  | insertBefore parent child reference => exact Edit.moves_apply fun _ => hR.insertBefore
  | remove id => exact Edit.moves_apply fun _ => hR.remove
  | setNote id key value => exact Edit.moves_apply fun _ => hR.setNote

end StepsKeep

/-- The identity of a document plays no part in its soundness. -/
theorem Sound.copy (hd : d.Sound) (tree : TreeId) : (d.copy tree).Sound :=
  ⟨hd.root, hd.child, hd.parent, hd.nodup, hd.valid, hd.grounded,
    ⟨hd.accounted.nodup, hd.accounted.mem_iff⟩⟩

/-- The documents that calls can make. -/
inductive Reachable : Document → Prop
  | empty (tree : TreeId) : Reachable (empty tree)
  | copy {d : Document} (tree : TreeId) (h : Reachable d) : Reachable (d.copy tree)
  | perform {d : Document} (o : Operation) (h : Reachable d) : Reachable (o.perform d)

namespace Reachable

theorem of_derives (hd : d.Reachable) (h : d.Derives d') : d'.Reachable := by
  obtain ⟨ops, rfl⟩ := h
  induction ops generalizing d with
  | nil => exact hd
  | cons o ops ih => exact ih (hd.perform o)

theorem of_read {tree : TreeId} {text : String} (h : read tree text = .ok d) : d.Reachable :=
  (empty tree).of_derives (derives_of_read h)

theorem sound (hd : d.Reachable) : d.Sound := by
  induction hd with
  | empty tree => exact .empty tree
  | copy tree _ ih => exact ih.copy tree
  | perform o _ ih => exact ih.perform o

/-- No document has more slots than there are numbers for them. -/
theorem size_le (hd : d.Reachable) : d.slots.size ≤ slotLimit := by
  induction hd with
  | empty tree => exact Nat.le_of_lt (Nat.lt_of_lt_of_le Nat.one_lt_two (by decide))
  | copy tree _ ih => exact ih
  | @perform d o _ ih =>
    have hsteps : StepsKeep fun d d' => d.slots.size ≤ slotLimit → d'.slots.size ≤ slotLimit := {
      refl := fun _ h => h
      trans := fun h h' hd => h' (h hd)
      allocate := fun {d d' kind id} hmake hd => by
        unfold allocate at hmake
        split at hmake
        · split at hmake
          · cases hmake
            simpa using hd
          · cases hmake
        · split at hmake
          · cases hmake
            rw [Array.size_push]
            assumption
          · cases hmake
      update := fun d id f hd => by rwa [update_slots_size]
      vacate := fun _ hd => by simpa [vacate] using hd }
    exact hsteps.perform d o ih

end Reachable

end Document
end LiveMarkup
