import LiveMarkup.Markup.Reader
import LiveMarkup.Proofs.Document.Edits

/-! Documents that are read. The reader works with the same edits as everyone else, so what these
keep holds of what it reads; it sets no notes, so what it reads bears none. -/
namespace LiveMarkup

namespace Document

variable {d d' : Document} {id p c r x : NodeId} {n : Node} {kind : NodeKind}
  {work : List NodeId}

/-- No node bears a note. -/
def Noteless (d : Document) : Prop := ∀ x n, d.node? x = some n → n.notes = []

theorem Noteless.of_node? (hd : d.Noteless) (h : ∀ x n, d'.node? x = some n →
    n.notes = [] ∨ ∃ m, d.node? x = some m ∧ n.notes = m.notes) : d'.Noteless := by
  intro x n hn
  obtain hnotes | ⟨m, hm, hnotes⟩ := h x n hn
  · exact hnotes
  · rw [hnotes, hd x m hm]

theorem Noteless.update (hd : d.Noteless) (id : NodeId) {f : Node → Node}
    (hf : ∀ n, (f n).notes = n.notes) : (d.update id f).Noteless := by
  refine hd.of_node? fun x n hn => Or.inr ?_
  rw [node?_update_eq_map] at hn
  obtain ⟨m, hm, rfl⟩ := Option.map_eq_some_iff.1 hn
  refine ⟨m, hm, ?_⟩
  split
  · exact hf m
  · rfl

theorem Noteless.detach (hd : d.Noteless) (id : NodeId) : (d.detach id).Noteless := by
  unfold Document.detach
  split
  · exact hd
  · refine Noteless.update (Noteless.update hd id ?_) _ ?_ <;> exact fun _ => rfl

theorem Noteless.attach (hd : d.Noteless) (p c : NodeId) (place : List NodeId → List NodeId) :
    (d.attach p c place).Noteless := by
  refine Noteless.update (Noteless.update hd c ?_) _ ?_ <;> exact fun _ => rfl

theorem node?_of_release (h : (d.release work).node? x = some n) : d.node? x = some n := by
  induction d, work using release_induction with
  | nil d => rwa [release_nil] at h
  | dead d id rest hid ih =>
    rw [release_dead hid] at h
    exact ih h
  | live d id rest m hid ih =>
    rw [release_live hid] at h
    have hold := ih h
    rw [node?_vacate hid] at hold
    split at hold
    · cases hold
    · exact hold

theorem Noteless.release (hd : d.Noteless) (work : List NodeId) : (d.release work).Noteless :=
  fun x n hn => hd x n (node?_of_release hn)

theorem Noteless.allocate (hd : d.Noteless) (hacc : d.Accounted)
    (h : d.allocate kind = .ok (id, d')) : d'.Noteless := by
  refine hd.of_node? fun x n hn => ?_
  rw [(node?_allocate hacc h).2] at hn
  split at hn
  · cases hn
    exact Or.inl rfl
  · exact Or.inr ⟨n, hn, rfl⟩

/-- What the reader has made so far. -/
structure Unnoted (tree : TreeId) (d : Document) : Prop where
  sound : d.Sound
  noteless : d.Noteless
  tree_eq : d.tree = tree

namespace Unnoted

variable {tree : TreeId}

theorem empty (tree : TreeId) : Unnoted tree (empty tree) where
  sound := .empty tree
  noteless x n hn := by
    rw [node?_empty, Option.ite_none_right_eq_some] at hn
    cases hn.2
    rfl
  tree_eq := rfl

theorem createElement (hd : d.Unnoted tree) {tag : String}
    (h : d.createElement tag = .ok (id, d')) : d'.Unnoted tree := by
  suffices hkept : d'.Noteless ∧ d'.tree = tree from ⟨hd.sound.createElement h, hkept.1, hkept.2⟩
  rw [Document.createElement] at h
  split at h
  · exact ⟨hd.noteless.allocate hd.sound.accounted h, (allocate_tree h).trans hd.tree_eq⟩
  · cases h

theorem createText (hd : d.Unnoted tree) {content : String}
    (h : d.createText content = .ok (id, d')) : d'.Unnoted tree :=
  ⟨hd.sound.createText h, hd.noteless.allocate hd.sound.accounted h,
    (allocate_tree h).trans hd.tree_eq⟩

theorem setAttribute (hd : d.Unnoted tree) {name value : String}
    (h : d.setAttribute id name value = .ok d') : d'.Unnoted tree := by
  suffices hkept : d'.Noteless ∧ d'.tree = tree from ⟨hd.sound.setAttribute h, hkept.1, hkept.2⟩
  rw [Document.setAttribute] at h
  split at h
  · cases h
  · split at h
    · cases h
    · cases h
      exact ⟨hd.noteless.update id fun _ => rfl, hd.tree_eq⟩
    · cases h

theorem append (hd : d.Unnoted tree) (h : d.append p c = .ok d') : d'.Unnoted tree := by
  suffices hkept : d'.Noteless ∧ d'.tree = tree from ⟨hd.sound.append h, hkept.1, hkept.2⟩
  obtain ⟨-, rfl⟩ := eq_of_place_eq_ok h
  exact ⟨(hd.noteless.detach c).attach p c _, by rw [attach_tree, detach_tree, hd.tree_eq]⟩

theorem insertBefore (hd : d.Unnoted tree) (h : d.insertBefore p c r = .ok d') :
    d'.Unnoted tree := by
  suffices hkept : d'.Noteless ∧ d'.tree = tree from ⟨hd.sound.insertBefore h, hkept.1, hkept.2⟩
  obtain rfl | h := insertBefore_eq_ok h
  · exact ⟨hd.noteless, hd.tree_eq⟩
  · obtain ⟨-, rfl⟩ := eq_of_place_eq_ok h
    exact ⟨(hd.noteless.detach c).attach p c _, by rw [attach_tree, detach_tree, hd.tree_eq]⟩

theorem remove (hd : d.Unnoted tree) (h : d.remove id = .ok d') : d'.Unnoted tree := by
  refine ⟨hd.sound.remove_ok h, ?_, (remove_tree h).trans hd.tree_eq⟩
  rw [Document.remove] at h
  split at h
  · cases h
  · split at h
    · cases h
      exact (hd.noteless.detach id).release _
    · cases h

end Unnoted

/-- What each edit that the reader makes keeps. -/
structure ReaderKeeps (P : Document → Prop) : Prop where
  createElement : ∀ {d d' id tag}, P d → d.createElement tag = .ok (id, d') → P d'
  createText : ∀ {d d' id content}, P d → d.createText content = .ok (id, d') → P d'
  setAttribute : ∀ {d d' id name value}, P d → d.setAttribute id name value = .ok d' → P d'
  append : ∀ {d d' p c}, P d → d.append p c = .ok d' → P d'
  insertBefore : ∀ {d d' p c r}, P d → d.insertBefore p c r = .ok d' → P d'
  remove : ∀ {d d' id}, P d → d.remove id = .ok d' → P d'

theorem Unnoted.readerKeeps (tree : TreeId) : ReaderKeeps (Unnoted tree) where
  createElement hd h := hd.createElement h
  createText hd h := hd.createText h
  setAttribute hd h := hd.setAttribute h
  append hd h := hd.append h
  insertBefore hd h := hd.insertBefore h
  remove hd h := hd.remove h

end Document

namespace Draft

variable {draft draft' : Draft} {node : NodeId} {P : Document → Prop}

theorem edit_eq_ok {change : Document → Except TreeError Document}
    (h : draft.edit change = .ok draft') : change draft.document = .ok draft'.document := by
  rw [edit] at h
  split at h
  · cases h
    assumption
  · cases h

/-- An element is made, its attributes are set, and then it is put in its place. -/
theorem addElement_eq_ok {position : Nat} {content : List Char} {r : NodeId × Draft}
    (h : draft.addElement position content = .ok r) : ∃ d₁ draft₁,
      draft.document.createElement (String.ofList (Markup.tagName content)) = .ok (r.1, d₁) ∧
      setAttributes position r.1 (Markup.tagAttributes content).1 { draft with document := d₁ } =
        .ok draft₁ ∧
      draft₁.document.append draft₁.parent r.1 = .ok r.2.document := by
  rw [addElement] at h
  split at h
  · cases h
  · next node₁ d₁ hmake =>
    obtain ⟨draft₁, hset, h⟩ := exists_of_bind_eq_ok h
    split at h
    · cases h
    · obtain ⟨draft₂, happend, h⟩ := exists_of_bind_eq_ok h
      cases h
      exact ⟨d₁, draft₁, hmake, hset, edit_eq_ok happend⟩

theorem setAttributes_keeps (hP : Document.ReaderKeeps P) {position : Nat}
    {attributes : List Markup.RawAttribute} (hd : P draft.document)
    (h : setAttributes position node attributes draft = .ok draft') : P draft'.document := by
  induction attributes generalizing draft with
  | nil =>
    cases h
    exact hd
  | cons a rest ih =>
    rw [setAttributes] at h
    split at h
    · cases h
    · obtain ⟨draft₁, hset, h⟩ := exists_of_bind_eq_ok h
      exact ih (hP.setAttribute hd (edit_eq_ok hset)) h

theorem addElement_keeps (hP : Document.ReaderKeeps P) {position : Nat} {content : List Char}
    {r : NodeId × Draft} (hd : P draft.document) (h : draft.addElement position content = .ok r) :
    P r.2.document := by
  obtain ⟨d₁, draft₁, hmake, hset, happend⟩ := addElement_eq_ok h
  exact hP.append (setAttributes_keeps hP (hP.createElement hd hmake) hset) happend

/-- A text changes nothing, takes the place of a longer one, or is put at the end. -/
theorem addText_keeps (hP : Document.ReaderKeeps P) {content : String} (hd : P draft.document)
    (h : draft.addText content = .ok draft') : P draft'.document := by
  simp only [addText] at h
  split at h
  · cases h
    exact hd
  · split at h
    · obtain ⟨⟨t, d₁⟩, hmake, hchange⟩ := exists_of_bind_eq_ok (edit_eq_ok h)
      obtain ⟨d₂, hinsert, hremove⟩ := exists_of_bind_eq_ok hchange
      exact hP.remove (hP.insertBefore (hP.createText hd hmake) hinsert) hremove
    · obtain ⟨⟨t, d₁⟩, hmake, happend⟩ := exists_of_bind_eq_ok (edit_eq_ok h)
      exact hP.append (hP.createText hd hmake) happend

theorem step_keeps (hP : Document.ReaderKeeps P) {e : Markup.Located} (hd : P draft.document)
    (h : draft.step e = .ok draft') : P draft'.document := by
  obtain ⟨position, event⟩ := e
  cases event with
  | text raw =>
    simp only [step] at h
    split at h
    · cases h
    · exact addText_keeps hP hd h
  | data content => exact addText_keeps hP hd h
  | opening content =>
    obtain ⟨⟨node, draft₁⟩, hadd, h⟩ := exists_of_bind_eq_ok h
    cases h
    exact addElement_keeps hP hd hadd
  | empty content =>
    obtain ⟨⟨node, draft₁⟩, hadd, h⟩ := exists_of_bind_eq_ok h
    cases h
    exact addElement_keeps hP hd hadd
  | closing name =>
    simp only [step, close] at h
    split at h
    · cases h
    · split at h
      · cases h
        exact hd
      · cases h
  | skipped =>
    cases h
    exact hd

theorem foldlM_step_keeps (hP : Document.ReaderKeeps P) {events : List Markup.Located}
    (hd : P draft.document) (h : events.foldlM step draft = .ok draft') : P draft'.document := by
  induction events generalizing draft with
  | nil =>
    cases h
    exact hd
  | cons e events ih =>
    obtain ⟨draft₁, hstep, h⟩ := exists_of_bind_eq_ok (List.foldlM_cons.symm.trans h)
    exact ih (step_keeps hP hd hstep) h

end Draft

/-- What the reader's edits keep holds of all that it reads. -/
theorem Document.ReaderKeeps.read {P : Document → Prop} (hP : ReaderKeeps P) {tree : TreeId}
    {text : String} {d : Document} (hempty : P (.empty tree)) (h : read tree text = .ok d) :
    P d := by
  obtain ⟨draft, hrun, h⟩ := exists_of_bind_eq_ok h
  split at h
  · cases h
  · rw [Draft.finish] at h
    split at h
    · cases h
      exact Draft.foldlM_step_keeps hP hempty hrun
    · cases h

/-- A document that is read is sound and bears no notes. -/
theorem Document.read_unnoted {tree : TreeId} {text : String} {d : Document}
    (h : read tree text = .ok d) : d.Unnoted tree :=
  (Unnoted.readerKeeps tree).read (.empty tree) h

end LiveMarkup
