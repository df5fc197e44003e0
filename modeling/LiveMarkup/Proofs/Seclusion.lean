import LiveMarkup.Proofs.Cached
import LiveMarkup.Proofs.Document.Rooted
import LiveMarkup.Proofs.Registry

/-! Work secluded from other documents. Where no directive is a recursive template, all that a
rendering takes from an engine are its settings and the cached templates of nodes of the document,
and all that it leaves in the engine are such templates. -/
namespace LiveMarkup

variable {s : Settings} {d d' : Document}

namespace Shape

/-- What the nodes of shapes are asked, one shape after another. -/
theorem nonrecursiveAll_iff_of_forall {kids : List Shape} {asked : NodeId → Prop}
    (h : ∀ x ∈ kids, Tree.NonrecursiveAll s x.trees ↔ ∀ id ∈ x.ids, asked id) :
    Tree.NonrecursiveAll s (treesAll kids) ↔ ∀ id ∈ idsAll kids, asked id := by
  induction kids with
  | nil => simp [treesAll, idsAll, Tree.NonrecursiveAll]
  | cons x kids ih =>
    rw [List.forall_mem_cons] at h
    rw [treesAll, Tree.nonrecursiveAll_append, idsAll, List.forall_mem_append, h.1, ih h.2]

theorem In.nonrecursiveAll_iff {x : Shape} {p : Option NodeId} (hd : d.Sound) (hx : x.In d p) :
    Tree.NonrecursiveAll s x.trees ↔ ∀ id ∈ x.ids, d.directive? s id ≠ some .recursive := by
  induction x generalizing p with
  | mk id kind notes kids ih =>
    have hkids := nonrecursiveAll_iff_of_forall fun c hc => ih c hc (inAll_iff.1 hx.2 c hc)
    rw [ids, List.forall_mem_cons, ← hkids]
    cases kind with
    | root => simp [trees, Document.directive?, Document.tagName?, hx.1]
    | element tag attributes =>
      rw [trees, Document.directive?_eq hx]
      exact Iff.of_eq (and_true _)
    | text content =>
      have hnone : kids.map Shape.id = [] := hd.valid hx.1
      obtain rfl := List.map_eq_nil_iff.1 hnone
      simp [trees, treesAll, Tree.NonrecursiveAll, Tree.Nonrecursive, Document.directive?,
        Document.tagName?, hx.1]

end Shape

/-- What is compiled where there are no recursive templates. -/
structure Template.Quiet (s : Settings) (t : Template) : Prop where
  plain : t.Plain s
  nonrecursive : t.Nonrecursive

/-- No directive asks for a recursive template. -/
structure Document.Quiet (s : Settings) (d : Document) : Prop where
  sound : d.Sound
  nonrecursive : ∀ x, d.directive? s x ≠ some .recursive

namespace Document

/-- Where nothing is loose, what is shown tells whether there are recursive templates. -/
theorem Rooted.quiet (h : d.Rooted) (hd : d.Sound) (hnone : Tree.NonrecursiveAll s d.content) :
    d.Quiet s := by
  obtain ⟨notes, kids, hs, hcontent⟩ := hd.exists_content
  refine ⟨hd, fun x hx => ?_⟩
  have hlive := contains_of_directive? (Option.isSome_of_eq_some hx)
  rw [hcontent] at hnone
  exact (hs.nonrecursiveAll_iff hd).1 hnone x ((hd.rooted_iff_ids hs rfl).1 h x hlive) hx

theorem Quiet.inherits (h : d.Quiet s) (h' : d.Inherits s d') : d'.Quiet s :=
  ⟨h'.sound h.sound, fun x hx => h.nonrecursive x (h'.directive x _ hx)⟩

theorem Quiet.template {id : NodeId} {t : Template} (h : d.Quiet s)
    (ht : d.template? s id = some t) : t.Quiet s := by
  refine ⟨Template.plain_of_template? ht, ?_⟩
  obtain ⟨x, -, hx, hmem⟩ := h.sound.exists_of_template? ht
  have htrees := (hx.nonrecursiveAll_iff h.sound).2 fun y _ => h.nonrecursive y
  exact Template.nonrecursiveAll_iff.1 (Template.nonrecursiveAll_compileAll s _ htrees) t hmem

theorem expansionKeeps_inherits (s : Settings) :
    ExpansionKeeps s (Inherits s) (Quiet s) (fun _ _ => True) (Template.Quiet s) where
  inv h hd := hd.inherits h
  new _ _ := trivial
  good_of_mem ht hu := ⟨ht.plain.of_mem hu, ht.nonrecursive.of_mem hu⟩
  good_of_compiled := Quiet.template
  createElement hd ht h := by
    cases ht.plain with
    | element htag _ => exact ⟨.createElement hd.sound htag h, trivial⟩
  setNote hd _ := .setNote hd.sound
  setDirectText hd _ content := Inherits.setDirectText hd.sound _ content
  setAttribute hd _ := .setAttribute hd.sound
  append hd _ _ := .append hd.sound

end Document

/-- Two caches hold the same for the nodes of one document. -/
def Cache.SameFor (tree : TreeId) (c c' : Cache) : Prop :=
  ∀ id, Entries.get? (tree, id) c'.entries = Entries.get? (tree, id) c.entries

/-- Two caches hold the same but for the nodes of one document. -/
def Cache.SameBut (tree : TreeId) (c c' : Cache) : Prop :=
  ∀ key : TreeId × NodeId, key.1 ≠ tree → Entries.get? key c'.entries = Entries.get? key c.entries

/-- Nothing has come to the engine but templates in the cache, and none for nodes of the document is
recursive. -/
structure Stage.Quiet (s : Settings) (a : Stage) : Prop where
  engine : a.engine = { Engine.ofSettings s with cache := a.engine.cache }
  document : a.document.Quiet s
  entry : ∀ id t, Entries.get? (a.document.tree, id) a.engine.cache.entries = some t → t.Quiet s

/-- Two stages with one document, told apart by what the caches hold for others. -/
structure Stage.Twins (s : Settings) (a b : Stage) : Prop where
  left : a.Quiet s
  right : b.Quiet s
  document : b.document = a.document
  cache : a.engine.cache.SameFor a.document.tree b.engine.cache

/-- A stage has become another, and what the cache holds for other documents is as it was. -/
structure Stage.Minds (a a' : Stage) : Prop where
  tree : a'.document.tree = a.document.tree
  cache : a.engine.cache.SameBut a.document.tree a'.engine.cache

namespace Stage

variable {a b a' : Stage}

theorem Minds.refl (a : Stage) : a.Minds a := ⟨rfl, fun _ _ => rfl⟩

theorem Minds.trans {a'' : Stage} (h : a.Minds a') (h' : a'.Minds a'') : a.Minds a'' :=
  ⟨h'.tree.trans h.tree, fun key hkey =>
    (h'.cache key (by rwa [h.tree])).trans (h.cache key hkey)⟩

theorem Quiet.twins (h : a.Quiet s) : Twins s a a := ⟨h, h, rfl, fun _ => rfl⟩

/-- Another cache makes no difference if it holds the same for the nodes of the document. -/
theorem Twins.of_cache {engine engine' : Engine} (h : Twins s a ⟨engine, d⟩)
    (hengine : engine' = { Engine.ofSettings s with cache := engine'.cache })
    (hcache : engine.cache.SameFor d.tree engine'.cache) : Twins s a ⟨engine', d⟩ := by
  have hd : d = a.document := h.document
  refine ⟨h.left, ⟨hengine, h.right.document, fun id t ht => ?_⟩, hd, fun id => ?_⟩
  · exact h.right.entry id t ((hcache id).symm.trans ht)
  · rw [← h.cache id, ← hd]
    exact hcache id

/-- With one document, only the caches can differ. -/
theorem Quiet.eq_withCache (h : a.Quiet s) (h' : b.Quiet s) (hd : b.document = a.document) :
    b = a.withCache b.engine.cache := by
  obtain ⟨engine, d⟩ := a
  obtain ⟨engine', d'⟩ := b
  obtain rfl : d' = d := hd
  have hleft : engine = _ := h.engine
  have hright : engine' = _ := h'.engine
  rw [withCache, hleft, hright]

theorem Twins.eq_withCache (h : Twins s a b) : b = a.withCache b.engine.cache :=
  h.left.eq_withCache h.right h.document

theorem Quiet.edit (h : a.Quiet s) (hd : a.document.Inherits s d') :
    Quiet s { a with document := d' } :=
  ⟨h.engine, h.document.inherits hd, fun id t ht => h.entry id t (by rwa [← hd.tree])⟩

theorem Twins.edit (h : Twins s a b) (hd : a.document.Inherits s d') :
    Twins s { a with document := d' } { b with document := d' } :=
  ⟨h.left.edit hd, h.right.edit (by rwa [h.document]), rfl, fun id => by
    have hid := h.cache id
    rwa [← hd.tree] at hid⟩

theorem Quiet.settings (h : a.Quiet s) : a.engine.settings = s := by
  rw [h.engine]
  rfl

theorem Quiet.lookUp_fst (h : a.Quiet s) (id : NodeId) : (a.lookUp id).1 =
    (Entries.get? (a.document.tree, id) a.engine.cache.entries).or (a.document.template? s id) := by
  rw [lookUp, Cache.getOrCompile_fst, h.settings]

theorem Quiet.of_lookUp (h : a.Quiet s) {id : NodeId} {t : Template}
    (ht : (a.lookUp id).1 = some t) : t.Quiet s := by
  rw [h.lookUp_fst, Option.or_eq_some_iff] at ht
  rcases ht with hfound | ⟨-, hcompiled⟩
  · exact h.entry id t hfound
  · exact h.document.template hcompiled

theorem Quiet.lookUp (h : a.Quiet s) (id : NodeId) : (a.withCache (a.lookUp id).2).Quiet s := by
  refine ⟨?_, h.document, fun id' t ht => ?_⟩
  · rw [withCache, h.engine]
  · rw [withCache, get?_lookUp] at ht
    split at ht
    · exact h.of_lookUp ht
    · exact h.entry id' t ht

theorem Twins.lookUp_fst (h : Twins s a b) (id : NodeId) : (b.lookUp id).1 = (a.lookUp id).1 := by
  rw [h.left.lookUp_fst, h.right.lookUp_fst, h.document, h.cache id]

theorem Twins.lookUp (h : Twins s a b) (id : NodeId) :
    Twins s (a.withCache (a.lookUp id).2) (b.withCache (b.lookUp id).2) := by
  refine ⟨h.left.lookUp id, h.right.lookUp id, h.document, fun id' => ?_⟩
  rw [withCache, withCache, get?_lookUp, get?_lookUp, h.lookUp_fst, h.document, h.cache id']

theorem minds_lookUp (a : Stage) (id : NodeId) : a.Minds (a.withCache (a.lookUp id).2) := by
  refine ⟨rfl, fun key hkey => ?_⟩
  rw [withCache, get?_lookUp, if_neg]
  rintro rfl
  exact hkey rfl

end Stage

variable {α β : Type}

/-- Work ends on two stages with one result and with twins again, and what the caches hold for other
documents is as it was. -/
inductive Stage.EndAlike (s : Settings) (a b : Stage) :
    EStateM.Result TreeError Stage α → EStateM.Result TreeError Stage α → Prop
  | ok {x : α} {a' b' : Stage} (h : Twins s a' b') (hleft : a.Minds a') (hright : b.Minds b') :
    EndAlike s a b (.ok x a') (.ok x b')
  | error {e : TreeError} {a' b' : Stage} (h : Twins s a' b') (hleft : a.Minds a')
    (hright : b.Minds b') : EndAlike s a b (.error e a') (.error e b')

theorem Stage.EndAlike.of_minds {a a₁ b b₁ : Stage} {r r' : EStateM.Result TreeError Stage α}
    (h : EndAlike s a₁ b₁ r r') (hleft : a.Minds a₁) (hright : b.Minds b₁) :
    EndAlike s a b r r' := by
  cases h with
  | ok h hleft' hright' => exact .ok h (hleft.trans hleft') (hright.trans hright')
  | error h hleft' hright' => exact .error h (hleft.trans hleft') (hright.trans hright')

/-- On stages that are told apart by what caches hold for other documents only, the work does the
same, and leaves what they hold for others. -/
def Secluded (s : Settings) (work : Pass α) : Prop :=
  ∀ a b : Stage, Stage.Twins s a b → Stage.EndAlike s a b (work a) (work b)

namespace Secluded

theorem pure (x : α) : Secluded s (pure x) := fun _ _ h => .ok h (.refl _) (.refl _)

theorem bind {work : Pass α} {next : α → Pass β} (h : Secluded s work)
    (hnext : ∀ x, Secluded s (next x)) : Secluded s (work >>= next) := by
  intro a b htwins
  have hwork := h a b htwins
  generalize hrun : work a = r, hrun' : work b = r' at hwork
  cases hwork with
  | ok htwins₁ hleft hright =>
    rw [bind_eq_of_ok hrun, bind_eq_of_ok hrun']
    exact (hnext _ _ _ htwins₁).of_minds hleft hright
  | error htwins₁ hleft hright =>
    rw [bind_eq_of_error hrun, bind_eq_of_error hrun']
    exact .error htwins₁ hleft hright

/-- Work that looks at the stage first, but not at its cache. -/
theorem look {next : Stage → Pass α} (h : ∀ stage, Secluded s (next stage))
    (hsame : ∀ stage cache, next (stage.withCache cache) = next stage) :
    Secluded s (get >>= next) := by
  intro a b htwins
  have hnext : next b = next a := by rw [htwins.eq_withCache, hsame]
  have hother : (get >>= next) b = next a b := congrFun hnext b
  rw [hother]
  exact h a a b htwins

theorem edit {change : Edit α}
    (h : ∀ d : Document, d.Quiet s → Moves (Document.Inherits s) change d fun _ _ => True) :
    Secluded s (Pass.edit change) := by
  intro a b htwins
  have hchange := h a.document htwins.left.document
  have hminds : ∀ {c : Stage} {d'}, c.document = a.document → a.document.Inherits s d' →
      c.Minds { c with document := d' } :=
    fun hc hd => ⟨hd.tree.trans (congrArg _ hc.symm), fun _ _ => rfl⟩
  rw [Moves] at hchange
  rw [Pass.edit, Pass.edit, htwins.document]
  split at hchange
  · next x d' hrun =>
    rw [hrun]
    exact .ok (htwins.edit hchange.1) (hminds rfl hchange.1) (hminds htwins.document hchange.1)
  · next e d' hrun =>
    rw [hrun]
    exact .error (htwins.edit hchange) (hminds rfl hchange) (hminds htwins.document hchange)

theorem apply {f : Document → Except TreeError Document}
    (h : ∀ {d d' : Document}, d.Sound → f d = .ok d' → d.Inherits s d') :
    Secluded s (Pass.apply f) :=
  edit fun _ hd => Edit.moves_apply fun _ => h hd.sound

/-- The edits of passes bring no recursive templates into documents without. -/
theorem closed (s : Settings) : Pass.Closed (Template.Quiet s) (Secluded s) where
  good_of_mem := (Document.expansionKeeps_inherits s).good_of_mem
  pure := pure
  bind := bind
  look := look
  createElement ht := edit fun _ hd => (Edit.moves_create fun _ _ h =>
    ((Document.expansionKeeps_inherits s).createElement hd ht h).1).mono (fun _ h => h)
      fun _ _ _ => trivial
  setDirectText _ _ := edit fun _ hd => Document.Inherits.setDirectText hd.sound _ _
  setNote _ _ _ := apply .setNote
  setAttribute _ _ _ := apply .setAttribute
  fill _ _ _ := edit fun _ hd => (Document.expansionKeeps_inherits s).fill hd trivial
  append _ _ := apply .append
  insertBefore _ _ _ := apply .insertBefore
  remove _ := apply .remove

variable {model : Value} {scope : Scope}

theorem expand {t : Template} (ht : t.Quiet s) : Secluded s (Pass.expand t model scope) :=
  look (fun _ => (closed s).expand (fun hquiet => hquiet.nonrecursive.elim) ht scope) fun _ _ => rfl

/-- Both caches give the same template, and the same entry is left for it. -/
theorem expandNode (id : NodeId) : Secluded s (Pass.expandNode id model scope) := by
  intro a b htwins
  have hgiven : (b.lookUp id).1 = (a.lookUp id).1 := htwins.lookUp_fst id
  have hquiet : ∀ t, (a.lookUp id).1 = some t → t.Quiet s := fun t ht => htwins.left.of_lookUp ht
  have hlooked := htwins.lookUp id
  rw [Pass.expandNode_eq, Pass.expandNode_eq, hgiven]
  refine Stage.EndAlike.of_minds ?_ (a.minds_lookUp id) (b.minds_lookUp id)
  cases hfound : (a.lookUp id).1 with
  | none => exact pure [] _ _ hlooked
  | some t => exact expand (hquiet t hfound) _ _ hlooked

/-- A quiet stage is at depth zero as it is. -/
theorem start : Secluded s (Pass.modifyEngine fun e => { e with depth := 0 }) := by
  intro a b htwins
  have hsame : ∀ {c : Stage}, c.Quiet s →
      Pass.modifyEngine (fun e => { e with depth := 0 }) c = .ok () c := by
    rintro ⟨engine, d⟩ hc
    have hengine : engine = _ := hc.engine
    rw [hengine]
    rfl
  rw [hsame htwins.left, hsame htwins.right]
  exact .ok htwins (.refl a) (.refl b)

/-- Renderings mind their own document. -/
theorem render (root : NodeId) (model : Value) (scope : Scope) :
    Secluded s (Pass.render root model scope) :=
  (closed s).render expandNode start root

end Secluded
end LiveMarkup
