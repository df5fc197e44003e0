import LiveMarkup.Proofs.Fits
import LiveMarkup.Proofs.Visits

/-! Rendering an anchor, seen from its parent: the run before it makes way for the shapes of the new
expansion, and the anchor is hidden; nothing else changes. -/
namespace LiveMarkup

def Shape.isElement : Shape → Bool
  | ⟨_, .element _ _, _, _⟩ => true
  | _ => false

namespace Document

variable {s : Settings} {d : Document} {id q : NodeId} {p : Option NodeId} {kind : NodeKind}
  {tag : String} {attributes notes : List (String × String)} {kids before run after : List Shape}
  {x a : Shape}

theorem isGenerated_eq (hx : x.In d p) : d.isGenerated s x.id = x.isMarked s := by
  obtain ⟨id, kind, notes, kids⟩ := x
  cases kind <;> simp [isGenerated, attribute?, attributes, hx.1, Shape.isMarked, Entries.get?]

theorem isGenerated_eq_false
    (hx : (⟨id, .element tag attributes, notes, kids⟩ : Shape).In d p)
    (hmark : Entries.get? s.generatedAttribute attributes ≠ some "true") :
    d.isGenerated s id = false :=
  (isGenerated_eq hx).trans (beq_false_of_ne hmark)

theorem directive?_eq (hs : (⟨id, .element tag attributes, notes, kids⟩ : Shape).In d p) :
    d.directive? s id = s.directive? tag := by
  rw [directive?, tagName?, hs.1]
  rfl

theorem Sound.elementTree?_eq (hd : d.Sound)
    (hs : (⟨id, .element tag attributes, notes, kids⟩ : Shape).In d p) :
    d.elementTree? id = some (.element tag attributes (Shape.treesAll kids)) := by
  have htrees := hd.trees_eq hs
  rw [Shape.id_mk, Shape.trees] at htrees
  rw [elementTree?, htrees, tagName?, hs.1]
  rfl

theorem childElements_eq (hs : (⟨id, kind, notes, kids⟩ : Shape).In d p) :
    d.childElements id = (kids.filter Shape.isElement).map Shape.id := by
  rw [childElements, children_of_node? hs.1, List.filter_map]
  refine congrArg _ (List.filter_congr fun c hc => ?_)
  have hcs := Shape.inAll_iff.1 hs.2 c hc
  obtain ⟨cid, ckind, cnotes, ckids⟩ := c
  cases ckind <;> simp [tagName?, hcs.1, Shape.isElement]

theorem precedingSiblings_eq {x : NodeId} {left right : List NodeId}
    (hparent : d.parent? x = some q) (hrow : d.children q = left ++ x :: right) (hx : x ∉ left) :
    d.precedingSiblings x = left := by
  rw [precedingSiblings, hparent]
  dsimp only
  rw [if_pos (by simp [hrow]), hrow, takeWhile_ne_append_cons hx]

/-- The siblings before a node are what its parent's row holds before it. -/
theorem Sound.precedingSiblings_cases (hd : d.Sound) (x : NodeId) :
    (d.parent? x = none ∧ d.precedingSiblings x = []) ∨ ∃ q left right, d.parent? x = some q ∧
      d.children q = left ++ x :: right ∧ d.precedingSiblings x = left := by
  cases hparent : d.parent? x with
  | none =>
    rw [precedingSiblings, hparent]
    exact Or.inl ⟨rfl, rfl⟩
  | some q =>
    obtain ⟨left, right, hrow, hx⟩ := List.eq_append_cons_of_mem (hd.mem_children_iff.2 hparent)
    exact Or.inr ⟨q, left, right, rfl, hrow, precedingSiblings_eq hparent hrow hx⟩

/-- The run of marked shapes before a shape that comes after an unmarked one, or first. -/
theorem Sound.generatedRun_eq (hd : d.Sound)
    (hs : (⟨q, kind, notes, before ++ run ++ a :: after⟩ : Shape).In d p)
    (hrun : ∀ x ∈ run, x.isMarked s = true) (hlast : ∀ x ∈ before.getLast?, x.isMarked s = false) :
    d.generatedRun s a.id = run.reverse.map Shape.id := by
  have hmem := Shape.inAll_iff.1 hs.2
  have hchildren : d.children q = (before ++ run).map Shape.id ++ a.id :: after.map Shape.id := by
    rw [children_of_node? hs.1, List.map_append, List.map_cons]
  have hnodup := hd.nodup hs.1
  rw [← children_of_node? hs.1, hchildren, List.nodup_append'] at hnodup
  have hpreceding : d.precedingSiblings a.id = (before ++ run).map Shape.id :=
    precedingSiblings_eq (hmem a (by simp)).parent? hchildren fun ha =>
      hnodup.2.2 ha (List.mem_cons_self ..)
  have hgenerated : ∀ x ∈ run, (d.isGenerated s ∘ Shape.id) x = true := fun x hx =>
    (isGenerated_eq (hmem x (by simp [hx]))).trans (hrun x hx)
  have hrest : before.reverse.takeWhile (d.isGenerated s ∘ Shape.id) = [] := by
    rw [List.getLast?_eq_head?_reverse] at hlast
    cases hbefore : before.reverse with
    | nil => rfl
    | cons x others =>
      have hx : x ∈ before := List.mem_reverse.1 (by rw [hbefore]; exact List.mem_cons_self ..)
      have hmark := hlast x (by rw [hbefore]; rfl)
      refine List.takeWhile_cons_of_neg ?_
      rw [Function.comp_apply, isGenerated_eq (hmem x (by simp [hx])), hmark]
      exact Bool.false_ne_true
  rw [generatedRun, hpreceding, ← List.map_reverse, List.takeWhile_map, List.reverse_append,
    List.takeWhile_append_of_pos fun x hx => hgenerated x (List.mem_reverse.1 hx), hrest,
    List.append_nil]

end Document

theorem Pass.edit_bind {α β : Type} (work : Edit α) (next : α → Edit β) :
    Pass.edit (work >>= next) = Pass.edit work >>= fun a => Pass.edit (next a) := by
  funext stage
  simp only [Pass.edit, Bind.bind, EStateM.bind]
  cases work stage.document <;> rfl

/-- Changes made one after another are one row of edits. -/
theorem Pass.forM_apply {α : Type} (change : α → Document → Except TreeError Document)
    (l : List α) : (l.forM fun a => Pass.apply (change a)) =
      Pass.edit (l.forM fun a => Edit.apply (change a)) := by
  induction l with
  | nil => rfl
  | cons a rest ih =>
    refine Eq.trans ?_ (Pass.edit_bind (Edit.apply (change a)) _).symm
    exact congrArg (Pass.edit (Edit.apply (change a)) >>= ·) (funext fun _ => ih)

/-- The template for an element is found where the cache has it, and is there afterwards. -/
theorem Cache.Gives.getOrCompile {cache : Cache} {s : Settings} {tree : TreeId} {id : NodeId}
    {element : Tree} {template : Template} (h : cache.Gives s tree id element template)
    (compile : Unit → Option Template)
    (hcompile : compile () = (Template.compile s element).head?) :
    (cache.getOrCompile tree id compile).1 = some template ∧
      Entries.get? (tree, id) (cache.getOrCompile tree id compile).2.entries = some template ∧
      ∀ key, key ≠ (tree, id) → Entries.get? key (cache.getOrCompile tree id compile).2.entries =
        Entries.get? key cache.entries := by
  have hgiven : (cache.getOrCompile tree id compile).1 = some template := by
    rw [Cache.getOrCompile_fst]
    rcases h with hentry | ⟨hentry, hgives⟩
    · rw [hentry, Option.some_or]
    · rw [hentry, Option.none_or, hcompile, hgives]
  refine ⟨hgiven, ?_, fun key hkey => ?_⟩
  · rw [Cache.get?_getOrCompile, if_pos rfl, hgiven]
  · rw [Cache.get?_getOrCompile, if_neg hkey]

namespace Pass

variable {engine : Engine} {d : Document} {id q : NodeId} {p : Option NodeId} {kind : NodeKind}
  {tag : String} {attributes notes : List (String × String)}
  {kids before run after shapes : List Shape} {a : Shape} {template : Template}

theorem runs_sweep (hd : d.Sound)
    (hs : (⟨q, kind, notes, before ++ run ++ a :: after⟩ : Shape).In d p)
    (hrun : ∀ x ∈ run, x.isMarked engine.settings = true)
    (hlast : ∀ x ∈ before.getLast?, x.isMarked engine.settings = false) :
    Runs (sweep a.id) ⟨engine, d⟩ fun swept stage => swept = run.length ∧
      stage.engine = engine ∧ stage.document.Sound ∧
      (⟨q, kind, notes, before ++ a :: after⟩ : Shape).In stage.document p ∧
      d.Replaces stage.document (q :: Shape.idsAll (before ++ run ++ a :: after))
        (q :: Shape.idsAll (before ++ a :: after)) := by
  refine .get ?_
  dsimp only
  rw [hd.generatedRun_eq hs hrun hlast, Pass.forM_apply]
  have hsub : (before ++ a :: after).Sublist (before ++ run ++ a :: after) := by
    rw [List.append_assoc]
    exact (List.sublist_append_right run _).append_left before
  have hperm : (run.reverse ++ (before ++ a :: after)).Perm (before ++ run ++ a :: after) := by
    rw [← List.append_assoc]
    exact (List.perm_append_comm.trans ((List.reverse_perm run).append_left before)).append_right _
  obtain ⟨d', hok, hsound, -, hin, hrep⟩ := hd.forM_remove_in hs hsub hperm
  refine runs_bind_edit (.of_ok hok ?_)
  exact .pure ⟨by rw [List.length_map, List.length_reverse], rfl, hsound, hin, hrep⟩

theorem template?_eq {s : Settings} (hd : d.Sound)
    (hs : (⟨id, .element tag attributes, notes, kids⟩ : Shape).In d p) :
    d.template? s id =
      (Template.compile s (.element tag attributes (Shape.treesAll kids))).head? := by
  rw [Document.template?, hd.elementTree?_eq hs]
  rfl

/-- Expanding an anchor: what its template stands for, and an entry for it in the cache. -/
theorem runs_expandNode (hengine : engine.Ready) (hd : d.Sound)
    (hs : (⟨id, .element tag attributes, notes, kids⟩ : Shape).In d p) (htemplate : template.Valid)
    (hgives : engine.cache.Gives engine.settings d.tree id
      (.element tag attributes (Shape.treesAll kids)) template) (model : Value) (scope : Scope) :
    Runs (expandNode id model scope) ⟨engine, d⟩ fun nodes stage => ∃ cache,
      (Entries.get? (d.tree, id) cache.entries = some template ∧
        ∀ key, key ≠ (d.tree, id) →
          Entries.get? key cache.entries = Entries.get? key engine.cache.entries) ∧
      Expands ⟨{ engine with cache := cache }, d⟩
        (template.meaning engine.settings engine.depth model scope) nodes stage := by
  have hcompile := hgives.getOrCompile (fun _ => d.template? engine.settings id)
    (template?_eq hd hs)
  cases hfound : engine.cache.getOrCompile d.tree id fun _ => d.template? engine.settings id with
  | mk found cache =>
    rw [hfound] at hcompile
    obtain ⟨hsome, hentry⟩ := hcompile
    obtain rfl : found = some template := hsome
    have hrun := refines_expand engine.settings engine.depth template htemplate model scope
      ⟨{ engine with cache := cache }, d⟩ ⟨hd, hengine.generated, hengine.registry⟩ rfl rfl
    refine .get ?_
    dsimp only
    rw [hfound]
    exact hrun.mono fun nodes stage h => ⟨cache, hentry, h⟩

/-- New shapes that show nothing but marked trees are marked. -/
theorem isMarked_of_made {s : Settings} {d' : Document} (hd : d.Sound) (hmade : Made d d' shapes)
    (h : ∀ t ∈ Shape.treesAll shapes, t.isMarked s = true) : ∀ x ∈ shapes, x.isMarked s = true := by
  intro x hx
  have hin := Shape.inAll_iff.1 hmade.inAll x hx
  obtain ⟨id, kind, notes, kids⟩ := x
  have htree : ∀ t ∈ (⟨id, kind, notes, kids⟩ : Shape).trees, t.isMarked s = true := fun t ht => by
    refine h t ?_
    rw [Shape.treesAll_eq_flatMap]
    exact List.mem_flatMap.2 ⟨_, hx, ht⟩
  cases kind with
  | root =>
    obtain rfl : id = .root := hmade.sound.valid hin.1
    have hdead := hmade.node?_eq_none (Shape.mem_idsAll_iff.2 ⟨_, hx, List.mem_cons_self ..⟩)
    exact absurd rfl (hd.ne_root hdead)
  | element tag attributes => exact htree _ (List.mem_singleton_self _)
  | text content => exact absurd (htree _ (List.mem_singleton_self _)) Bool.false_ne_true

/-- An anchor is rendered: what its template stands for takes the place of the run before it. -/
theorem runs_visitAnchor (hengine : engine.Ready)
    (hhidden : Markup.isAttributeName engine.settings.hiddenAttribute = true) (hd : d.Sound)
    {anotes : List (String × String)}
    (hs : (⟨q, kind, notes,
      before ++ run ++ ⟨id, .element tag attributes, anotes, kids⟩ :: after⟩ : Shape).In d p)
    (hkind : ∀ content, kind ≠ .text content)
    (hrun : ∀ x ∈ run, x.isMarked engine.settings = true)
    (hlast : ∀ x ∈ before.getLast?, x.isMarked engine.settings = false) (htemplate : template.Valid)
    (hgives : engine.cache.Gives engine.settings d.tree id
      (.element tag attributes (Shape.treesAll kids)) template) (model : Value) (scope : Scope) :
    let outcome := template.meaning engine.settings engine.depth model scope engine.registry
    let hidden : Shape := ⟨id,
      .element tag (Entries.put engine.settings.hiddenAttribute "" attributes), anotes, kids⟩
    Runs (visitAnchor q id model scope) ⟨engine, d⟩ fun visits stage => ∃ cache shapes,
      (Entries.get? (d.tree, id) cache.entries = some template ∧
        ∀ key, key ≠ (d.tree, id) →
          Entries.get? key cache.entries = Entries.get? key engine.cache.entries) ∧
      stage.engine = { engine with registry := outcome.2, cache := cache } ∧
      Registry.Valid outcome.2 ∧ stage.document.Sound ∧
      visits = [⟨id, shapes.map Shape.id, run.length⟩] ∧ Shape.treesAll shapes = outcome.1 ∧
      (∀ x ∈ shapes, x.isMarked engine.settings = true) ∧
      (⟨q, kind, notes, before ++ shapes ++ hidden :: after⟩ : Shape).In stage.document p ∧
      d.Replaces stage.document
        (q :: Shape.idsAll (before ++ run ++ ⟨id, .element tag attributes, anotes, kids⟩ :: after))
        (q :: Shape.idsAll (before ++ shapes ++ hidden :: after)) := by
  intro outcome hidden
  refine (runs_sweep hd hs hrun hlast).bind ?_
  rintro _ ⟨engine₁, d₁⟩ ⟨rfl, hengine₁, hd₁, hs₁, hrep₁⟩
  obtain rfl : engine₁ = engine := hengine₁
  have hanchor := Shape.inAll_iff.1 hs₁.2 ⟨id, .element tag attributes, anotes, kids⟩ (by simp)
  have htree : d₁.tree = d.tree := hrep₁.tree
  rw [← htree] at hgives ⊢
  refine (runs_expandNode hengine hd₁ hanchor htemplate hgives model scope).bind ?_
  rintro _ ⟨engine₂, d₂⟩ ⟨cache, hcache, hengine₂, hregistry, shapes, rfl, htrees, hmade⟩
  have hplace : Puts (fun node d => d.insertBefore q node id) q kind notes p
      (⟨id, .element tag attributes, anotes, kids⟩ :: after) :=
    fun d before s hd hs => hd.insertBefore_in hs hkind
  refine (runs_place_made hplace hd₁ hs₁ hmade).bind ?_
  rintro - ⟨engine₃, d₃⟩ ⟨hengine₃, hd₃, hs₃, hrep₃⟩
  obtain rfl : engine₃ = { engine₁ with registry := outcome.2, cache := cache } :=
    hengine₃.trans hengine₂
  refine .get ?_
  dsimp only
  have hanchor₃ := Shape.inAll_iff.1 hs₃.2 ⟨id, .element tag attributes, anotes, kids⟩ (by simp)
  obtain ⟨d₄, hset, hd₄, hanchor₄, hrep₄⟩ := hd₃.setAttribute_in hanchor₃ hhidden ""
  obtain ⟨hs₄, hrep₄⟩ := hd₃.in_of_child hs₃ hanchor₄ rfl hrep₄
  refine runs_bind_apply hset (.pure ⟨cache, shapes, hcache, rfl, hregistry, hd₄,
    rfl, htrees, ?_, hs₄, ?_⟩)
  · refine isMarked_of_made hd₁ hmade fun t ht => ?_
    rw [htrees] at ht
    exact Template.meaning_marked engine₁.depth template scope engine₁.registry t ht
  · exact (hrep₁.trans hrep₃).trans hrep₄

end Pass
end LiveMarkup
