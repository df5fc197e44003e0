import LiveMarkup.Proofs.Authored
import LiveMarkup.Proofs.Document.Reachable
import LiveMarkup.Proofs.Passing

/-! Engines that passes over documents can leave, and what expanding any compiled template with any
of them does: the trees that the template stands for are made, besides all that there was. -/
namespace LiveMarkup

/-- Templates of nodes of documents that calls can make. -/
def Template.Compiled (t : Template) : Prop :=
  ∃ (s : Settings) (d : Document) (id : NodeId), d.Reachable ∧ d.template? s id = some t

/-- The engines that there can be: new ones, and what clearing the cache and passes over documents
leave of others, failing passes included. -/
inductive Engine.Reachable : Engine → Prop
  | create {s : Settings} {engine : Engine} (h : Engine.create s = .ok engine) : Reachable engine
  | clearCache {engine : Engine} (h : Reachable engine) : Reachable engine.clearCache
  | render {engine : Engine} {d : Document} (h : Reachable engine) (hd : d.Reachable)
    (root : NodeId) (model : Value) (scope : Scope) :
    Reachable (Pass.after (Pass.render root model scope) ⟨engine, d⟩).engine
  | expandNode {engine : Engine} {d : Document} (h : Reachable engine) (hd : d.Reachable)
    (id : NodeId) (model : Value) (scope : Scope) :
    Reachable (Pass.after (Pass.expandNode id model scope) ⟨engine, d⟩).engine
  | expand {engine : Engine} {d : Document} {t : Template} (h : Reachable engine)
    (hd : d.Reachable) (ht : t.Compiled) (model : Value) (scope : Scope) :
    Reachable (Pass.after (Pass.expand t model scope) ⟨engine, d⟩).engine
  | use {engine : Engine} {d : Document} (h : Reachable engine) (hd : d.Reachable) (name : String)
    (source : Option String) (model : Value) (scope : Scope) :
    Reachable (Pass.after (Pass.use name source model scope) ⟨engine, d⟩).engine

variable {s : Settings} {d d' : Document} {id : NodeId} {t : Template} {engine : Engine}
  {stage : Stage} {model : Value} {scope : Scope}

/-- A pass makes of a document what calls can make of it. -/
theorem Document.passKeeps_derives (s : Settings) :
    PassKeeps s Derives (fun _ _ => True) (fun _ _ => True) Template.Valid where
  inv := Derives.sound
  new _ _ := trivial
  loose _ _ := trivial
  free_of_loose _ _ := trivial
  loose_of_child _ _ _ := trivial
  loose_of_sibling _ _ _ := trivial
  good_of_mem {t u} ht hu := by
    cases t with
    | element tag attributes text children => exact Template.validAll_iff.1 ht.2 u hu
    | repetition source binding children => exact Template.validAll_iff.1 ht u hu
    | conditional test children => exact Template.validAll_iff.1 ht u hu
    | recursive name target source children => exact Template.validAll_iff.1 ht u hu
  good_of_compiled hd h := hd.valid_of_template? h
  createElement _ _ h := ⟨.createElement h, trivial⟩
  setNote _ _ h := .setNote h
  setDirectText _ _ content := Derives.setDirectText _ _ content
  setAttribute _ _ h := .setAttribute h
  hide _ _ h := .setAttribute h
  append _ _ _ h := .append h
  insertBefore _ _ _ h := .insertBefore h
  remove _ _ h := .remove h

/-- Settings are usable, and all that can be expanded is valid. -/
structure Engine.Usable (engine : Engine) : Prop where
  settings : engine.settings.fault? = none
  registry : engine.registry.Valid
  cache : ∀ key t, Entries.get? key engine.cache.entries = some t → t.Valid

theorem Template.Compiled.valid (ht : t.Compiled) : t.Valid := by
  obtain ⟨s, d, id, hd, h⟩ := ht
  exact hd.sound.valid_of_template? h

namespace Engine.Usable

theorem fit (h : engine.Usable) (hd : d.Sound) :
    Stage.Fit engine.settings Document.Sound Template.Valid ⟨engine, d⟩ :=
  ⟨rfl, hd, fun name definition hfound t ht =>
    Template.validAll_iff.1 (h.registry name definition hfound) t ht, h.cache⟩

theorem ready (h : engine.Usable) : engine.Ready :=
  ⟨(Settings.isAttributeName_of_fault? h.settings).1, h.registry⟩

/-- A pass leaves an engine usable and makes the document of the one before. -/
theorem of_leads (h : engine.Usable) (hd : d.Sound)
    (hlead : Stage.Leads engine.settings Document.Derives Document.Sound Template.Valid
      ⟨engine, d⟩ stage) : stage.engine.Usable ∧ d.Derives stage.document := by
  obtain ⟨hfit, hderives⟩ := hlead (h.fit hd)
  refine ⟨⟨?_, fun name definition hfound => ?_, hfit.cache⟩, hderives⟩
  · rw [hfit.settings]
    exact h.settings
  · exact Template.validAll_iff.2 (hfit.registry name definition hfound)

theorem render (h : engine.Usable) (hd : d.Sound) (root : NodeId) (model : Value) (scope : Scope) :
    (Pass.after (Pass.render root model scope) ⟨engine, d⟩).engine.Usable ∧
      d.Derives (Pass.after (Pass.render root model scope) ⟨engine, d⟩).document :=
  h.of_leads hd ((Document.passKeeps_derives _).rendering.render (h.fit hd) trivial).after

end Engine.Usable

theorem Engine.Reachable.usable (h : engine.Reachable) : engine.Usable := by
  induction h with
  | create h =>
    obtain ⟨hfault, rfl⟩ := Engine.create_eq_ok h
    exact ⟨hfault, nofun, nofun⟩
  | clearCache _ ih => exact ⟨ih.settings, ih.registry, nofun⟩
  | render _ hd root model scope ih => exact (ih.render hd.sound root model scope).1
  | expandNode _ hd id model scope ih =>
    exact (ih.of_leads hd.sound
      ((Document.passKeeps_derives _).expandNode id _ (ih.fit hd.sound)).after).1
  | expand _ hd ht model scope ih =>
    exact (ih.of_leads hd.sound
      ((Document.passKeeps_derives _).expandPass ht.valid _ (ih.fit hd.sound)).after).1
  | use _ hd name source model scope ih =>
    exact (ih.of_leads hd.sound
      ((Document.passKeeps_derives _).usePass name source _ (ih.fit hd.sound)).after).1

/-- A document has gained nodes that stand for themselves and show trees; what was live before has
stayed as it was, and nothing else has come up. -/
structure Document.Gains (d d' : Document) (nodes : List NodeId) (trees : List Tree) : Prop where
  shown : nodes.map d'.elementTree? = trees.map some
  kept : ∀ x, d.contains x = true → d'.node? x = d.node? x
  nodup : nodes.Nodup
  fresh : ∀ x ∈ nodes, d.node? x = none
  parentless : ∀ x ∈ nodes, d'.parent? x = none
  below : ∀ x, d'.contains x = true → d.contains x = true ∨ ∃ node ∈ nodes, d'.Above node x

theorem Shape.map_id_sublist (shapes : List Shape) :
    (shapes.map Shape.id).Sublist (Shape.idsAll shapes) := by
  induction shapes with
  | nil => exact .slnil
  | cons x rest ih =>
    obtain ⟨id, kind, notes, kids⟩ := x
    exact (ih.trans (List.sublist_append_right _ _)).cons_cons id

/-- Marked shapes are elements, each with one tree. -/
theorem Document.Sound.map_elementTree? {p : Option NodeId} {shapes : List Shape} (hd : d.Sound)
    (hin : Shape.InAll d p shapes) (hmarked : ∀ x ∈ shapes, x.isMarked s = true) :
    (shapes.map Shape.id).map d.elementTree? = (Shape.treesAll shapes).map some := by
  induction shapes with
  | nil => rfl
  | cons x rest ih =>
    rw [List.forall_mem_cons] at hmarked
    obtain ⟨⟨id, kind, notes, kids⟩, hmark⟩ : ∃ y, y = x := ⟨x, rfl⟩
    cases kind with
    | root => cases hmark ▸ hmarked.1
    | text content => cases hmark ▸ hmarked.1
    | element tag attributes =>
      subst hmark
      rw [List.map_cons, List.map_cons, Shape.id_mk, hd.elementTree?_eq hin.1, ih hin.2 hmarked.2]
      rfl

/-- Detached marked shapes are gained. -/
theorem Made.gains {shapes : List Shape} (h : Made d d' shapes)
    (hmarked : ∀ x ∈ shapes, x.isMarked s = true) :
    d.Gains d' (shapes.map Shape.id) (Shape.treesAll shapes) where
  shown := h.sound.map_elementTree? h.inAll hmarked
  kept x hx := by
    obtain ⟨n, hn⟩ := Document.contains_iff.1 hx
    have hnot : x ∉ Shape.idsAll shapes := fun hmem => by
      rw [h.node?_eq_none hmem] at hn
      cases hn
    exact h.replaces.same x List.not_mem_nil hnot
  nodup := h.nodup.sublist (Shape.map_id_sublist shapes)
  fresh x hx := by
    obtain ⟨y, hy, rfl⟩ := List.mem_map.1 hx
    exact h.node?_eq_none (Shape.mem_idsAll_iff.2 ⟨y, hy, y.id_mem_ids⟩)
  parentless x hx := by
    obtain ⟨y, hy, rfl⟩ := List.mem_map.1 hx
    exact (Shape.inAll_iff.1 h.inAll y hy).parent?
  below x hx := by
    by_cases hmem : x ∈ Shape.idsAll shapes
    · obtain ⟨y, hy, hxy⟩ := Shape.mem_idsAll_iff.1 hmem
      refine Or.inr ⟨y.id, List.mem_map.2 ⟨y, hy, rfl⟩, ?_⟩
      exact (h.sound.mem_ids_iff (Shape.inAll_iff.1 h.inAll y hy)).1 hxy
    · refine Or.inl ?_
      rwa [Document.contains, ← h.replaces.same x List.not_mem_nil hmem]

/-- Expanding a compiled template on any document with any engine gives nodes that show exactly the
trees that the template stands for and leaves the registry that it says, unless no slot is left. -/
theorem Pass.expand_denotes (hengine : engine.Reachable) (hd : d.Reachable) (ht : t.Compiled)
    (model : Value) (scope : Scope) :
    let outcome := t.meaning engine.settings engine.depth model scope engine.registry
    (∃ nodes stage, Pass.expand t model scope ⟨engine, d⟩ = .ok nodes stage ∧
      stage.engine = { engine with registry := outcome.2 } ∧
      d.Gains stage.document nodes outcome.1) ∨
    ∃ stage, Pass.expand t model scope ⟨engine, d⟩ = .error .outOfSlots stage ∧
      ¬ stage.document.HasRoom := by
  intro outcome
  have hrun := Pass.refines_expand engine.settings engine.depth t ht.valid model scope ⟨engine, d⟩
    ⟨hd.sound, hengine.usable.ready⟩ rfl rfl
  obtain ⟨nodes, stage, hok, hexpands⟩ | hfull := hrun.cases
  · refine Or.inl ⟨nodes, stage, hok, hexpands.engine, ?_⟩
    obtain ⟨shapes, rfl, htrees, hmade⟩ := hexpands.made
    have hmarked := isMarked_of_made (s := engine.settings) hd.sound hmade fun u hu => by
      rw [htrees] at hu
      exact Template.meaning_marked engine.depth t scope engine.registry u hu
    have hgains := hmade.gains hmarked
    rwa [htrees] at hgains
  · exact Or.inr hfull

/-- A list in a list: a recursive template, used inside its own repetition with another source. -/
theorem Pass.expand_denotes_nested_list :
    let model : Value := .map [("xs", .list [.map [("n", .string "a"),
      ("xs", .list [.map [("n", .string "b")]])], .map [("n", .string "c")]])]
    ∃ d t, Document.Reachable d ∧ Template.Compiled t ∧
      Engine.Reachable (.ofSettings .default) ∧
      ∃ nodes stage, Pass.expand t model .empty ⟨.ofSettings .default, d⟩ = .ok nodes stage ∧
        d.Gains stage.document nodes (t.meaning .default 0 model .empty []).1 ∧
        String.ofList (Tree.markupAll (t.meaning .default 0 model .empty []).1) =
          "<li data-generated=\"true\">a<li data-generated=\"true\">b</li></li>" ++
          "<li data-generated=\"true\">c</li>" := by
  intro model
  have hrun : Option.any (fun d => (d.template? .default ⟨1, 0⟩).any fun t =>
        Succeeds (Pass.expand t model .empty) ⟨.ofSettings .default, d⟩ (fun _ _ => true) &&
          String.ofList (Tree.markupAll (t.meaning .default 0 model .empty []).1) ==
            "<li data-generated=\"true\">a<li data-generated=\"true\">b</li></li>" ++
            "<li data-generated=\"true\">c</li>")
      (Document.read ⟨0⟩
        ("<recursive-template name=\"r\" of=\"xs\"><each of-rec=\"r\" as=\"x\"><li>{{x.n}}" ++
          "<recursive-template use=\"r\" of=\"x.xs\"/></li></each>" ++
          "</recursive-template>")).toOption = true := by
    decide +kernel
  obtain ⟨d, hread, htemplate⟩ := exists_of_toOption_any hrun
  obtain ⟨t, ht, htest⟩ := (Option.any_eq_true _ _).1 htemplate
  rw [Bool.and_eq_true, beq_iff_eq] at htest
  obtain ⟨hok, hmarkup⟩ := htest
  have hd := Document.Reachable.of_read hread
  have hcompiled : t.Compiled := ⟨.default, d, _, hd, ht⟩
  have hengine : Engine.Reachable (.ofSettings .default) := .create (s := .default) rfl
  refine ⟨d, t, hd, hcompiled, hengine, ?_⟩
  obtain ⟨nodes, stage, hexpand, -⟩ := exists_of_succeeds hok
  obtain ⟨nodes', stage', hexpand', -, hgains⟩ | ⟨stage', herror, -⟩ :=
    Pass.expand_denotes hengine hd hcompiled model .empty
  · exact ⟨nodes', stage', hexpand', hgains, hmarkup⟩
  · cases hexpand.symm.trans herror

end LiveMarkup
