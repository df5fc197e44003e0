import LiveMarkup.Proofs.Avoiding
import LiveMarkup.Proofs.Cached
import LiveMarkup.Proofs.Reported
import LiveMarkup.Proofs.Sharing

/-! Names that the listing of directives finds unresolved. What renderings expand was compiled from
the directives of the document while they were as they had been read, so a name that none of them
defines stays undefined, and uses of it give nothing. -/
namespace LiveMarkup

variable {α : Type} {s : Settings} {d d' : Document} {name : String} {id parent : NodeId}
  {stage stage' : Stage} {model : Value} {scope : Scope}

theorem Template.avoids_ofDirective {directive : Directive} {attributes : List (String × String)}
    {children : Fragment}
    (hown : directive = .recursive → Entries.get? "name" attributes ≠ some name)
    (h : ∀ t ∈ children, t.Avoids name) :
    (ofDirective directive attributes children).Avoids name := by
  cases directive with
  | repetition => exact .repetition h
  | conditional => exact .conditional h
  | recursive => exact .recursive (hown rfl) h

theorem Shape.In.avoids_compileAll {x : Shape} {p : Option NodeId} (hx : x.In d p)
    (h : ∀ y, d.directive? s y = some .recursive → d.attribute? y "name" ≠ some name) :
    ∀ t ∈ Template.compileAll s x.trees, t.Avoids name := by
  induction x generalizing p with
  | mk id kind notes kids ih =>
    have hkids : ∀ t ∈ Template.compileAll s (treesAll kids), t.Avoids name :=
      Template.forall_mem_compileAll fun c hc => ih c hc (inAll_iff.1 hx.2 c hc)
    cases kind with
    | root => exact hkids
    | text content => exact nofun
    | element tag attributes =>
      have hown := h id
      rw [Document.directive?_eq hx, Document.attribute?, Document.attributes, hx.1] at hown
      rw [trees, Template.compileAll, Template.compileAll, List.append_nil, Template.compile]
      split
      · next directive hdirective =>
        rw [hdirective] at hown
        refine List.forall_mem_singleton.2 (Template.avoids_ofDirective ?_ hkids)
        rintro rfl
        exact hown rfl
      · exact List.forall_mem_singleton.2 (.element hkids)

/-- Where no recursive template has the name, no template of a node defines it. -/
theorem Document.Sound.avoids_of_template? {t : Template} (hd : d.Sound)
    (h : ∀ x, d.directive? s x = some .recursive → d.attribute? x "name" ≠ some name)
    (ht : d.template? s id = some t) : t.Avoids name := by
  obtain ⟨x, -, hx, ht⟩ := hd.exists_of_template? ht
  exact hx.avoids_compileAll h t ht

namespace Stage

/-- The cache has an entry for the node. -/
def Caches (stage : Stage) (id : NodeId) : Prop :=
  (Entries.get? (stage.document.tree, id) stage.engine.cache.entries).isSome = true

/-- The name is undefined, and no template that is known or would be compiled for a directive
defines it. Of the directives whose templates are cached nothing is asked: to hide them may have
given them the name. -/
structure Without (s : Settings) (name : String) (stage : Stage) : Prop where
  fit : stage.Fit s Document.Sound (Template.Plain s)
  registry : stage.engine.registry.Lacks name
  cache : ∀ key t, Entries.get? key stage.engine.cache.entries = some t → t.Avoids name
  directive : ∀ x t, (stage.document.directive? s x).isSome = true →
    stage.document.template? s x = some t → stage.Caches x ∨ t.Avoids name

/-- The name has stayed undefined. Exposed and plain nodes and entries of the cache have stayed what
they were. -/
structure Remains (s : Settings) (name : String) (stage stage' : Stage) : Prop where
  without : stage'.Without s name
  exposed : ∀ x, stage.document.Exposed s x → stage'.document.Exposed s x
  plain : ∀ x, stage.document.Plain s x → stage'.document.Plain s x
  caches : ∀ x, stage.Caches x → stage'.Caches x

/-- Where the name was undefined, it has stayed so. -/
def Remaining (s : Settings) (name : String) (stage stage' : Stage) : Prop :=
  stage.Without s name → stage.Remains s name stage'

instance : Std.Refl (Remaining s name) :=
  ⟨fun _ h => ⟨h, fun _ hx => hx, fun _ hx => hx, fun _ hx => hx⟩⟩

instance : IsTrans Stage (Remaining s name) where
  trans _ _ _ h h' hstage := by
    have h := h hstage
    have h' := h' h.without
    exact ⟨h'.without, fun x hx => h'.exposed x (h.exposed x hx),
      fun x hx => h'.plain x (h.plain x hx), fun x hx => h'.caches x (h.caches x hx)⟩

/-- With the same cache the name stays undefined where directives are spared. -/
theorem Without.remains (h : stage.Without s name)
    (hfit : stage'.Fit s Document.Sound (Template.Plain s))
    (hspares : stage.document.Spares s stage'.document)
    (hcache : stage'.engine.cache = stage.engine.cache)
    (hregistry : stage'.engine.registry.Lacks name) : stage.Remains s name stage' := by
  have hcaches : ∀ x, stage'.Caches x ↔ stage.Caches x := fun x => by
    rw [Caches, Caches, hcache, hspares.tree]
  refine ⟨⟨hfit, hregistry, fun key t ht => h.cache key t (hcache ▸ ht), fun x t hx ht => ?_⟩,
    hspares.exposed, fun x => hspares.plain, fun x => (hcaches x).2⟩
  obtain ⟨hdirective, htemplate⟩ := hspares.same x hx
  rw [hdirective] at hx
  rw [htemplate] at ht
  exact (h.directive x t hx ht).imp_left (hcaches x).2

/-- Work that spares directives, has nothing to do with the cache and does not define the name. -/
theorem Without.moves {work : Pass α} {post : α → Stage → Prop} (h : stage.Without s name)
    (hblind : Blind work) (hkeeps : KeepsOut name work)
    (hmoves : Moves (Leads s (Document.Spares s) Document.Sound (Template.Plain s)) work stage
      post) : Moves (Remaining s name) work stage post := by
  refine ((hmoves.and (hblind.moves_cache stage)).and (hkeeps stage)).mono
    (fun t ⟨⟨hlead, hcache⟩, hlacks⟩ hstage => ?_) fun _ _ ⟨⟨hpost, _⟩, _⟩ => hpost
  obtain ⟨hfit, hspares⟩ := hlead h.fit
  exact hstage.remains hfit hspares hcache (hlacks hstage.registry)

/-- The template of a directive does not define the name, cached or not. -/
theorem Without.lookUp (h : stage.Without s name)
    (hid : (stage.document.directive? s id).isSome = true) :
    ∃ t, (stage.lookUp id).1 = some t ∧ t.Plain s ∧ t.Avoids name ∧
      stage.Remains s name (stage.withCache (stage.lookUp id).2) ∧
      (stage.withCache (stage.lookUp id).2).Caches id := by
  obtain ⟨compiled, hcompiled⟩ : ∃ t, stage.document.template? s id = some t := by
    obtain ⟨directive, hdirective⟩ := Option.isSome_iff_exists.1 hid
    obtain ⟨children, htemplate⟩ := h.fit.document.template?_of_directive? hdirective
    exact ⟨_, htemplate⟩
  obtain ⟨t, ht, hplain, havoids⟩ : ∃ t, (stage.lookUp id).1 = some t ∧ t.Plain s ∧
      t.Avoids name := by
    rw [Stage.lookUp, Cache.getOrCompile_fst, h.fit.settings, hcompiled]
    cases hentry : Entries.get? (stage.document.tree, id) stage.engine.cache.entries with
    | some t => exact ⟨t, rfl, h.fit.cache _ t hentry, h.cache _ t hentry⟩
    | none =>
      refine ⟨compiled, rfl, Template.plain_of_template? hcompiled, ?_⟩
      refine (h.directive id compiled hid hcompiled).resolve_left fun hcaches => ?_
      rw [Caches, hentry] at hcaches
      cases hcaches
  have hentries : ∀ key u, Entries.get? key (stage.lookUp id).2.entries = some u →
      u = t ∨ Entries.get? key stage.engine.cache.entries = some u := fun key u hu => by
    rw [get?_lookUp, ht] at hu
    split at hu
    · exact Or.inl (Option.some.inj hu).symm
    · exact Or.inr hu
  have hcaches : ∀ x, x = id ∨ stage.Caches x →
      (stage.withCache (stage.lookUp id).2).Caches x := fun x hx => by
    rw [Caches, withCache, get?_lookUp, ht]
    split
    · rfl
    · next hne => exact hx.resolve_left fun h => hne (by rw [h])
  refine ⟨t, ht, hplain, havoids, ⟨⟨⟨h.fit.settings, h.fit.document, h.fit.registry, ?_⟩,
    h.registry, ?_, fun x u hx hu => ?_⟩, fun _ hx => hx, fun _ hx => hx, fun x hx => ?_⟩, ?_⟩
  · rintro key u hu
    obtain rfl | hold := hentries key u hu
    · exact hplain
    · exact h.fit.cache key u hold
  · rintro key u hu
    obtain rfl | hold := hentries key u hu
    · exact havoids
    · exact h.cache key u hold
  · exact (h.directive x u hx hu).imp_left fun hold => hcaches x (Or.inr hold)
  · exact hcaches x (Or.inr hx)
  · exact hcaches id (Or.inl rfl)

theorem Without.expandNode (h : stage.Without s name)
    (hid : (stage.document.directive? s id).isSome = true) :
    Moves (Remaining s name) (Pass.expandNode id model scope) stage fun nodes t =>
      (∀ x ∈ nodes, t.document.Plain s x) ∧ t.Caches id := by
  obtain ⟨t, ht, hplain, havoids, hremains, hcaches⟩ := h.lookUp hid
  refine .later (Pass.expandNode_eq ..) (fun _ => hremains) ?_
  rw [ht, Option.elim_some]
  have hmade := hremains.without.moves (Pass.blind_expand t model scope)
    (Pass.keepsOut_expand havoids)
    ((Document.expansionKeeps_spares s).expandPass hplain _ hremains.without.fit)
  exact hmade.also fun nodes u hstays hnodes =>
    ⟨hnodes, (hstays hremains.without).caches id hcaches⟩

/-- An attribute is set on a directive whose template is cached, maybe the name itself. -/
theorem Without.setAttribute {key value : String} (h : stage.Without s name)
    (hexposed : stage.document.Exposed s id) (hcaches : stage.Caches id)
    (hset : stage.document.setAttribute id key value = .ok d') :
    stage.Remains s name { stage with document := d' } := by
  have htree : d'.tree = stage.document.tree := by
    obtain ⟨-, -, -, -, -, -, -, htree, -⟩ := Document.setAttribute_eq_ok hset
    exact htree
  have hentry : ∀ x, stage.Caches x → Caches { stage with document := d' } x := fun x hx => by
    rwa [Caches, htree]
  have hdirective := Document.directive?_setAttribute (s := s) hset
  refine ⟨⟨⟨h.fit.settings, h.fit.document.setAttribute hset, h.fit.registry, h.fit.cache⟩,
    h.registry, h.cache, fun x t hx ht => ?_⟩, fun x hx => hx.setAttribute hset,
    fun x hx => ⟨hx.exposed.setAttribute hset, (hdirective x).trans hx.directive⟩, hentry⟩
  by_cases hxid : x = id
  · exact Or.inl (hentry x (hxid ▸ hcaches))
  · rw [hdirective] at hx
    rw [Document.template?_setAttribute_of_ne h.fit.document hexposed hxid hx hset] at ht
    exact (h.directive x t hx ht).imp_left (hentry x)

theorem moves_setAttribute {key value : String} (hexposed : stage.document.Exposed s id)
    (hcaches : stage.Caches id) :
    Moves (Remaining s name) (Pass.apply (·.setAttribute id key value)) stage fun _ _ => True := by
  rw [Moves, Pass.apply, Pass.edit, Edit.apply]
  cases hset : stage.document.setAttribute id key value with
  | ok d' => exact ⟨fun h => h.setAttribute hexposed hcaches hset, trivial⟩
  | error e =>
    have hsame : Remaining s name stage stage := Std.Refl.refl stage
    exact hsame

theorem Without.visitAnchor (h : stage.Without s name) (hparent : stage.document.Plain s parent)
    (hexposed : stage.document.Exposed s id)
    (hid : (stage.document.directive? s id).isSome = true) :
    Moves (Remaining s name) (Pass.visitAnchor parent id model scope) stage fun _ _ => True := by
  have hswept := h.moves (Blind.closed.sweep id) ((KeepsOut.closed name).sweep id)
    (Pass.moves_sweep_spares h.fit hexposed hid)
  refine hswept.bind fun swept stage₁ hstays₁ hid₁ => ?_
  have h₁ := hstays₁ h
  refine (h₁.without.expandNode hid₁).bind fun nodes stage₂ hstays₂ ⟨hnodes, hcaches⟩ => ?_
  have h₂ := hstays₂ h₁.without
  have hput : Moves (Remaining s name)
      (nodes.forM fun node => Pass.apply (·.insertBefore parent node id)) stage₂ fun _ _ => True :=
    h₂.without.moves (Blind.closed.forM fun _ _ => .apply _)
      ((KeepsOut.closed name).forM fun _ _ => .edit _)
      (Pass.moves_insertBefore_spares h₂.without.fit (h₂.plain _ (h₁.plain _ hparent)) hnodes)
  refine hput.bind fun _ stage₃ hstays₃ _ => .get ?_
  have h₃ := hstays₃ h₂.without
  have hexposed₃ := h₃.exposed id (h₂.exposed id (h₁.exposed id hexposed))
  exact (moves_setAttribute hexposed₃ (h₃.caches id hcaches)).bind fun _ _ _ _ => .pure trivial

theorem Without.fill (h : stage.Without s name) (hid : stage.document.Plain s id) :
    Moves (Remaining s name) (Pass.edit (Document.fill id model scope)) stage fun _ _ => True :=
  have hK := Document.expansionKeeps_spares s
  h.moves (.edit _) (.edit _) (hK.edit (hK.fill h.fit.document hid))

/-- A child of a plain node is visited. -/
theorem Without.visitChild {below : NodeId → Pass (List Visit)} (h : stage.Without s name)
    (hparent : stage.document.Plain s parent) (hexposed : stage.document.Exposed s id)
    (hbelow : ∀ t : Stage, t.Without s name → t.document.Plain s id →
      Moves (Remaining s name) (below id) t fun _ _ => True) :
    Moves (Remaining s name) (Pass.visitChild model scope below parent id) stage
      fun _ _ => True := by
  refine .get ?_
  dsimp only
  rw [h.fit.settings]
  split
  · exact .pure trivial
  · split
    · next hdirective => exact h.visitAnchor hparent hexposed hdirective
    · next hdirective =>
      have hplain : stage.document.Plain s id := ⟨hexposed, by simpa using hdirective⟩
      refine (h.fill hplain).bind fun _ t hstays _ => ?_
      have hfilled := hstays h
      exact hbelow t hfilled.without (hfilled.plain id hplain)

/-- The children of a plain node are exposed, also when others have been visited. -/
theorem Without.exposed_of_child (h : stage.Without s name)
    (hparent : stage.document.Plain s parent) (hid : id ∈ stage.document.childElements parent)
    (hremains : stage.Remains s name stage') : stage'.document.Exposed s id := by
  have hmem : id ∈ stage.document.children parent := (List.mem_filter.1 hid).1
  exact hremains.exposed id
    (Document.exposed_of_child hparent (h.fit.document.mem_children_iff.1 hmem))

theorem Without.visitRow {below : NodeId → Pass (List Visit)} {row : List NodeId}
    (h : stage.Without s name) (hparent : stage.document.Plain s parent)
    (hrow : row ⊆ stage.document.childElements parent)
    (hbelow : ∀ id, ∀ t : Stage, t.Without s name → t.document.Plain s id →
      Moves (Remaining s name) (below id) t fun _ _ => True) :
    Moves (Remaining s name) (Pass.visitAll (Pass.visitChild model scope below parent) row) stage
      fun _ _ => True :=
  Pass.moves_visitAll fun before id after visits t hsplit _ hstays => by
    have hremains := hstays h
    have hid : id ∈ row := by simp [hsplit]
    exact hremains.without.visitChild (hremains.plain parent hparent)
      (h.exposed_of_child hparent (hrow hid) hremains) (hbelow id)

theorem Without.visitChildren (h : stage.Without s name) (fuel : Nat)
    (hparent : stage.document.Plain s parent) :
    Moves (Remaining s name) (Pass.visitChildren model scope fuel parent) stage
      fun _ _ => True := by
  induction fuel generalizing stage parent with
  | zero => exact .pure trivial
  | succ fuel ih =>
    exact .get (h.visitRow hparent (List.Subset.refl _) fun id t ht hplain => ih ht hplain)

/-- Renderings start at depth zero. -/
theorem Without.start (h : stage.Without s name) :
    stage.Remains s name { stage with engine.depth := 0 } :=
  ⟨⟨⟨h.fit.settings, h.fit.document, h.fit.registry, h.fit.cache⟩, h.registry, h.cache,
    h.directive⟩, fun _ hx => hx, fun _ hx => hx, fun _ hx => hx⟩

theorem Without.visits (h : stage.Without s name) (model : Value) (scope : Scope) :
    Moves (Remaining s name) (Pass.visits .root model scope) stage fun _ _ => True := by
  have hstart : Moves (Remaining s name) (Pass.modifyEngine fun e => { e with depth := 0 }) stage
      fun _ _ => True := ⟨Without.start, trivial⟩
  refine hstart.bind fun _ t hstays _ => .get ?_
  have ht := (hstays h).without
  exact ht.visitChildren _ (Document.plain_root ht.fit.document)

theorem Without.render (h : stage.Without s name) (model : Value) (scope : Scope) :
    (Pass.after (Pass.render .root model scope) stage).Without s name := by
  have hmoves : Moves (Remaining s name) (Pass.render .root model scope) stage
      fun _ _ => True := by
    rw [Pass.render_eq_map, ← bind_pure_comp]
    exact (h.visits model scope).bind fun _ _ _ _ => .pure trivial
  exact (hmoves.after h).without

/-- Through renderings of the whole document the name stays undefined. -/
theorem Without.renderEach (h : stage.Without s name) (history : List (Value × Scope)) :
    (stage.renderEach history).Without s name := by
  induction history generalizing stage with
  | nil => exact h
  | cons m rest ih => exact ih (h.render m.1 m.2)

end Stage

namespace Rendering

variable {fuel : Nat} {child : NodeId} {m : Moment}

theorem ComesTo.remains (h : ComesTo model scope fuel parent child stage stage')
    (hstage : stage.Without s name) (hparent : stage.document.Plain s parent) :
    stage.Remains s name stage' ∧ stage'.document.Exposed s child := by
  obtain ⟨before, after, visits, hrow, hvisits, -⟩ := h
  have hsub : before ⊆ stage.document.childElements parent :=
    hrow ▸ List.subset_append_left before _
  have hbefore : Moves (Stage.Remaining s name) (Pass.visitAll (Pass.visitChild model scope
      (Pass.visitChildren model scope fuel) parent) before) stage fun _ _ => True :=
    hstage.visitRow hparent hsub fun _ _ ht hplain => ht.visitChildren fuel hplain
  have hremains := (hbefore.of_run hvisits).1 hstage
  exact ⟨hremains, hstage.exposed_of_child hparent (by simp [hrow]) hremains⟩

/-- At each moment of a rendering the name is undefined, and what is about to be expanded does not
define it. -/
theorem Meets.lacks (h : Meets model scope fuel parent stage m) (hstage : stage.Without s name)
    (hparent : stage.document.Plain s parent) :
    m.stage.engine.registry.Lacks name ∧ m.template.Avoids name := by
  induction h with
  | anchor hcomes hdirective hsweep htemplate h =>
    obtain ⟨h₁, hexposed⟩ := hcomes.remains hstage hparent
    rw [h₁.without.fit.settings] at hdirective
    have hswept := h₁.without.moves (Blind.closed.sweep _) ((KeepsOut.closed name).sweep _)
      (Pass.moves_sweep_spares h₁.without.fit hexposed hdirective)
    obtain ⟨hstays, hanchor⟩ := hswept.of_run hsweep
    obtain ⟨t, ht, -, havoids, hfound, -⟩ := (hstays h₁.without).without.lookUp hanchor
    obtain rfl := Option.some.inj (htemplate.symm.trans ht)
    exact h.lacks havoids hfound.without.registry
  | inside hcomes hplain hfill _ ih =>
    obtain ⟨h₁, hexposed⟩ := hcomes.remains hstage hparent
    rw [h₁.without.fit.settings] at hplain
    have hchild := Document.Plain.mk hexposed hplain
    have hfilled := ((h₁.without.fill hchild).of_run hfill).1 h₁.without
    exact ih hfilled.without (hfilled.plain _ hchild)

end Rendering

/-- The names that are found unresolved in a document that was read, each once: those that a
recursive template uses without a name of its own and that none is named. Through any renderings of
the document by an engine of its own they stay undefined, and uses of them give nothing. -/
theorem Report.unresolved_exact {tree : TreeId} {text : String} {engine : Engine}
    (hcreate : Engine.create s = .ok engine) (hread : Document.read tree text = .ok d) :
    let names := unresolved (ofDocument s d)
    names.Nodup ∧
    (∀ name, name ∈ names ↔
      (∃ x, d.directive? s x = some .recursive ∧ d.attribute? x "use" = some name ∧
        d.attribute? x "name" = none) ∧
      ∀ x, d.directive? s x = some .recursive → d.attribute? x "name" ≠ some name) ∧
    ∀ name ∈ names, ∀ history : List (Value × Scope),
      let stage := Stage.renderEach ⟨engine, d⟩ history
      Entries.get? name stage.engine.registry = none ∧
      ∀ model scope m, stage.Meets model scope m →
        Entries.get? name m.stage.engine.registry = none ∧
        ∀ source children, m.template = .recursive none (some name) source children →
          ∀ opener, Expansion.expand opener model m.template m.scope m.stage = .ok [] m.stage := by
  intro names
  have hd := (Document.Reachable.of_read hread).sound
  have hrooted := Document.rooted_of_read hread
  have hnames : ∀ name, name ∈ names ↔ _ := fun name => hrooted.mem_unresolved_iff hd
  refine ⟨(firsts_spec _).1, hnames, fun name hname history => ?_⟩
  obtain ⟨-, rfl⟩ := Engine.create_eq_ok hcreate
  have hstart : Stage.Without s name ⟨.ofSettings s, d⟩ :=
    ⟨⟨rfl, hd, nofun, nofun⟩, .empty name, nofun, fun x t _ ht =>
      Or.inr (hd.avoids_of_template? ((hnames name).1 hname).2 ht)⟩
  have hend := hstart.renderEach history
  refine ⟨hend.registry.absent, fun model scope m hm => ?_⟩
  have hlacks := (Rendering.Meets.lacks hm hend.start.without
    (Document.plain_root hend.fit.document)).1
  refine ⟨hlacks.absent, fun source children hm opener => ?_⟩
  rw [hm]
  exact Expansion.expand_use_of_absent hlacks.absent opener model source children m.scope

/-- A use of the empty name, which the mark of hidden directives gives to the using one: the name
stays undefined when that is rendered again. -/
theorem Report.unresolved_exact_hidden_name :
    let s : Settings := { Settings.default with hiddenAttribute := "name" }
    ∃ d m children, Engine.create s = .ok (.ofSettings s) ∧
      Document.read ⟨0⟩ "<recursive-template use=\"\"/>" = .ok d ∧
      "" ∈ unresolved (ofDocument s d) ∧
      (let twice := Stage.renderEach ⟨.ofSettings s, d⟩ [(.null, .empty), (.null, .empty)]
      twice.document.markup = "<recursive-template use=\"\" name=\"\"/>" ∧
        Entries.get? "" twice.engine.registry = none) ∧
      Stage.Meets ⟨.ofSettings s, d⟩ .null .empty m ∧
      m.template = .recursive none (some "") none children ∧
      ∀ opener, Expansion.expand opener .null m.template m.scope m.stage = .ok [] m.stage := by
  intro s
  have hrun : Option.any (fun d =>
      decide ("" ∈ unresolved (ofDocument s d)) &&
      (Stage.renderEach ⟨.ofSettings s, d⟩ [(.null, .empty), (.null, .empty)]).document.markup ==
        "<recursive-template use=\"\" name=\"\"/>" &&
      d.slots.size == 2 && d.childElements .root == [⟨1, 0⟩] && !d.isGenerated s ⟨1, 0⟩ &&
      d.directive? s ⟨1, 0⟩ == some .recursive && d.attributes ⟨1, 0⟩ == [("use", "")] &&
      (d.generatedRun s ⟨1, 0⟩).isEmpty)
      (Document.read ⟨0⟩ "<recursive-template use=\"\"/>").toOption = true := by
    decide +kernel
  obtain ⟨d, hread, hrun⟩ := exists_of_toOption_any hrun
  simp only [Bool.and_eq_true, Bool.not_eq_true', decide_eq_true_eq, beq_iff_eq,
    List.isEmpty_iff] at hrun
  obtain ⟨⟨⟨⟨⟨⟨⟨hname, hmarkup⟩, hsize⟩, hrow⟩, hauthored⟩, hdirective⟩, hattributes⟩, hempty⟩ :=
    hrun
  have hcreate : Engine.create s = .ok (.ofSettings s) :=
    show Engine.create { Settings.default with hiddenAttribute := "name" } = _ from rfl
  have hall := (unresolved_exact hcreate hread).2.2 "" hname
  obtain ⟨children, htemplate⟩ :=
    (Document.Reachable.of_read hread).sound.template?_of_directive? hdirective
  have huse : Template.ofDirective .recursive [("use", "")] children =
      .recursive none (some "") none children := by
    simp [Template.ofDirective, Entries.get?]
  rw [hattributes, huse] at htemplate
  obtain ⟨stage, hstage⟩ : ∃ stage : Stage, stage = ⟨.ofSettings s, d⟩ := ⟨_, rfl⟩
  have hsweep : Pass.sweep ⟨1, 0⟩ stage = .ok 0 stage := by
    have hget : (get : Pass Stage) stage = .ok stage stage := rfl
    rw [Pass.sweep, bind_eq_of_ok hget, hstage]
    dsimp only [Engine.ofSettings]
    rw [hempty]
    rfl
  have hfound : (stage.lookUp ⟨1, 0⟩).1 = some (.recursive none (some "") none children) := by
    rw [hstage, Stage.lookUp, Cache.getOrCompile_fst]
    exact htemplate
  have hmeets : stage.Meets .null .empty ⟨.recursive none (some "") none children, .empty,
      stage.withCache (stage.lookUp ⟨1, 0⟩).2⟩ := by
    subst hstage
    rw [Stage.Meets, hsize]
    exact .anchor ⟨[], [], [], hrow, rfl, hauthored⟩ (Option.isSome_of_eq_some hdirective) hsweep
      hfound .here
  subst hstage
  exact ⟨d, _, children, hcreate, hread, hname, ⟨hmarkup, (hall _).1⟩, hmeets, rfl,
    ((hall []).2 .null .empty _ hmeets).2 none children rfl⟩

end LiveMarkup
