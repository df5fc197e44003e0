import LiveMarkup.Proofs.Blind
import LiveMarkup.Proofs.Exposed
import LiveMarkup.Proofs.Passing

/-! Renderings with different caches. As long as no cache holds anything for a directive but the
template that compiling it gives, a rendering gives the same with every cache, and leaves caches
that hold nothing else. -/
namespace LiveMarkup

variable {α β : Type} {s : Settings} {d d' : Document} {id parent : NodeId} {stage stage' : Stage}
  {cache cache' : Cache} {model : Value} {scope : Scope}

/-- What compiling gives: the tags of element templates are those of no directives. -/
inductive Template.Plain (s : Settings) : Template → Prop
  | element {tag : String} {attributes : List (String × String)} {text : String}
    {children : Fragment} (htag : s.directive? tag = none) (h : ∀ t ∈ children, Plain s t) :
    Plain s (.element tag attributes text children)
  | repetition {source : Source} {binding : Option String} {children : Fragment}
    (h : ∀ t ∈ children, Plain s t) : Plain s (.repetition source binding children)
  | conditional {test : Option String} {children : Fragment} (h : ∀ t ∈ children, Plain s t) :
    Plain s (.conditional test children)
  | recursive {name target source : Option String} {children : Fragment}
    (h : ∀ t ∈ children, Plain s t) : Plain s (.recursive name target source children)

namespace Template

theorem Plain.of_mem {t u : Template} (ht : t.Plain s) (hu : u ∈ t.children) : u.Plain s := by
  cases ht <;> exact ‹∀ t ∈ _, _› u hu

theorem plain_ofDirective (directive : Directive) (attributes : List (String × String))
    {children : Fragment} (h : ∀ t ∈ children, t.Plain s) :
    (ofDirective directive attributes children).Plain s := by
  cases directive with
  | repetition => exact .repetition h
  | conditional => exact .conditional h
  | recursive => exact .recursive h

mutual

theorem plain_compile (s : Settings) : ∀ tree : Tree, ∀ t ∈ compile s tree, t.Plain s
  | .text _ => fun _ ht => by cases ht
  | .element tag attributes children => by
    have hchildren := plain_compileAll s children
    rw [compile]
    split
    · exact List.forall_mem_singleton.2 (plain_ofDirective _ _ hchildren)
    · next htag => exact List.forall_mem_singleton.2 (.element htag hchildren)

theorem plain_compileAll (s : Settings) : ∀ trees : List Tree, ∀ t ∈ compileAll s trees, t.Plain s
  | [] => fun _ ht => by cases ht
  | tree :: rest => by
    rw [compileAll]
    exact List.forall_mem_append.2 ⟨plain_compile s tree, plain_compileAll s rest⟩

end

theorem plain_of_template? {t : Template} (h : d.template? s id = some t) : t.Plain s := by
  rw [Document.template?, Option.bind_eq_some_iff] at h
  obtain ⟨tree, -, hhead⟩ := h
  exact plain_compile s tree t (List.mem_of_mem_head? hhead)

end Template

/-- Expansions spare directives. -/
theorem Document.expansionKeeps_spares (s : Settings) :
    ExpansionKeeps s (Spares s) Document.Sound (Plain s) (Template.Plain s) where
  inv h := h.sound
  new h := h.plain
  good_of_mem := .of_mem
  good_of_compiled _ := Template.plain_of_template?
  createElement hd hgood h := by
    cases hgood with
    | element htag _ => exact Spares.createElement hd htag h
  setNote := .setNote
  setDirectText hd hx content := Spares.setDirectText hd hx content
  setAttribute := .setAttribute
  append := .append

/-- The cache holds nothing stale: what it has for a directive is what compiling it gives. -/
structure Stage.Fresh (s : Settings) (stage : Stage) : Prop where
  fit : stage.Fit s Document.Sound (Template.Plain s)
  entry : ∀ id t, Entries.get? (stage.document.tree, id) stage.engine.cache.entries = some t →
    (stage.document.directive? s id).isSome = true → stage.document.template? s id = some t

/-- A fresh stage has become a fresh one. The directives that are left are as they were, and there
are no new entries but for directives that had been there. -/
def Stage.Onward (s : Settings) (stage stage' : Stage) : Prop :=
  stage.Fresh s → stage'.Fresh s ∧ stage.document.Spares s stage'.document ∧
    ∀ key, (Entries.get? key stage'.engine.cache.entries).isSome = true →
      (Entries.get? key stage.engine.cache.entries).isSome = true ∨
      ∃ id, key = (stage.document.tree, id) ∧ (stage.document.directive? s id).isSome = true

instance : Std.Refl (Stage.Onward s) := ⟨fun _ h => ⟨h, Std.Refl.refl _, fun _ => Or.inl⟩⟩

instance : IsTrans Stage (Stage.Onward s) where
  trans a b c h h' hfresh := by
    obtain ⟨hfresh₁, hspares₁, hkeys₁⟩ := h hfresh
    obtain ⟨hfresh₂, hspares₂, hkeys₂⟩ := h' hfresh₁
    refine ⟨hfresh₂, IsTrans.trans _ _ _ hspares₁ hspares₂, fun key hkey => ?_⟩
    rcases hkeys₂ key hkey with hkey | ⟨id, rfl, hid⟩
    · exact hkeys₁ key hkey
    · rw [(hspares₁.same id hid).1] at hid
      exact Or.inr ⟨id, by rw [hspares₁.tree], hid⟩

/-- With the same cache a stage stays fresh where directives are spared. -/
theorem Stage.Onward.of_spares (hspares : stage.document.Spares s stage'.document)
    (hfit : stage'.Fit s Document.Sound (Template.Plain s))
    (hcache : stage'.engine.cache = stage.engine.cache) : stage.Onward s stage' := fun hfresh => by
  refine ⟨⟨hfit, fun id t hentry hid => ?_⟩, hspares, fun key hkey => Or.inl ?_⟩
  · obtain ⟨hdirective, htemplate⟩ := hspares.same id hid
    rw [hdirective] at hid
    rw [hcache, hspares.tree] at hentry
    rw [htemplate]
    exact hfresh.entry id t hentry hid
  · rwa [hcache] at hkey

/-- New entries hold what compiling gives. -/
theorem Stage.Onward.withCache (hentries : ∀ key t, Entries.get? key cache.entries = some t →
      Entries.get? key stage.engine.cache.entries = some t ∨
      ∃ id, key = (stage.document.tree, id) ∧ (stage.document.directive? s id).isSome = true ∧
        stage.document.template? s id = some t) : stage.Onward s (stage.withCache cache) :=
  fun hfresh => by
    refine ⟨⟨⟨hfresh.fit.settings, hfresh.fit.document, hfresh.fit.registry, fun key t ht => ?_⟩,
      fun id t ht hid => ?_⟩, Std.Refl.refl _, fun key hkey => ?_⟩
    · rcases hentries key t ht with hold | ⟨id, -, -, htemplate⟩
      · exact hfresh.fit.cache key t hold
      · exact Template.plain_of_template? htemplate
    · rcases hentries _ t ht with hold | ⟨id', hkey, -, htemplate⟩
      · exact hfresh.entry id t hold hid
      · obtain rfl : id = id' := (Prod.mk.injEq .. ▸ hkey).2
        exact htemplate
    · obtain ⟨t, ht⟩ := Option.isSome_iff_exists.1 hkey
      rcases hentries key t ht with hold | ⟨id, rfl, hid, -⟩
      · exact Or.inl (Option.isSome_iff_exists.2 ⟨t, hold⟩)
      · exact Or.inr ⟨id, rfl, hid⟩

/-- On a fresh stage a directive's template is what compiling it gives, cached or not. -/
theorem Stage.Fresh.lookUp_eq (h : stage.Fresh s)
    (hid : (stage.document.directive? s id).isSome = true) :
    ∃ cache, stage.Onward s (stage.withCache cache) ∧
      stage.lookUp id = (stage.document.template? s id, cache) := by
  have hgiven : (stage.lookUp id).1 = stage.document.template? s id := by
    rw [Stage.lookUp, Cache.getOrCompile_fst, h.fit.settings]
    cases hentry : Entries.get? (stage.document.tree, id) stage.engine.cache.entries with
    | some t => exact (h.entry id t hentry hid).symm
    | none => exact Option.none_or
  refine ⟨_, .withCache fun key t ht => ?_, Prod.ext hgiven rfl⟩
  rw [Stage.get?_lookUp] at ht
  split at ht
  · next hkey => exact Or.inr ⟨id, hkey, hid, hgiven.symm.trans ht⟩
  · exact Or.inl ht

theorem Stage.Fresh.expandNode_eq (h : stage.Fresh s)
    (hid : (stage.document.directive? s id).isSome = true) (model : Value) (scope : Scope) :
    ∃ cache, stage.Onward s (stage.withCache cache) ∧ Pass.expandNode id model scope stage =
      ((stage.document.template? s id).elim (pure []) fun t => Pass.expand t model scope)
        (stage.withCache cache) := by
  obtain ⟨cache, honward, hfound⟩ := h.lookUp_eq hid
  exact ⟨cache, honward, by rw [Pass.expandNode_eq, hfound]⟩

theorem Blind.moves_cache {work : Pass α} (h : Blind work) (stage : Stage) :
    Moves (fun a b => b.engine.cache = a.engine.cache) work stage fun _ _ => True := by
  have hsame := h stage stage.engine.cache
  have hwith : stage.withCache stage.engine.cache = stage := rfl
  rw [hwith] at hsame
  rw [Moves]
  cases hrun : work stage with
  | ok a t =>
    simp only [hrun, EStateM.Result.ok.injEq, true_and] at hsame
    exact ⟨congrArg (·.engine.cache) hsame, trivial⟩
  | error e t =>
    simp only [hrun, EStateM.Result.error.injEq, true_and] at hsame
    exact congrArg (·.engine.cache) hsame

/-- With two caches, the work comes out alike but for the caches, and goes onward with both. -/
def Agrees (s : Settings) (work : Pass α) (stage : Stage) (cache : Cache)
    (post : α → Stage → Prop) : Prop :=
  match work stage, work (stage.withCache cache) with
  | .ok a t, .ok a' t' => a' = a ∧ stage.Onward s t ∧ post a t ∧
    ∃ cache', t' = t.withCache cache' ∧ (stage.withCache cache).Onward s t'
  | .error e t, .error e' t' => e' = e ∧ stage.Onward s t ∧
    ∃ cache', t' = t.withCache cache' ∧ (stage.withCache cache).Onward s t'
  | _, _ => False

namespace Agrees

variable {work : Pass α} {next : α → Pass β} {post : α → Stage → Prop}

theorem pure {a : α} (h : post a stage) : Agrees s (pure a) stage cache post :=
  ⟨rfl, Std.Refl.refl _, h, cache, rfl, Std.Refl.refl _⟩

theorem bind {post' : β → Stage → Prop} (h : Agrees s work stage cache post)
    (hnext : ∀ a t cache', stage.Onward s t →
      (stage.withCache cache).Onward s (t.withCache cache') → post a t →
      Agrees s (next a) t cache' post') :
    Agrees s (work >>= next) stage cache post' := by
  rw [Agrees] at h
  split at h
  · next a t a' t' hwork hwork' =>
    obtain ⟨rfl, honward, hpost, cache', rfl, honward'⟩ := h
    have hstep := hnext _ t cache' honward honward' hpost
    rw [Agrees] at hstep ⊢
    rw [bind_eq_of_ok hwork, bind_eq_of_ok hwork']
    split at hstep
    · obtain ⟨rfl, hon, hpost', cache'', rfl, hon'⟩ := hstep
      exact ⟨rfl, IsTrans.trans _ _ _ honward hon, hpost', cache'', rfl,
        IsTrans.trans _ _ _ honward' hon'⟩
    · obtain ⟨rfl, hon, cache'', rfl, hon'⟩ := hstep
      exact ⟨rfl, IsTrans.trans _ _ _ honward hon, cache'', rfl, IsTrans.trans _ _ _ honward' hon'⟩
    · exact hstep
  · next e t e' t' hwork hwork' =>
    obtain ⟨rfl, honward, cache', rfl, honward'⟩ := h
    rw [Agrees, bind_eq_of_error hwork, bind_eq_of_error hwork']
    exact ⟨rfl, honward, cache', rfl, honward'⟩
  · exact h.elim

/-- Work that looks at the stage first, but not at its cache. -/
theorem get {next : Stage → Pass α} (hsame : next (stage.withCache cache) = next stage)
    (h : Agrees s (next stage) stage cache post) : Agrees s (get >>= next) stage cache post := by
  have hother : (MonadState.get >>= next) (stage.withCache cache) =
      next stage (stage.withCache cache) := congrFun hsame _
  rw [Agrees, hother]
  exact h

/-- Blind work that spares directives. -/
theorem of_blind (hblind : Blind work) (hfit : stage.Fit s Document.Sound (Template.Plain s))
    (hfit' : (stage.withCache cache).Fit s Document.Sound (Template.Plain s))
    (hmoves : Moves (Stage.Leads s (Document.Spares s) Document.Sound (Template.Plain s)) work
      stage post) : Agrees s work stage cache post := by
  have hself : ∀ t, Stage.Leads s (Document.Spares s) Document.Sound (Template.Plain s) stage t →
      t.engine.cache = stage.engine.cache → stage.Onward s t ∧
        (stage.withCache cache).Onward s (t.withCache cache) := by
    intro t hlead hcache
    obtain ⟨hfit₁, hspares⟩ := hlead hfit
    refine ⟨.of_spares hspares hfit₁ hcache, .of_spares hspares ?_ rfl⟩
    exact ⟨hfit₁.settings, hfit₁.document, hfit₁.registry, hfit'.cache⟩
  have hboth := hmoves.and (hblind.moves_cache stage)
  rw [Moves] at hboth
  rw [Agrees, hblind stage cache]
  split at hboth
  · next a t hwork =>
    obtain ⟨⟨hlead, hcache⟩, hpost, -⟩ := hboth
    obtain ⟨hon, hon'⟩ := hself t hlead hcache
    rw [hwork]
    exact ⟨rfl, hon, hpost, cache, rfl, hon'⟩
  · next e t hwork =>
    obtain ⟨hon, hon'⟩ := hself t hboth.1 hboth.2
    rw [hwork]
    exact ⟨rfl, hon, cache, rfl, hon'⟩

/-- Only what the work does at the two stages counts. -/
theorem congr {work' : Pass α} {k k' : Cache} (h : work stage = work' (stage.withCache k))
    (h' : work (stage.withCache cache) = work' (stage.withCache k'))
    (honward : stage.Onward s (stage.withCache k))
    (honward' : (stage.withCache cache).Onward s (stage.withCache k'))
    (hwork : Agrees s work' (stage.withCache k) k' post) : Agrees s work stage cache post := by
  rw [Agrees] at hwork
  rw [Agrees, h, h']
  split at hwork
  · next hrun hrun' =>
    obtain ⟨rfl, hon, hpost, cache', rfl, hon'⟩ := hwork
    rw [hrun, show work' (stage.withCache k') = _ from hrun']
    exact ⟨rfl, IsTrans.trans _ _ _ honward hon, hpost, cache', rfl,
      IsTrans.trans _ _ _ honward' hon'⟩
  · next hrun hrun' =>
    obtain ⟨rfl, hon, cache', rfl, hon'⟩ := hwork
    rw [hrun, show work' (stage.withCache k') = _ from hrun']
    exact ⟨rfl, IsTrans.trans _ _ _ honward hon, cache', rfl, IsTrans.trans _ _ _ honward' hon'⟩
  · exact hwork.elim

end Agrees

theorem Document.Sound.exists_shapes {l : List NodeId} (hd : d.Sound)
    (hl : ∀ x ∈ l, d.parent? x = some parent) :
    ∃ shapes, shapes.map Shape.id = l ∧ Shape.InAll d (some parent) shapes := by
  induction l with
  | nil => exact ⟨[], rfl, trivial⟩
  | cons x rest ih =>
    rw [List.forall_mem_cons] at hl
    obtain ⟨shape, rfl, hshape⟩ := hd.exists_shape (hd.contains_of_parent? hl.1).1
    obtain ⟨shapes, rfl, hshapes⟩ := ih hl.2
    rw [hl.1] at hshape
    exact ⟨shape :: shapes, rfl, hshape, hshapes⟩

/-- What stands before a node is removed without harm to the node. -/
theorem Pass.sweep_eq_ok (id : NodeId) (hd : stage.document.Sound) :
    ∃ n d', Pass.sweep id stage = .ok n { stage with document := d' } ∧
      d'.node? id = stage.document.node? id := by
  obtain ⟨engine, d⟩ := stage
  obtain ⟨run, hrun⟩ : ∃ run, run = d.generatedRun engine.settings id := ⟨_, rfl⟩
  have hsweep : ∀ d', (run.forM fun node => Edit.apply (·.remove node)) d = .ok ⟨⟩ d' →
      Pass.sweep id ⟨engine, d⟩ = .ok run.length ⟨engine, d'⟩ := by
    intro d' hok
    subst hrun
    refine bind_eq_of_ok (t := (⟨engine, d'⟩ : Stage)) (a := PUnit.unit) ?_
    rw [Pass.forM_apply, Pass.edit, hok]
  have hsub : run.reverse.Sublist (d.precedingSiblings id) := by
    rw [hrun, Document.generatedRun]
    exact List.reverse_sublist.2 (List.takeWhile_sublist _) |>.trans (by rw [List.reverse_reverse])
  obtain ⟨-, hnone⟩ | ⟨q, left, right, hp, hrow, hleft⟩ := hd.precedingSiblings_cases id
  · have hempty : run = [] := by
      rw [hnone] at hsub
      exact List.reverse_eq_nil_iff.1 (List.sublist_nil.1 hsub)
    exact ⟨_, d, hsweep d (by rw [hempty]; rfl), rfl⟩
  · rw [hleft] at hsub
    have hchildren := hd.nodup_children q
    rw [hrow, List.nodup_append'] at hchildren
    have hmem : ∀ x ∈ run, x ∈ d.children q ∧ x ≠ id := fun x hx => by
      have hx := hsub.subset (List.mem_reverse.2 hx)
      refine ⟨hrow ▸ List.mem_append_left _ hx, ?_⟩
      rintro rfl
      exact hchildren.2.2 hx (List.mem_cons_self ..)
    obtain ⟨shapes, hshapes, hin⟩ :=
      hd.exists_shapes fun x hx => hd.mem_children_iff.1 (hmem x hx).1
    have hnodup : (shapes.map Shape.id).Nodup := by
      rw [hshapes, ← List.nodup_reverse]
      exact hsub.nodup hchildren.1
    obtain ⟨d', hok, -, -, -, hnode⟩ := hd.forM_remove hin hnodup
    rw [hshapes] at hok
    refine ⟨_, d', hsweep d' hok, ?_⟩
    obtain ⟨shape, rfl, hshape⟩ := hd.exists_shape (hd.contains_of_parent? hp).1
    rw [hp] at hshape
    have hkept : shape.id ∉ Shape.idsAll shapes := fun h => by
      obtain ⟨x, hx, hxid⟩ := Shape.mem_idsAll_iff.1 h
      refine hd.disjoint_ids (Shape.inAll_iff.1 hin x hx) hshape ?_ hxid shape.id_mem_ids
      exact (hmem x.id (hshapes ▸ List.mem_map_of_mem hx)).2
    have hne : shape.id ≠ q := by
      rintro rfl
      exact hd.not_above_parent hp .refl
    rw [hnode, if_neg hkept]
    simp [hne]

/-- A sweep spares directives and leaves the one that it is for. -/
theorem Pass.moves_sweep_spares (hfit : stage.Fit s Document.Sound (Template.Plain s))
    (hexposed : stage.document.Exposed s id)
    (hid : (stage.document.directive? s id).isSome = true) :
    Moves (Stage.Leads s (Document.Spares s) Document.Sound (Template.Plain s)) (Pass.sweep id)
      stage fun _ t => (t.document.directive? s id).isSome = true := by
  have hmoves : Moves (Stage.Leads s (Document.Spares s) Document.Sound (Template.Plain s))
      (Pass.sweep id) stage fun _ _ => True :=
    Pass.moves_sweep (fun _ _ h => h.sound) hfit fun x hx _ _ hspares h => by
      have hsibling := List.mem_reverse.1 (List.takeWhile_subset _ hx)
      exact .remove (hspares.sound hfit.document)
        (hspares.exposed x (Document.exposed_of_sibling hfit.document hexposed hsibling)) h
  obtain ⟨n, d', hok, hnode⟩ := Pass.sweep_eq_ok id hfit.document
  refine .of_ok hok (hmoves.of_run hok).1 ?_
  rwa [Document.directive?_congr (congrArg _ hnode)]

/-- Plain nodes that are put under a plain one spare directives. -/
theorem Pass.moves_insertBefore_spares {nodes : List NodeId}
    (hfit : stage.Fit s Document.Sound (Template.Plain s)) (hparent : stage.document.Plain s parent)
    (hnodes : ∀ x ∈ nodes, stage.document.Plain s x) :
    Moves (Stage.Leads s (Document.Spares s) Document.Sound (Template.Plain s))
      (nodes.forM fun node => Pass.apply (·.insertBefore parent node id)) stage fun _ _ => True :=
  .forM fun node hnode t hlead => (Document.expansionKeeps_spares s).apply fun _ => by
    obtain ⟨hfit', hspares⟩ := hlead hfit
    exact .insertBefore hfit'.document (hspares.plain hparent) (hspares.plain (hnodes node hnode))

theorem agrees_sweep (hfresh : stage.Fresh s) (hfresh' : (stage.withCache cache).Fresh s)
    (hexposed : stage.document.Exposed s id)
    (hid : (stage.document.directive? s id).isSome = true) :
    Agrees s (Pass.sweep id) stage cache fun _ t => (t.document.directive? s id).isSome = true :=
  .of_blind (Blind.closed.sweep id) hfresh.fit hfresh'.fit
    (Pass.moves_sweep_spares hfresh.fit hexposed hid)

theorem agrees_expandNode (hfresh : stage.Fresh s) (hfresh' : (stage.withCache cache).Fresh s)
    (hid : (stage.document.directive? s id).isSome = true) :
    Agrees s (Pass.expandNode id model scope) stage cache fun nodes t =>
      ∀ x ∈ nodes, t.document.Plain s x := by
  obtain ⟨k, honward, hrun⟩ := hfresh.expandNode_eq hid model scope
  obtain ⟨k', honward', hrun'⟩ := hfresh'.expandNode_eq hid model scope
  refine .congr hrun hrun' honward honward' ?_
  have hfit := (honward hfresh).1.fit
  have hfit' := (honward' hfresh').1.fit
  cases htemplate : stage.document.template? s id with
  | none => exact .pure fun x hx => by cases hx
  | some t =>
    have hplain := Template.plain_of_template? htemplate
    exact .of_blind (Pass.blind_expand t model scope) hfit hfit'
      ((Document.expansionKeeps_spares s).expandPass hplain _ hfit)

section

variable (hhidden : s.hiddenAttribute ∉ Document.directiveAttributes)
include hhidden

theorem agrees_renderAnchor (hfresh : stage.Fresh s) (hfresh' : (stage.withCache cache).Fresh s)
    (hparent : stage.document.Plain s parent) (hexposed : stage.document.Exposed s id)
    (hid : (stage.document.directive? s id).isSome = true) :
    Agrees s (Pass.renderAnchor parent id model scope) stage cache fun _ _ => True := by
  refine (agrees_sweep hfresh hfresh' hexposed hid).bind
    fun swept stage₁ cache₁ hon₁ hon₁' hid₁ => ?_
  obtain ⟨hfresh₁, hspares₁, -⟩ := hon₁ hfresh
  have hfresh₁' := (hon₁' hfresh').1
  refine (agrees_expandNode hfresh₁ hfresh₁' hid₁).bind
    fun nodes stage₂ cache₂ hon₂ hon₂' hnodes => ?_
  obtain ⟨hfresh₂, hspares₂, -⟩ := hon₂ hfresh₁
  have hfresh₂' := (hon₂' hfresh₁').1
  have hspares₂ := IsTrans.trans _ _ _ hspares₁ hspares₂
  have hput : Agrees s (nodes.forM fun node => Pass.apply (·.insertBefore parent node id)) stage₂
      cache₂ fun _ _ => True :=
    .of_blind (Blind.closed.forM fun _ _ => .apply _) hfresh₂.fit hfresh₂'.fit
      (Pass.moves_insertBefore_spares hfresh₂.fit (hspares₂.plain hparent) hnodes)
  refine hput.bind fun _ stage₃ cache₃ hon₃ hon₃' _ => ?_
  obtain ⟨hfresh₃, hspares₃, -⟩ := hon₃ hfresh₂
  have hfresh₃' := (hon₃' hfresh₂').1
  have hexposed₃ := hspares₃.exposed id (hspares₂.exposed id hexposed)
  refine .of_blind (.get (fun _ => (Blind.apply _).bind fun _ => .pure _) fun _ _ => rfl)
    hfresh₃.fit hfresh₃'.fit (.get ?_)
  rw [hfresh₃.fit.settings]
  refine ((Document.expansionKeeps_spares s).apply fun _ => ?_).bind fun _ _ _ _ => .pure trivial
  exact .mark hfresh₃.fit.document hexposed₃ hhidden

omit hhidden in
theorem agrees_sum {work : NodeId → Pass Counts} {l : List NodeId} (hfresh : stage.Fresh s)
    (hfresh' : (stage.withCache cache).Fresh s)
    (h : ∀ x ∈ l, ∀ t cache', t.Fresh s → (t.withCache cache').Fresh s →
      stage.document.Spares s t.document → Agrees s (work x) t cache' fun _ _ => True) :
    Agrees s (Pass.sum work l) stage cache fun _ _ => True := by
  induction l generalizing stage cache with
  | nil => exact .pure trivial
  | cons x rest ih =>
    rw [List.forall_mem_cons] at h
    refine (h.1 stage cache hfresh hfresh' (Std.Refl.refl _)).bind
      fun counts t cache' hon hon' _ => ?_
    obtain ⟨hfresh₁, hspares, -⟩ := hon hfresh
    refine (ih hfresh₁ (hon' hfresh').1 fun y hy u cache'' hu hu' hspares' => ?_).bind
      fun _ _ _ _ _ _ => .pure trivial
    exact h.2 y hy u cache'' hu hu' (IsTrans.trans _ _ _ hspares hspares')

theorem agrees_renderChildren {fuel : Nat} (hfresh : stage.Fresh s)
    (hfresh' : (stage.withCache cache).Fresh s) (hparent : stage.document.Plain s parent) :
    Agrees s (Pass.renderChildren model scope fuel parent) stage cache fun _ _ => True := by
  have hK := Document.expansionKeeps_spares s
  induction fuel generalizing stage cache parent with
  | zero => exact .pure trivial
  | succ fuel ih =>
    refine .get rfl (agrees_sum hfresh hfresh' fun child hchild t cache' ht ht' hspares => ?_)
    have hmem : child ∈ stage.document.children parent := (List.mem_filter.1 hchild).1
    have hexposed := hspares.exposed child
      (Document.exposed_of_child hparent (hfresh.fit.document.mem_children_iff.1 hmem))
    refine .get rfl ?_
    dsimp only
    rw [ht.fit.settings]
    split
    · exact .pure trivial
    · split
      · next hdirective =>
        exact agrees_renderAnchor hhidden ht ht' (hspares.plain hparent) hexposed hdirective
      · next hdirective =>
        have hplain : t.document.Plain s child := ⟨hexposed, by simpa using hdirective⟩
        have hfill : Agrees s (Pass.edit (Document.fill child model scope)) t cache'
            fun _ _ => True :=
          .of_blind (.edit _) ht.fit ht'.fit (hK.edit (hK.fill ht.fit.document hplain))
        refine hfill.bind fun _ u cache'' hon hon' _ => ?_
        obtain ⟨hu, hspares', -⟩ := hon ht
        exact ih hu (hon' ht').1 (hspares'.plain hplain)

theorem agrees_render {root : NodeId} (hfresh : stage.Fresh s)
    (hfresh' : (stage.withCache cache).Fresh s) (hroot : stage.document.Plain s root) :
    Agrees s (Pass.render root model scope) stage cache fun _ _ => True := by
  have hdepth : ∀ stage : Stage, stage.Onward s { stage with engine.depth := 0 } := fun stage h =>
    Stage.Onward.of_spares (Std.Refl.refl _)
      ⟨h.fit.settings, h.fit.document, h.fit.registry, h.fit.cache⟩ rfl h
  have hstart : Agrees s (Pass.modifyEngine fun e => { e with depth := 0 }) stage cache
      fun _ t => t = { stage with engine.depth := 0 } :=
    ⟨rfl, hdepth _, rfl, cache, rfl, hdepth _⟩
  refine hstart.bind fun _ t cache' hon hon' ht => .get rfl ?_
  subst ht
  exact agrees_renderChildren hhidden (hon hfresh).1 (hon' hfresh').1 hroot

end

/-- What a pass gives and leaves, but for the cache: its result or its error, the document and the
recursive templates that are known. -/
def Pass.outcome (work : Pass α) (stage : Stage) : Except TreeError α × Document × Registry :=
  match work stage with
  | .ok a t => (.ok a, t.document, t.engine.registry)
  | .error e t => (.error e, t.document, t.engine.registry)

theorem Agrees.outcome_eq {work : Pass α} {post : α → Stage → Prop}
    (h : Agrees s work stage cache post) :
    Pass.outcome work (stage.withCache cache) = Pass.outcome work stage := by
  rw [Agrees] at h
  rw [Pass.outcome, Pass.outcome]
  split at h
  · next hrun hrun' =>
    obtain ⟨rfl, -, -, cache', rfl, -⟩ := h
    rw [hrun, hrun']
    rfl
  · next hrun hrun' =>
    obtain ⟨rfl, -, cache', rfl, -⟩ := h
    rw [hrun, hrun']
    rfl
  · exact h.elim

theorem Agrees.onward {work : Pass α} {post : α → Stage → Prop}
    (h : Agrees s work stage cache post) : stage.Onward s (Pass.after work stage) := by
  rw [Agrees] at h
  rw [Pass.after]
  split at h
  · next hrun _ =>
    rw [hrun]
    exact h.2.1
  · next hrun _ =>
    rw [hrun]
    exact h.2.1
  · exact h.elim

end LiveMarkup
