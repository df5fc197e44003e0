import LiveMarkup.Proofs.Denotation
import LiveMarkup.Proofs.Document.Sound
import LiveMarkup.Proofs.Moves
import LiveMarkup.Render

/-! What passes keep to, failing ones included. A pass is made of few kinds of edits; a relation of
documents that each of them keeps to, where a pass makes it, is kept by every expansion and every
rendering. -/
namespace LiveMarkup

variable {α β : Type}

/-- The stage after a pass, whether it succeeds or not. -/
def Pass.after (work : Pass α) (stage : Stage) : Stage :=
  match work stage with
  | .ok _ stage' => stage'
  | .error _ stage' => stage'

/-- Whatever a relation of stages says of a pass, it says of the stage after it. -/
theorem Moves.after {stage : Stage} {R : Stage → Stage → Prop} {work : Pass α}
    {post : α → Stage → Prop} (h : Moves R work stage post) : R stage (Pass.after work stage) := by
  rw [Moves] at h
  rw [Pass.after]
  split at h <;> simp_all

/-- A relation that expansions keep to: they change new nodes only, and expand good templates
only. -/
structure ExpansionKeeps (s : Settings) (R : Document → Document → Prop) (Inv : Document → Prop)
    (New : Document → NodeId → Prop) (Good : Template → Prop) : Prop where
  inv : ∀ {d d'}, R d d' → Inv d → Inv d'
  new : ∀ {d d' x}, R d d' → New d x → New d' x
  good_of_mem : ∀ {t u}, Good t → u ∈ t.children → Good u
  good_of_compiled : ∀ {d : Document} {id t}, Inv d → d.template? s id = some t → Good t
  createElement : ∀ {d d' id tag attributes text children}, Inv d →
    Good (.element tag attributes text children) → d.createElement tag = .ok (id, d') →
    R d d' ∧ New d' id
  setNote : ∀ {d d' id key value}, Inv d → New d id → d.setNote id key value = .ok d' → R d d'
  setDirectText : ∀ {d id}, Inv d → New d id → ∀ content,
    Moves R (Document.setDirectText id content) d fun _ _ => True
  setAttribute : ∀ {d d' id name value}, Inv d → New d id →
    d.setAttribute id name value = .ok d' → R d d'
  append : ∀ {d d' p c}, Inv d → New d p → New d c → d.append p c = .ok d' → R d d'

/-- A relation that renderings keep to, and one that their expansions keep to. A rendering comes to
loose nodes: what is no directive it fills and puts nodes below it, before a directive it sweeps,
and it hides the directive later on. -/
structure RenderingKeeps (s : Settings) (model : Value) (scope : Scope)
    (R E : Document → Document → Prop) (Inv : Document → Prop)
    (Loose Free New : Document → NodeId → Prop) (Good : Template → Prop) : Prop extends
    ExpansionKeeps s E Inv New Good where
  of_expansion : ∀ {d d'}, E d d' → R d d'
  keep : ∀ {d d'}, R d d' → Inv d → Inv d'
  loose : ∀ {d d' x}, R d d' → Loose d x → Loose d' x
  free : ∀ {d d' x}, R d d' → Free d x → Free d' x
  free_of_loose : ∀ {d x}, Inv d → Loose d x → d.directive? s x = none → Free d x
  loose_of_child : ∀ {d p x}, Inv d → Free d p → x ∈ d.children p → Loose d x
  fill : ∀ {d id}, Inv d → Loose d id → d.directive? s id = none →
    Moves R (Document.fill id model scope) d fun _ _ => True
  sweep : ∀ {d d₁ d₂ : Document} {anchor x}, Inv d → Loose d anchor →
    (d.directive? s anchor).isSome = true → x ∈ d.generatedRun s anchor → R d d₁ →
    d₁.remove x = .ok d₂ → R d₁ d₂
  insertBefore : ∀ {d d' p c r}, Inv d → Free d p → New d c → d.insertBefore p c r = .ok d' →
    E d d'
  hide : ∀ {d d₁ d₂ : Document} {anchor}, Inv d → Loose d anchor →
    (d.directive? s anchor).isSome = true → R d d₁ →
    d₁.setAttribute anchor s.hiddenAttribute "" = .ok d₂ → R d₁ d₂

/-- A relation that the edits of passes keep to. A pass changes nodes that are free, sweeps and
hides nodes that are loose, and expands good templates only. -/
structure PassKeeps (s : Settings) (R : Document → Document → Prop)
    (Loose Free : Document → NodeId → Prop) (Good : Template → Prop) : Prop extends
    ExpansionKeeps s R Document.Sound Free Good where
  loose : ∀ {d d' x}, R d d' → Loose d x → Loose d' x
  free_of_loose : ∀ {d x}, Loose d x → d.directive? s x = none → Free d x
  loose_of_child : ∀ {d p x}, d.Sound → Free d p → x ∈ d.children p → Loose d x
  loose_of_sibling : ∀ {d x y}, d.Sound → Loose d x → y ∈ d.precedingSiblings x → Loose d y
  hide : ∀ {d d' id}, d.Sound → Loose d id → d.setAttribute id s.hiddenAttribute "" = .ok d' →
    R d d'
  insertBefore : ∀ {d d' p c r}, d.Sound → Free d p → Free d c → d.insertBefore p c r = .ok d' →
    R d d'
  remove : ∀ {d d' id}, d.Sound → Loose d id → d.remove id = .ok d' → R d d'

/-- A stage for passes under given settings: all that can be expanded on it is good. -/
structure Stage.Fit (s : Settings) (Inv : Document → Prop) (Good : Template → Prop)
    (stage : Stage) : Prop where
  settings : stage.engine.settings = s
  document : Inv stage.document
  registry : ∀ name definition, Entries.get? name stage.engine.registry = some definition →
    ∀ t ∈ definition.fragment, Good t
  cache : ∀ key t, Entries.get? key stage.engine.cache.entries = some t → Good t

/-- A fit stage has become a fit stage again, with related documents. -/
def Stage.Leads (s : Settings) (R : Document → Document → Prop) (Inv : Document → Prop)
    (Good : Template → Prop) (stage stage' : Stage) : Prop :=
  stage.Fit s Inv Good → stage'.Fit s Inv Good ∧ R stage.document stage'.document

/-- On every fit stage the work keeps to a relation, and the nodes that it gives are new. -/
def Makes (s : Settings) (R : Document → Document → Prop) (Inv : Document → Prop)
    (New : Document → NodeId → Prop) (Good : Template → Prop) (work : Pass (List NodeId)) : Prop :=
  ∀ stage : Stage, stage.Fit s Inv Good →
    Moves (Stage.Leads s R Inv Good) work stage fun nodes t => ∀ x ∈ nodes, New t.document x

section

variable {s : Settings} {R : Document → Document → Prop} {Inv : Document → Prop}
  {New : Document → NodeId → Prop} {Good : Template → Prop} [Std.Refl R] [IsTrans Document R]
  {stage : Stage}

instance : Std.Refl (Stage.Leads s R Inv Good) := ⟨fun _ h => ⟨h, Std.Refl.refl _⟩⟩

instance : IsTrans Stage (Stage.Leads s R Inv Good) where
  trans _ _ _ h h' hfit := by
    obtain ⟨hfit₁, hR⟩ := h hfit
    obtain ⟨hfit₂, hR'⟩ := h' hfit₁
    exact ⟨hfit₂, IsTrans.trans _ _ _ hR hR'⟩

omit [IsTrans Document R] in
/-- A change of the engine that leaves its settings and brings nothing in but good templates. -/
theorem Pass.moves_modifyEngine {f : Engine → Engine}
    (hf : stage.Fit s Inv Good → Stage.Fit s Inv Good { stage with engine := f stage.engine }) :
    Moves (Stage.Leads s R Inv Good) (Pass.modifyEngine f) stage fun _ t =>
      t = { stage with engine := f stage.engine } :=
  ⟨fun hfit => ⟨hf hfit, Std.Refl.refl _⟩, rfl⟩

omit [Std.Refl R] [IsTrans Document R] in
theorem Pass.moves_inner {work : Pass α} (post : α → Document → Prop)
    (h : Moves (Stage.Leads s R Inv Good) work
      { stage with engine.depth := stage.engine.depth + 1 } fun a t => post a t.document) :
    Moves (Stage.Leads s R Inv Good) (Pass.inner work) stage fun a t => post a t.document := by
  have hleave : ∀ t : Stage,
      Stage.Leads s R Inv Good { stage with engine.depth := stage.engine.depth + 1 } t →
      Stage.Leads s R Inv Good stage { t with engine.depth := t.engine.depth - 1 } :=
    fun t hlead hfit => by
      obtain ⟨hfit', hR⟩ := hlead ⟨hfit.settings, hfit.document, hfit.registry, hfit.cache⟩
      exact ⟨⟨hfit'.settings, hfit'.document, hfit'.registry, hfit'.cache⟩, hR⟩
  rw [Moves] at h
  rw [Moves, Pass.inner]
  dsimp only
  split at h
  · next a t hwork =>
    rw [hwork]
    exact ⟨hleave t h.1, h.2⟩
  · next e t hwork =>
    rw [hwork]
    exact hleave t h

theorem Pass.moves_sum {work : α → Pass Counts} {l : List α}
    (h : ∀ a ∈ l, ∀ t, Stage.Leads s R Inv Good stage t →
      Moves (Stage.Leads s R Inv Good) (work a) t fun _ _ => True) :
    Moves (Stage.Leads s R Inv Good) (Pass.sum work l) stage fun _ _ => True := by
  induction l generalizing stage with
  | nil => exact .pure trivial
  | cons a rest ih =>
    refine (h a (List.mem_cons_self ..) stage (Std.Refl.refl _)).bind fun _ t hst _ => ?_
    refine (ih fun b hb u htu => ?_).bind fun _ _ _ _ => .pure trivial
    exact h b (List.mem_cons_of_mem _ hb) u (IsTrans.trans _ _ _ hst htu)

namespace Makes

omit [IsTrans Document R] in
theorem nothing : Makes s R Inv New Good (pure []) := fun _ _ => .pure fun _ hx => by cases hx

omit [IsTrans Document R] in
theorem use {opener : Opener} (hopener : ∀ fragment scope, (∀ t ∈ fragment, Good t) →
      Makes s R Inv New Good (opener fragment scope)) (name : String) (source : Option String)
    (scope : Scope) : Makes s R Inv New Good (Expansion.use opener name source scope) := by
  intro stage hfit
  refine .get ?_
  split
  · exact Makes.nothing stage hfit
  · next definition hname =>
    split
    · exact Makes.nothing stage hfit
    · rw [Registry.instance?, Option.map_eq_some_iff] at hname
      obtain ⟨found, hfound, rfl⟩ := hname
      exact Pass.moves_inner (fun nodes d => ∀ x ∈ nodes, New d x)
        (hopener _ _ (hfit.registry name found hfound) _
          ⟨hfit.settings, hfit.document, hfit.registry, hfit.cache⟩)

end Makes

namespace Pass

variable (hinv : ∀ d d', R d d' → Inv d → Inv d')
include hinv

omit [Std.Refl R] [IsTrans Document R] in
theorem moves_edit {change : Edit α} {post : α → Document → Prop}
    (h : Moves R change stage.document post) :
    Moves (Stage.Leads s R Inv Good) (Pass.edit change) stage fun a t => post a t.document := by
  have hlead : ∀ d', R stage.document d' →
      Stage.Leads s R Inv Good stage { stage with document := d' } := fun d' hR hfit =>
    ⟨⟨hfit.settings, hinv _ _ hR hfit.document, hfit.registry, hfit.cache⟩, hR⟩
  rw [Moves] at h
  rw [Moves, Pass.edit]
  split at h
  · next a d' hchange =>
    rw [hchange]
    exact ⟨hlead d' h.1, h.2⟩
  · next e d' hchange =>
    rw [hchange]
    exact hlead d' h

omit [IsTrans Document R] in
theorem moves_apply {f : Document → Except TreeError Document}
    (h : ∀ d', f stage.document = .ok d' → R stage.document d') :
    Moves (Stage.Leads s R Inv Good) (Pass.apply f) stage fun _ _ => True :=
  moves_edit hinv (Edit.moves_apply h)

/-- A sweep keeps to what the removals from the run before the anchor keep to. -/
theorem moves_sweep {anchor : NodeId} (hfit : stage.Fit s Inv Good)
    (h : ∀ x ∈ stage.document.generatedRun s anchor, ∀ {d d'}, R stage.document d →
      d.remove x = .ok d' → R d d') :
    Moves (Stage.Leads s R Inv Good) (Pass.sweep anchor) stage fun _ _ => True := by
  refine .get ?_
  rw [hfit.settings]
  refine Moves.bind (.forM fun x hx t hlead => moves_apply hinv fun _ => ?_)
    fun _ _ _ _ => .pure trivial
  exact h x hx (hlead hfit).2

end Pass

namespace ExpansionKeeps

variable (hK : ExpansionKeeps s R Inv New Good)
include hK

omit [Std.Refl R] [IsTrans Document R] in
theorem edit {change : Edit α} {post : α → Document → Prop}
    (h : Moves R change stage.document post) :
    Moves (Stage.Leads s R Inv Good) (Pass.edit change) stage fun a t => post a t.document :=
  Pass.moves_edit @hK.inv h

omit [IsTrans Document R] in
theorem apply {f : Document → Except TreeError Document}
    (h : ∀ d', f stage.document = .ok d' → R stage.document d') :
    Moves (Stage.Leads s R Inv Good) (Pass.apply f) stage fun _ _ => True :=
  Pass.moves_apply @hK.inv h

variable {d : Document} {id : NodeId} {model : Value} {scope : Scope}

theorem fillText (hd : Inv d) (hid : New d id) :
    Moves R (Document.fillText id model scope) d fun _ _ => True := by
  refine .get ?_
  dsimp only
  split
  · refine (Edit.moves_apply fun _ => hK.setNote hd hid).bind fun _ d' hR _ => ?_
    exact hK.setDirectText (hK.inv hR hd) (hK.new hR hid) _
  · exact .pure trivial

theorem fillAttribute (hd : Inv d) (hid : New d id) (a : String × String) :
    Moves R (Document.fillAttribute id model scope a) d fun _ _ => True := by
  refine .get ?_
  dsimp only
  split
  · refine (Edit.moves_apply fun _ => hK.setNote hd hid).bind fun _ d' hR _ => ?_
    exact Edit.moves_apply fun _ => hK.setAttribute (hK.inv hR hd) (hK.new hR hid)
  · exact .pure trivial

theorem fill (hd : Inv d) (hid : New d id) :
    Moves R (Document.fill id model scope) d fun _ _ => True := by
  refine (hK.fillText hd hid).bind fun _ d₁ hR₁ _ => .get ?_
  exact .forM fun a _ d₂ hR₂ =>
    hK.fillAttribute (hK.inv hR₂ (hK.inv hR₁ hd)) (hK.new hR₂ (hK.new hR₁ hid)) a

/-- What comes after the text of a new element: its attributes, the mark and the filling. -/
theorem finishElement {attributes : List (String × String)} {mark : String}
    (hfit : stage.Fit s Inv Good) (hid : New stage.document id) :
    Moves (Stage.Leads s R Inv Good) (do
        attributes.forM fun a => Pass.apply (·.setAttribute id a.1 a.2)
        Pass.apply (·.setAttribute id mark "true")
        Pass.edit (Document.fill id model scope)
        pure id : Pass NodeId) stage fun node t => New t.document node := by
  have hkept : ∀ t, Stage.Leads s R Inv Good stage t → t.Fit s Inv Good ∧ New t.document id :=
    fun t hlead => ⟨(hlead hfit).1, hK.new (hlead hfit).2 hid⟩
  have hloop : Moves (Stage.Leads s R Inv Good)
      (attributes.forM fun a => Pass.apply (·.setAttribute id a.1 a.2)) stage fun _ _ => True :=
    .forM fun a _ t hlead => by
      obtain ⟨hfit', hid'⟩ := hkept t hlead
      exact hK.apply fun _ => hK.setAttribute hfit'.document hid'
  refine hloop.bind fun _ stage₁ hlead₁ _ => ?_
  obtain ⟨hfit₁, hid₁⟩ := hkept stage₁ hlead₁
  refine (hK.apply fun _ => hK.setAttribute hfit₁.document hid₁).bind fun _ stage₂ hlead₂ _ => ?_
  have hlead₂ := IsTrans.trans _ _ _ hlead₁ hlead₂
  obtain ⟨hfit₂, hid₂⟩ := hkept stage₂ hlead₂
  refine (hK.edit (hK.fill hfit₂.document hid₂)).bind fun _ stage₃ hlead₃ _ => ?_
  exact .pure (hkept stage₃ (IsTrans.trans _ _ _ hlead₂ hlead₃)).2

theorem makeElement {tag : String} {attributes : List (String × String)} {text : String}
    {children : Fragment} (hgood : Good (.element tag attributes text children))
    (hfit : stage.Fit s Inv Good) :
    Moves (Stage.Leads s R Inv Good) (Expansion.makeElement tag attributes text model scope) stage
      fun node t => New t.document node := by
  have hcreate : Moves R (Edit.create (·.createElement tag)) stage.document fun id d' =>
      New d' id :=
    (Edit.moves_create fun _ _ h => (hK.createElement hfit.document hgood h).1).mono
      (fun _ h => h) fun _ _ h => (hK.createElement hfit.document hgood h).2
  refine .get ((hK.edit hcreate).bind fun node stage₁ hlead₁ hnode₁ => ?_)
  have hfit₁ := (hlead₁ hfit).1
  split
  · refine (hK.edit (hK.setDirectText hfit₁.document hnode₁ text)).bind fun _ stage₂ hlead₂ _ => ?_
    obtain ⟨hfit₂, hR₂⟩ := hlead₂ hfit₁
    refine (hK.apply fun _ => hK.setNote hfit₂.document (hK.new hR₂ hnode₁)).bind
      fun _ stage₃ hlead₃ _ => ?_
    obtain ⟨hfit₃, hR₃⟩ := hlead₃ hfit₂
    exact hK.finishElement hfit₃ (hK.new hR₃ (hK.new hR₂ hnode₁))
  · exact hK.finishElement hfit₁ hnode₁

theorem join {first second : Pass (List NodeId)} (h : Makes s R Inv New Good first)
    (h' : Makes s R Inv New Good second) : Makes s R Inv New Good (do
      let nodes ← first
      let others ← second
      pure (nodes ++ others)) := by
  intro stage hfit
  refine (h stage hfit).bind fun nodes stage₁ hlead hnodes => ?_
  have hfit₁ := (hlead hfit).1
  refine (h' stage₁ hfit₁).bind fun others stage₂ hlead' hothers => .pure fun x hx => ?_
  rcases List.mem_append.1 hx with hx | hx
  · exact hK.new (hlead' hfit₁).2 (hnodes x hx)
  · exact hothers x hx

theorem gather {make : α → Pass (List NodeId)} {l : List α}
    (h : ∀ a ∈ l, Makes s R Inv New Good (make a)) :
    Makes s R Inv New Good (Pass.gather make l) := by
  induction l with
  | nil => exact .nothing
  | cons a rest ih =>
    exact hK.join (h a (List.mem_cons_self ..)) (ih fun b hb => h b (List.mem_cons_of_mem _ hb))

variable {opener : Opener} {fragment : Fragment}

theorem expandAll
    (h : ∀ t ∈ fragment, ∀ scope, Makes s R Inv New Good (Expansion.expand opener model t scope))
    (scope : Scope) : Makes s R Inv New Good (Expansion.expandAll opener model fragment scope) := by
  induction fragment with
  | nil =>
    rw [Expansion.expandAll]
    exact .nothing
  | cons t rest ih =>
    rw [Expansion.expandAll]
    exact hK.join (h t (List.mem_cons_self ..) scope)
      (ih fun u hu => h u (List.mem_cons_of_mem _ hu))

theorem expandInto
    (h : ∀ t ∈ fragment, ∀ scope, Makes s R Inv New Good (Expansion.expand opener model t scope))
    (hfit : stage.Fit s Inv Good) (hid : New stage.document id) (scope : Scope) :
    Moves (Stage.Leads s R Inv Good) (Expansion.expandInto opener model id fragment scope) stage
      fun _ _ => True := by
  induction fragment generalizing stage with
  | nil =>
    rw [Expansion.expandInto]
    exact .pure trivial
  | cons t rest ih =>
    rw [Expansion.expandInto]
    rw [List.forall_mem_cons] at h
    refine (h.1 scope stage hfit).bind fun outputs stage₁ hlead₁ houtputs => ?_
    obtain ⟨hfit₁, hR₁⟩ := hlead₁ hfit
    have hloop : Moves (Stage.Leads s R Inv Good)
        (outputs.forM fun output => Pass.apply (·.append id output)) stage₁ fun _ _ => True :=
      .forM fun output houtput t hlead => by
        obtain ⟨hfit', hR⟩ := hlead hfit₁
        exact hK.apply fun _ => hK.append hfit'.document (hK.new hR (hK.new hR₁ hid))
          (hK.new hR (houtputs output houtput))
    refine hloop.bind fun _ stage₂ hlead₂ _ => ?_
    obtain ⟨hfit₂, hR₂⟩ := hlead₂ hfit₁
    exact ih h.2 hfit₂ (hK.new hR₂ (hK.new hR₁ hid))

/-- Expanding a template, given that what uses of recursive templates do keeps to the relation. -/
theorem expand (hopener : ∀ fragment scope, (∀ t ∈ fragment, Good t) →
      Makes s R Inv New Good (opener fragment scope)) (t : Template) (ht : Good t) (scope : Scope) :
    Makes s R Inv New Good (Expansion.expand opener model t scope) := by
  induction t using Template.induction generalizing scope with
  | element tag attributes text children ih =>
    intro stage hfit
    rw [Expansion.expand]
    refine (hK.makeElement ht hfit).bind fun node stage₁ hlead hnode => ?_
    have hfit₁ := (hlead hfit).1
    refine (hK.expandInto (fun u hu => ih u hu (hK.good_of_mem ht hu)) hfit₁ hnode scope).bind
      fun _ stage₂ hlead' _ => .pure fun x hx => ?_
    rw [List.mem_singleton.1 hx]
    exact hK.new (hlead' hfit₁).2 hnode
  | repetition source binding children ih =>
    intro stage hfit
    rw [Expansion.expand]
    refine .get ?_
    dsimp only
    split
    · exact Makes.nothing stage hfit
    · refine hK.gather (fun item _ => ?_) stage hfit
      exact hK.expandAll (fun u hu => ih u hu (hK.good_of_mem ht hu)) _
  | conditional test children ih =>
    rw [Expansion.expand]
    split
    · exact hK.expandAll (fun u hu => ih u hu (hK.good_of_mem ht hu)) scope
    · exact .nothing
  | recursive name target source children ih =>
    have hchildren : ∀ scope,
        Makes s R Inv New Good (Expansion.expandAll opener model children scope) :=
      hK.expandAll fun u hu => ih u hu (hK.good_of_mem ht hu)
    cases name with
    | some name =>
      rw [Expansion.expand]
      intro stage hfit
      refine (Pass.moves_modifyEngine fun hfit => ?_).bind fun _ stage₁ hlead _ =>
        hchildren _ stage₁ (hlead hfit).1
      refine ⟨hfit.settings, hfit.document, fun key definition hfound => ?_, hfit.cache⟩
      rw [Registry.register, Entries.get?_put] at hfound
      split at hfound
      · cases hfound
        exact fun u hu => hK.good_of_mem ht hu
      · exact hfit.registry key definition hfound
    | none =>
      cases target with
      | some target =>
        rw [Expansion.expand]
        exact Makes.use hopener target source scope
      | none =>
        rw [Expansion.expand]
        exact hchildren scope

theorem openWithin (room : Nat) (fragment : Fragment) (scope : Scope)
    (hgood : ∀ t ∈ fragment, Good t) :
    Makes s R Inv New Good (Expansion.openWithin model room fragment scope) := by
  induction room generalizing fragment scope with
  | zero => exact .nothing
  | succ room ih => exact hK.expandAll (fun t ht => hK.expand ih t (hgood t ht)) scope

theorem expandPass {t : Template} (ht : Good t) :
    Makes s R Inv New Good (Pass.expand t model scope) :=
  fun stage hfit => hK.expand (hK.openWithin _) t ht scope stage hfit

theorem usePass (name : String) (source : Option String) :
    Makes s R Inv New Good (Pass.use name source model scope) :=
  fun stage hfit => Makes.use (hK.openWithin _) name source scope stage hfit

omit [Std.Refl R] [IsTrans Document R] in
/-- What is in the cache is good, and so is what is compiled for it. -/
theorem fit_getOrCompile (hfit : stage.Fit s Inv Good) {entry : Option Template} {cache : Cache}
    (h : stage.engine.cache.getOrCompile stage.document.tree id (fun _ =>
      stage.document.template? stage.engine.settings id) = (entry, cache)) :
    (∀ t, entry = some t → Good t) ∧
      Stage.Fit s Inv Good { stage with engine.cache := cache } := by
  obtain ⟨hentry, hcache⟩ := Prod.ext_iff.1 h
  dsimp only at hentry hcache
  have hgood : ∀ t, entry = some t → Good t := fun t ht => by
    rw [← hentry, Cache.getOrCompile_fst, Option.or_eq_some_iff] at ht
    rcases ht with hfound | ⟨-, hcompile⟩
    · exact hfit.cache _ t hfound
    · exact hK.good_of_compiled hfit.document (hfit.settings ▸ hcompile)
  refine ⟨hgood, ⟨hfit.settings, hfit.document, hfit.registry, fun key t ht => ?_⟩⟩
  rw [← hcache, Cache.get?_getOrCompile] at ht
  split at ht
  · exact hgood t (hentry.symm.trans ht)
  · exact hfit.cache key t ht

theorem expandNode (id : NodeId) : Makes s R Inv New Good (Pass.expandNode id model scope) := by
  intro stage hfit
  refine .get ?_
  cases hentry : stage.engine.cache.getOrCompile stage.document.tree id fun _ =>
    stage.document.template? stage.engine.settings id with
  | mk entry cache =>
    obtain ⟨hgood, hcache⟩ := hK.fit_getOrCompile hfit hentry
    simp only [hentry]
    refine (Pass.moves_modifyEngine fun _ => hcache).bind fun _ stage₁ hlead _ => ?_
    have hfit₁ := (hlead hfit).1
    cases entry with
    | none => exact Makes.nothing stage₁ hfit₁
    | some t => exact hK.expandPass (hgood t rfl) stage₁ hfit₁

end ExpansionKeeps

variable {model : Value} {scope : Scope} {E : Document → Document → Prop}
  {Loose Free : Document → NodeId → Prop} {id : NodeId}

namespace RenderingKeeps

variable (hK : RenderingKeeps s model scope R E Inv Loose Free New Good)
include hK

theorem renderAnchor [Std.Refl E] [IsTrans Document E] {parent : NodeId}
    (hfit : stage.Fit s Inv Good) (hparent : Free stage.document parent)
    (hid : Loose stage.document id)
    (hdirective : (stage.document.directive? s id).isSome = true) :
    Moves (Stage.Leads s R Inv Good) (Pass.renderAnchor parent id model scope) stage
      fun _ _ => True := by
  have hweaken : ∀ {t u : Stage}, Stage.Leads s E Inv Good t u → Stage.Leads s R Inv Good t u :=
    fun hlead hfit => ⟨(hlead hfit).1, hK.of_expansion (hlead hfit).2⟩
  refine (Pass.moves_sweep @hK.keep hfit fun x hx _ _ hR h =>
    hK.sweep hfit.document hid hdirective hx hR h).bind fun _ stage₁ hlead₁ _ => ?_
  obtain ⟨hfit₁, hR₁⟩ := hlead₁ hfit
  refine ((hK.expandNode id stage₁ hfit₁).mono (fun _ => hweaken) fun _ _ h => h).bind
    fun nodes stage₂ hlead₂ hnodes => ?_
  obtain ⟨hfit₂, hR₂⟩ := hlead₂ hfit₁
  have hR₂ := IsTrans.trans _ _ _ hR₁ hR₂
  have hloop : Moves (Stage.Leads s E Inv Good)
      (nodes.forM fun node => Pass.apply (·.insertBefore parent node id)) stage₂ fun _ _ => True :=
    .forM fun node hnode t hlead => by
      obtain ⟨hfit', hE⟩ := hlead hfit₂
      exact hK.apply fun _ => hK.insertBefore hfit'.document
        (hK.free (hK.of_expansion hE) (hK.free hR₂ hparent)) (hK.new hE (hnodes node hnode))
  refine (hloop.mono (fun _ => hweaken) fun _ _ h => h).bind fun _ stage₃ hlead₃ _ => .get ?_
  obtain ⟨hfit₃, hR₃⟩ := hlead₃ hfit₂
  rw [hfit₃.settings]
  refine (Pass.moves_apply @hK.keep fun _ => ?_).bind fun _ _ _ _ => .pure trivial
  exact hK.hide hfit.document hid hdirective (IsTrans.trans _ _ _ hR₂ hR₃)

theorem renderChildren [Std.Refl E] [IsTrans Document E] {fuel : Nat} {parent : NodeId}
    (hfit : stage.Fit s Inv Good) (hparent : Free stage.document parent) :
    Moves (Stage.Leads s R Inv Good) (Pass.renderChildren model scope fuel parent) stage
      fun _ _ => True := by
  induction fuel generalizing stage parent with
  | zero => exact .pure trivial
  | succ fuel ih =>
    refine .get (Pass.moves_sum fun child hchild t hlead => .get ?_)
    have hmem : child ∈ stage.document.children parent := (List.mem_filter.1 hchild).1
    obtain ⟨hfit', hR⟩ := hlead hfit
    have hloose := hK.loose hR (hK.loose_of_child hfit.document hparent hmem)
    dsimp only
    rw [hfit'.settings]
    split
    · exact .pure trivial
    · split
      · next hdirective => exact hK.renderAnchor hfit' (hK.free hR hparent) hloose hdirective
      · next hdirective =>
        rw [Option.not_isSome_iff_eq_none] at hdirective
        have hfree := hK.free_of_loose hfit'.document hloose hdirective
        refine (Pass.moves_edit @hK.keep (hK.fill hfit'.document hloose hdirective)).bind
          fun _ stage₁ hlead₁ _ => ?_
        obtain ⟨hfit₁, hR₁⟩ := hlead₁ hfit'
        exact ih hfit₁ (hK.free hR₁ hfree)

theorem render [Std.Refl E] [IsTrans Document E] {root : NodeId} (hfit : stage.Fit s Inv Good)
    (hroot : Free stage.document root) :
    Moves (Stage.Leads s R Inv Good) (Pass.render root model scope) stage fun _ _ => True := by
  have hdepth : stage.Fit s Inv Good → Stage.Fit s Inv Good { stage with engine.depth := 0 } :=
    fun h => ⟨h.settings, h.document, h.registry, h.cache⟩
  refine (Pass.moves_modifyEngine hdepth).bind fun _ stage₁ hlead hstage₁ => .get ?_
  subst hstage₁
  exact hK.renderChildren (hlead hfit).1 hroot

end RenderingKeeps

namespace PassKeeps

variable (hK : PassKeeps s R Loose Free Good)
include hK

omit [Std.Refl R] [IsTrans Document R] in
theorem remove_of_run {d d₁ d₂ : Document} {x : NodeId} (hd : d.Sound) (hid : Loose d id)
    (hx : x ∈ d.generatedRun s id) (hR : R d d₁) (h : d₁.remove x = .ok d₂) : R d₁ d₂ := by
  have hsibling := List.mem_reverse.1 (List.takeWhile_subset _ hx)
  exact hK.remove (hK.inv hR hd) (hK.loose hR (hK.loose_of_sibling hd hid hsibling)) h

/-- What the edits of passes keep to, renderings keep to. -/
theorem rendering :
    RenderingKeeps s model scope R R Document.Sound Loose Free Free Good where
  toExpansionKeeps := hK.toExpansionKeeps
  of_expansion h := h
  keep := hK.inv
  loose := hK.loose
  free := hK.new
  free_of_loose _ := hK.free_of_loose
  loose_of_child := hK.loose_of_child
  fill hd hid hdirective := hK.fill hd (hK.free_of_loose hid hdirective)
  sweep hd hid _ hx hR h := hK.remove_of_run hd hid hx hR h
  insertBefore := hK.insertBefore
  hide hd hid _ hR h := hK.hide (hK.inv hR hd) (hK.loose hR hid) h

end PassKeeps

end

end LiveMarkup
