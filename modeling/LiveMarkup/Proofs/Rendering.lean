import LiveMarkup.Proofs.Anchor
import LiveMarkup.Proofs.Anchored

/-! What a rendering does with a document that outlines fit: it turns them into the rendered ones.
A row of outlines is rendered group by group at its place among the children of a node. -/
namespace LiveMarkup

/-- A place among the children of a node: what stands before it and what comes after. -/
structure Place where
  id : NodeId
  kind : NodeKind
  notes : List (String × String)
  before : List Shape
  after : List Shape

namespace Place

/-- The shape of the node with shapes at the place. -/
def fill (g : Place) (kids : List Shape) : Shape :=
  ⟨g.id, g.kind, g.notes, g.before ++ kids ++ g.after⟩

/-- Nothing is put below texts, and nothing is swept away that comes before the place. -/
structure Open (g : Place) (s : Settings) : Prop where
  kind : ∀ content, g.kind ≠ .text content
  last : ∀ x ∈ g.before.getLast?, x.isMarked s = false

/-- The place of all children of a node. -/
def whole (id : NodeId) (kind : NodeKind) (notes : List (String × String)) : Place :=
  ⟨id, kind, notes, [], []⟩

@[simp] theorem fill_whole (id : NodeId) (kind : NodeKind) (notes : List (String × String))
    (kids : List Shape) : (whole id kind notes).fill kids = ⟨id, kind, notes, kids⟩ := by
  simp [fill, whole]

def follow (g : Place) (kids : List Shape) : Place := { g with after := kids ++ g.after }

def precede (g : Place) (kids : List Shape) : Place := { g with before := g.before ++ kids }

theorem fill_follow (g : Place) (kids others : List Shape) :
    (g.follow others).fill kids = g.fill (kids ++ others) := by
  simp only [fill, follow, List.append_assoc]

theorem fill_precede (g : Place) (kids others : List Shape) :
    (g.precede kids).fill others = g.fill (kids ++ others) := by
  simp only [fill, precede, List.append_assoc]

variable {g : Place} {d : Document} {p : Option NodeId} {kids others : List Shape}

theorem open_whole {s : Settings} {id : NodeId} {kind : NodeKind} {notes : List (String × String)}
    (h : ∀ content, kind ≠ .text content) : (whole id kind notes).Open s :=
  ⟨h, fun x hx => by cases hx⟩

theorem Open.follow {s : Settings} (h : g.Open s) (others : List Shape) :
    (g.follow others).Open s :=
  ⟨h.kind, h.last⟩

theorem Open.precede {s : Settings} {x : Shape} (h : g.Open s) (hx : x.isMarked s = false) :
    (g.precede (kids ++ [x])).Open s := by
  refine ⟨h.kind, fun y hy => ?_⟩
  rw [Place.precede, ← List.append_assoc, List.getLast?_concat] at hy
  cases hy
  exact hx

theorem inAll_of_fill (h : (g.fill kids).In d p) : Shape.InAll d (some g.id) kids :=
  (Shape.inAll_append.1 (Shape.inAll_append.1 h.2).1).2

theorem disjoint_of_fill (hd : d.Sound) (h : (g.fill (kids ++ others)).In d p) :
    List.Disjoint (Shape.idsAll kids) (Shape.idsAll others) := by
  have hnodup := (List.nodup_cons.1 (hd.nodup_ids h)).2
  rw [Shape.idsAll_append, Shape.idsAll_append, Shape.idsAll_append] at hnodup
  exact (List.nodup_append'.1 (List.nodup_append'.1 (List.nodup_append'.1 hnodup).1).2.1).2.2

/-- A single shape at a place has changed. -/
theorem in_fill_singleton {d' : Document} {x x' : Shape} (hd : d.Sound) (h : (g.fill [x]).In d p)
    (hx : x'.In d' (some g.id)) (hid : x'.id = x.id) (hrep : d.Replaces d' x.ids x'.ids) :
    (g.fill [x']).In d' p ∧ d.Replaces d' (g.fill [x]).ids (g.fill [x']).ids := by
  have hsplit : ∀ y, g.fill [y] = ⟨g.id, g.kind, g.notes, g.before ++ y :: g.after⟩ := fun y => by
    rw [fill, List.append_assoc, List.singleton_append]
  rw [hsplit] at h
  rw [hsplit, hsplit]
  exact hd.in_of_child h hx hid hrep

end Place

/-- What a part of a rendering has changed: the registry, entries of the cache for new shapes, and
addresses of the document. -/
structure Stage.Turns (stage stage' : Stage) (registry : Registry) (touched old new : List NodeId) :
    Prop where
  engine : stage'.engine = { stage.engine with registry := registry, cache := stage'.engine.cache }
  cache : ∀ key, (∀ x ∈ touched, key ≠ (stage.document.tree, x)) →
    Entries.get? key stage'.engine.cache.entries = Entries.get? key stage.engine.cache.entries
  replaces : stage.document.Replaces stage'.document old new

/-- A rendering is under way below a node, where outlines fit the shapes at a place. -/
structure Stage.Shows (stage : Stage) (g : Place) (p : Option NodeId) (ls : List Outline)
    (kids : List Shape) : Prop extends stage.Ready where
  hidden : Markup.isAttributeName stage.engine.settings.hiddenAttribute = true
  depth : stage.engine.depth = 0
  row : (g.fill kids).In stage.document p
  fits : Outline.FitsAll stage.engine.settings stage.document.tree stage.engine.cache ls kids

/-- Visits were made that outlines ask for, and of the anchors as they stand now: each gave the run
that is before its anchor, and swept away the run that the outlines tell of. -/
structure Visit.Tell (s : Settings) (visits : List Visit) (ls : List Outline) (kids : List Shape) :
    Prop where
  runs : visits.map (fun v => (v.anchor, v.nodes)) = Shape.anchoredAll s [] kids
  swept : visits.map Visit.swept = (Outline.runsAll ls).map List.length

/-- Work turns the outlines at a place into the rendered ones, if it does not run out of slots, and
tells of its visits. -/
def Pass.Renders (model : Value) (scope : Scope) (work : Pass (List Visit)) (stage : Stage)
    (g : Place) (p : Option NodeId) (ls : List Outline) (kids : List Shape) : Prop :=
  let outcome := Outline.renderAll stage.engine.settings model scope ls stage.engine.registry
  Runs work stage fun visits stage' => ∃ kids', stage'.Shows g p outcome.1 kids' ∧
    stage.Turns stage' outcome.2 (Shape.idsAll kids') (g.fill kids).ids (g.fill kids').ids ∧
    Visit.Tell stage.engine.settings visits ls kids'

namespace Stage

variable {stage stage₁ stage₂ : Stage} {registry registry₁ : Registry}
  {touched touched₁ touched₂ A B C : List NodeId} {g : Place} {p : Option NodeId}
  {ls : List Outline} {kids : List Shape}

theorem Turns.refl (stage : Stage) (A : List NodeId) :
    stage.Turns stage stage.engine.registry touched A A :=
  ⟨rfl, fun _ _ => rfl, .refl _ _⟩

theorem Turns.trans (h : stage.Turns stage₁ registry₁ touched₁ A B)
    (h' : stage₁.Turns stage₂ registry touched₂ B C) (hfirst : touched₁ ⊆ touched)
    (hsecond : touched₂ ⊆ touched) : stage.Turns stage₂ registry touched A C where
  engine := by
    rw [h'.engine, h.engine]
  cache key hkey := by
    rw [h'.cache key fun x hx => ?_, h.cache key fun x hx => hkey x (hfirst hx)]
    rw [h.replaces.tree]
    exact hkey x (hsecond hx)
  replaces := h.replaces.trans h'.replaces

theorem Turns.settings_eq (h : stage.Turns stage₁ registry touched A B) :
    stage₁.engine.settings = stage.engine.settings := by
  rw [h.engine]

theorem Turns.registry_eq (h : stage.Turns stage₁ registry touched A B) :
    stage₁.engine.registry = registry := by
  rw [h.engine]

/-- Outlines that fit shapes untouched by a part of a rendering still fit them. -/
theorem Turns.fitsAll (h : stage.Turns stage₁ registry touched A B)
    (hfits : Outline.FitsAll stage.engine.settings stage.document.tree stage.engine.cache ls kids)
    (hdisj : List.Disjoint (Shape.idsAll kids) touched) :
    Outline.FitsAll stage₁.engine.settings stage₁.document.tree stage₁.engine.cache ls kids := by
  rw [h.settings_eq, h.replaces.tree]
  refine hfits.congr_cache fun x hx => h.cache _ fun y hy heq => ?_
  obtain rfl : x = y := congrArg Prod.snd heq
  exact hdisj hx hy

end Stage

namespace Pass

/-- The elements of a group are what a rendering comes to. -/
def elementIds (kids : List Shape) : List NodeId := (kids.filter Shape.isElement).map Shape.id

/-- Renders a group of the children of a node. -/
def visitGroup (model : Value) (scope : Scope) (fuel : Nat) (parent : NodeId)
    (kids : List Shape) : Pass (List Visit) :=
  visitAll (visitChild model scope (visitChildren model scope fuel) parent) (elementIds kids)

variable {stage : Stage} {g : Place} {p : Option NodeId} {ls : List Outline}
  {kids others shapes group : List Shape} {model : Value} {scope : Scope} {fuel : Nat}
  {parent : NodeId} {post : List Visit → Stage → Prop}

theorem elementIds_append (kids others : List Shape) :
    elementIds (kids ++ others) = elementIds kids ++ elementIds others := by
  rw [elementIds, List.filter_append, List.map_append, elementIds, elementIds]

theorem elementIds_of_marked {s : Settings} (h : ∀ x ∈ shapes, x.isMarked s = true) :
    elementIds shapes = shapes.map Shape.id := by
  rw [elementIds, List.filter_eq_self.2 fun x hx => ?_]
  have hmark := h x hx
  obtain ⟨id, kind, notes, kids⟩ := x
  cases kind with
  | root => cases hmark
  | element tag attributes => rfl
  | text content => cases hmark

theorem runs_visitGroup_append (h : Runs (visitGroup model scope fuel parent kids) stage
      fun visits stage' => Runs (visitGroup model scope fuel parent others) stage' fun others =>
        post (visits ++ others)) :
    Runs (visitGroup model scope fuel parent (kids ++ others)) stage post := by
  rw [visitGroup, elementIds_append, visitAll_append]
  exact h.bind fun visits _ h => h.bind fun _ _ h => .pure h

/-- Generated nodes are passed over. -/
theorem runs_visitGroup_marked (h : Shape.InAll stage.document (some parent) shapes)
    (hmarked : ∀ x ∈ shapes, x.isMarked stage.engine.settings = true) :
    Runs (visitGroup model scope fuel parent shapes) stage fun visits stage' =>
      visits = [] ∧ stage' = stage := by
  rw [visitGroup, elementIds_of_marked hmarked]
  induction shapes with
  | nil => exact .pure ⟨rfl, rfl⟩
  | cons x rest ih =>
    rw [List.forall_mem_cons] at hmarked
    have hskip : Runs (visitChild model scope (visitChildren model scope fuel) parent x.id) stage
        fun visits stage' => visits = [] ∧ stage' = stage := by
      refine .get ?_
      dsimp only
      rw [Document.isGenerated_eq h.1, if_pos hmarked.1]
      exact .pure ⟨rfl, rfl⟩
    refine hskip.bind ?_
    rintro _ _ ⟨rfl, rfl⟩
    refine (ih h.2 hmarked.2).bind ?_
    rintro _ _ ⟨rfl, rfl⟩
    exact .pure ⟨rfl, rfl⟩

section Child

variable {id : NodeId} {tag : String} {attributes notes : List (String × String)}

theorem visitGroup_element :
    visitGroup model scope fuel parent [⟨id, .element tag attributes, notes, kids⟩] =
      visitChild model scope (visitChildren model scope fuel) parent id :=
  visitAll_singleton _ id

theorem runs_visitGroup_anchor
    (hs : (⟨id, .element tag attributes, notes, kids⟩ : Shape).In stage.document p)
    (hmark : Entries.get? stage.engine.settings.generatedAttribute attributes ≠ some "true")
    (htag : (stage.engine.settings.directive? tag).isSome = true)
    (h : Runs (visitAnchor parent id model scope) stage post) :
    Runs (visitGroup model scope fuel parent [⟨id, .element tag attributes, notes, kids⟩]) stage
      post := by
  have hgenerated : stage.document.isGenerated stage.engine.settings id = false :=
    Document.isGenerated_eq_false hs hmark
  rw [visitGroup_element]
  refine .get ?_
  dsimp only
  rwa [hgenerated, if_neg Bool.false_ne_true, Document.directive?_eq hs, if_pos htag]

theorem runs_visitGroup_plain
    (hs : (⟨id, .element tag attributes, notes, kids⟩ : Shape).In stage.document p)
    (hmark : Entries.get? stage.engine.settings.generatedAttribute attributes ≠ some "true")
    (htag : stage.engine.settings.directive? tag = none)
    (h : Runs (Document.fill id model scope) stage.document fun _ d =>
      Runs (visitChildren model scope fuel id) ⟨stage.engine, d⟩ post) :
    Runs (visitGroup model scope fuel parent [⟨id, .element tag attributes, notes, kids⟩]) stage
      post := by
  have hgenerated : stage.document.isGenerated stage.engine.settings id = false :=
    Document.isGenerated_eq_false hs hmark
  rw [visitGroup_element]
  refine .get ?_
  dsimp only
  rw [hgenerated, if_neg Bool.false_ne_true, Document.directive?_eq hs, htag]
  exact runs_bind_edit h

end Child

theorem renders_text {content : String} (h : stage.Shows g p [.text content] group) :
    Renders model scope (visitGroup model scope fuel g.id group) stage g p [.text content]
      group := by
  obtain ⟨id, notes, rfl⟩ := Outline.fitsAll_singleton.1 h.fits
  have hnone : visitGroup model scope fuel g.id [⟨id, .text content, notes, []⟩] = pure [] := rfl
  rw [Renders, hnone]
  exact .pure ⟨_, h, .refl stage _, rfl, rfl⟩

/-- Rendering an anchor at its place. -/
theorem renders_anchor {tag : String} {attributes : List (String × String)} {template : Template}
    {inside run : List Tree} (hopen : g.Open stage.engine.settings)
    (h : stage.Shows g p [.anchor tag attributes template inside run] group) :
    Renders model scope (visitGroup model scope fuel g.id group) stage g p
      [.anchor tag attributes template inside run] group := by
  obtain ⟨⟨settings, registry, cache₀, depth⟩, d⟩ := stage
  obtain rfl : depth = 0 := h.depth
  obtain ⟨id, notes, kids, shapes, rfl, htag, hmark, rfl, rfl, hmarked, hvalid, hgives⟩ :=
    Outline.fitsAll_singleton.1 h.fits
  have hin := Place.inAll_of_fill h.row
  obtain ⟨hshapes, hanchor, -⟩ := Shape.inAll_append.1 hin
  have hsplit : ∀ shapes (x : Shape), g.fill (shapes ++ [x]) =
      ⟨g.id, g.kind, g.notes, g.before ++ shapes ++ x :: g.after⟩ := fun shapes x => by
    simp only [Place.fill, List.append_assoc, List.singleton_append]
  have hrow := h.row
  rw [hsplit] at hrow
  refine runs_visitGroup_append ((runs_visitGroup_marked hshapes hmarked).mono ?_)
  rintro _ _ ⟨rfl, rfl⟩
  refine runs_visitGroup_anchor hanchor hmark htag ?_
  refine (runs_visitAnchor h.engine h.hidden h.document hrow hopen.kind hmarked hopen.last
    hvalid hgives model scope).mono ?_
  rintro _ ⟨engine', d'⟩ ⟨cache, shapes', ⟨hentry, hothers⟩, hengine, hregistry, hsound, rfl,
    htrees, hmarked', hrow', hrep⟩
  obtain rfl := hengine
  rw [← hsplit] at hrow'
  have hmark' : Entries.get? settings.generatedAttribute
      (Entries.put settings.hiddenAttribute "" attributes) ≠ some "true" := by
    rw [Entries.get?_put]
    split
    · decide
    · exact hmark
  refine ⟨_, ⟨⟨hsound, h.engine.generated, hregistry⟩, h.hidden, rfl, hrow', ?_⟩,
    ⟨rfl, fun key hkey => ?_, ?_⟩, ?_, ?_⟩
  · refine Outline.fitsAll_singleton.2 ⟨id, notes, kids, shapes', rfl, htag, hmark', rfl, htrees,
      hmarked', hvalid, Or.inl ?_⟩
    rw [hrep.tree]
    exact hentry
  · refine hothers key (hkey id ?_)
    simp [Shape.idsAll, Shape.ids]
  · rwa [hsplit, hsplit]
  · exact (Shape.anchoredAll_anchor hmarked' hmark' htag).symm
  · simp [Outline.runsAll, Outline.runs, Shape.length_treesAll_of_marked hmarked]

/-- Children of nodes are rendered, given fuel for the depth of their outlines. -/
def RendersChildren (model : Value) (scope : Scope) (fuel : Nat) : Prop :=
  ∀ (stage : Stage) (id : NodeId) (kind : NodeKind) (notes : List (String × String))
    (p : Option NodeId) (ls : List Outline) (kids : List Shape),
    (∀ content, kind ≠ .text content) → Outline.depthAll ls < fuel →
    stage.Shows (.whole id kind notes) p ls kids →
    Renders model scope (visitChildren model scope fuel id) stage (.whole id kind notes) p ls kids

/-- Rendering a plain element at its place: it is filled, and then what is below it is rendered. -/
theorem renders_plain {tag source : String} {attributes sources : List (String × String)}
    {inner : List Outline} (hchildren : RendersChildren model scope fuel)
    (hdepth : Outline.depthAll inner < fuel)
    (h : stage.Shows g p [.plain tag attributes sources source inner] group) :
    Renders model scope (visitGroup model scope fuel g.id group) stage g p
      [.plain tag attributes sources source inner] group := by
  obtain ⟨engine, d⟩ := stage
  obtain ⟨id, notes, kids, rfl, htag, hmark, rfl, hsettled, hsource, hinner⟩ :=
    Outline.fitsAll_singleton.1 h.fits
  have hs := (Place.inAll_of_fill h.row).1
  obtain ⟨-, hnodup, -⟩ := h.document.valid hs.1
  refine runs_visitGroup_plain hs (by rw [hmark]; exact nofun) htag ?_
  refine (h.document.runs_fill hs hsource model scope).mono ?_
  rintro - d₁ ⟨hd₁, kids₁, hfilled, hs₁, hrep₁⟩
  obtain ⟨hshown, hsources, hsettled', hkept⟩ := hsettled.fill_element hnodup source model scope
  rw [hshown] at hs₁ hsources hsettled'
  obtain ⟨hrow₁, hrep₁⟩ := Place.in_fill_singleton h.document h.row hs₁ rfl hrep₁
  have hshows₁ : Stage.Shows ⟨engine, d₁⟩ (.whole id
      (.element tag ((sourcesOf notes attributes).map fun a =>
        (a.1, Placeholder.filled a.2 model scope)))
      (noteAttributes attributes (noteSource textSource source notes))) (some g.id)
      (Outline.placeText source model scope inner) kids₁ := by
    refine ⟨⟨hd₁, h.engine⟩, h.hidden, h.depth, ?_, ?_⟩
    · rwa [Place.fill_whole]
    · rw [hrep₁.tree]
      exact hinner.placeText hfilled
  refine (hchildren ⟨engine, d₁⟩ id _ _ _ _ _ (fun _ h => by cases h)
    ((Outline.depthAll_placeText_le source inner).trans_lt hdepth) hshows₁).mono ?_
  rintro visits stage₂ ⟨kids₂, hshows₂, hturns, htell⟩
  have hs₂ := hshows₂.row
  rw [Outline.renderAll_placeText] at hshows₂ hturns
  rw [Place.fill_whole] at hs₂
  rw [Place.fill_whole, Place.fill_whole] at hturns
  obtain ⟨hrow₂, hrep₂⟩ := Place.in_fill_singleton hd₁ hrow₁ hs₂ rfl hturns.replaces
  have hsettings := hturns.settings_eq
  have hmark' : Entries.get? engine.settings.generatedAttribute ((sourcesOf notes attributes).map
      fun a => (a.1, Placeholder.filled a.2 model scope)) = none := by
    rw [Entries.get?_map_value fun _ value => Placeholder.filled value model scope, sourcesOf,
      Entries.get?_map_value fun name value => noted notes (attributeSource name) value, hmark]
    rfl
  refine ⟨_, ⟨hshows₂.toReady, hshows₂.hidden, hshows₂.depth, hrow₂, Outline.fitsAll_singleton.2
    ⟨id, _, kids₂, rfl, ?_, ?_, hsources, hsettled', hkept _ ?_, hshows₂.fits⟩⟩, ?_, ?_, ?_⟩
  · rwa [hsettings]
  · rwa [hsettings]
  · by_cases happears : Placeholder.appearsIn source = true
    · exact Or.inl happears
    · refine Or.inr ?_
      have hfits := hshows₂.fits
      rw [Outline.placeText, if_neg happears] at hfits
      rw [hfits.directText_eq hinner (Outline.filterMap_content?_renderAll ..)]
      exact hsource
  · refine ⟨hturns.engine, fun key hkey => hturns.cache key fun x hx => ?_, hrep₁.trans hrep₂⟩
    rw [hrep₁.tree]
    exact hkey x (by simp [Shape.idsAll, Shape.ids, hx])
  · rw [Shape.anchoredAll_plain hmark' htag]
    exact htell.runs
  · rw [htell.swept, Outline.runsAll_placeText]
    simp only [Outline.runsAll, Outline.runs, List.append_nil]

/-- Rendering the shapes at a place, group by group. -/
theorem renders_row (hchildren : RendersChildren model scope fuel)
    (hdepth : Outline.depthAll ls < fuel + 1) (hopen : g.Open stage.engine.settings)
    (h : stage.Shows g p ls kids) :
    Renders model scope (visitGroup model scope fuel g.id kids) stage g p ls kids := by
  induction ls generalizing stage g kids with
  | nil =>
    obtain rfl : kids = [] := h.fits
    have hnone : visitGroup model scope fuel g.id [] = pure [] := rfl
    rw [Renders, hnone]
    exact .pure ⟨_, h, .refl stage _, rfl, rfl⟩
  | cons l rest ih =>
    obtain ⟨group, others, rfl, hl, hrest⟩ := h.fits
    rw [Outline.depthAll, Nat.max_lt] at hdepth
    have hrow := h.row
    rw [← Place.fill_follow] at hrow
    have hfirst : stage.Shows (g.follow others) p [l] group :=
      ⟨h.toReady, h.hidden, h.depth, hrow, Outline.fitsAll_singleton.2 hl⟩
    have hgroup : Renders model scope (visitGroup model scope fuel g.id group) stage
        (g.follow others) p [l] group := by
      cases l with
      | text content => exact renders_text hfirst
      | plain tag attributes sources source inner =>
        exact renders_plain hchildren (Nat.succ_lt_succ_iff.1 hdepth.1) hfirst
      | anchor tag attributes template inside run =>
        exact renders_anchor (hopen.follow others) hfirst
    refine runs_visitGroup_append (hgroup.mono ?_)
    rintro visits stage₁ ⟨group', hshows₁, hturns₁, htell₁⟩
    have hrow₁ := hshows₁.row
    rw [Place.fill_follow] at hrow₁
    obtain ⟨start, x, rfl, hx⟩ := (Outline.fitsAll_singleton.1 hshows₁.fits).ends
    have hrest₁ := hturns₁.fitsAll hrest fun x hx hxs =>
      Place.disjoint_of_fill hshows₁.document hrow₁ hxs hx
    rw [← Place.fill_precede] at hrow₁
    rw [hturns₁.settings_eq] at hx
    have hopen₁ : (g.precede (start ++ [x])).Open stage₁.engine.settings := by
      rw [hturns₁.settings_eq]
      exact hopen.precede hx
    refine (ih hdepth.2 hopen₁
      ⟨hshows₁.toReady, hshows₁.hidden, hshows₁.depth, hrow₁, hrest₁⟩).mono ?_
    rintro visits' stage₂ ⟨others', hshows₂, hturns₂, htell₂⟩
    have hrow₂ := hshows₂.row
    rw [Place.fill_precede] at hrow₂
    have hgroup₂ := hturns₂.fitsAll hshows₁.fits (Place.disjoint_of_fill hshows₂.document hrow₂)
    rw [hturns₁.settings_eq, hturns₁.registry_eq] at hshows₂ hturns₂
    rw [hturns₁.settings_eq] at htell₂
    rw [Place.fill_follow, Place.fill_follow] at hturns₁
    rw [Place.fill_precede, Place.fill_precede] at hturns₂
    refine ⟨_, ⟨hshows₂.toReady, hshows₂.hidden, hshows₂.depth, hrow₂, _, _, rfl,
      Outline.fitsAll_singleton.1 hgroup₂, hshows₂.fits⟩, hturns₁.trans hturns₂ ?_ ?_, ?_, ?_⟩
    · rw [Shape.idsAll_append (start ++ [x])]
      exact List.subset_append_left ..
    · rw [Shape.idsAll_append (start ++ [x])]
      exact List.subset_append_right ..
    · rw [Shape.anchoredAll_append hx, List.map_append, htell₁.runs, htell₂.runs]
    · rw [List.map_append, htell₁.swept, htell₂.swept]
      simp only [Outline.runsAll, List.append_nil, List.map_append]

theorem rendersChildren (model : Value) (scope : Scope) (fuel : Nat) :
    RendersChildren model scope fuel := by
  induction fuel with
  | zero => exact fun _ _ _ _ _ _ _ _ hdepth _ => absurd hdepth (Nat.not_lt_zero _)
  | succ fuel ih =>
    intro stage id kind notes p ls kids hkind hdepth h
    have hs := h.row
    rw [Place.fill_whole] at hs
    have hrow := renders_row ih hdepth (Place.open_whole hkind) h
    rw [Renders]
    refine .get ?_
    rw [Document.childElements_eq hs]
    exact hrow

end Pass

/-- The outlines are all that the document of a stage shows. -/
def Stage.ShowsAll (stage : Stage) (ls : List Outline) : Prop :=
  ∃ notes kids, stage.Shows (.whole .root .root notes) none ls kids

variable {stage : Stage} {ls : List Outline}

theorem Stage.ShowsAll.content_eq (h : stage.ShowsAll ls) :
    stage.document.content = Outline.treesAll ls := by
  obtain ⟨notes, kids, h⟩ := h
  have hs := h.row
  rw [Place.fill_whole] at hs
  have htrees := h.document.trees_eq hs
  rw [Shape.id_mk, Shape.trees, h.fits.treesAll_eq] at htrees
  rw [Document.content, htrees]

theorem Stage.ShowsAll.markup_eq (h : stage.ShowsAll ls) :
    stage.document.markup = String.ofList (Tree.markupAll (Outline.treesAll ls)) := by
  rw [Document.markup, h.content_eq]

/-- Rendering a document turns what it shows into what the outlines make of it, and tells of the
visits that they ask for, unless a node is asked for where no slot is left. -/
theorem Pass.runs_visits (h : stage.ShowsAll ls) (model : Value) (scope : Scope) :
    let outcome := Outline.renderAll stage.engine.settings model scope ls stage.engine.registry
    Runs (visits .root model scope) stage fun visits stage' => ∃ notes kids,
      stage'.Shows (.whole .root .root notes) none outcome.1 kids ∧
      stage'.engine.registry = outcome.2 ∧ stage'.engine.settings = stage.engine.settings ∧
      Visit.Tell stage.engine.settings visits ls kids := by
  intro outcome
  obtain ⟨notes, kids, h⟩ := h
  obtain ⟨⟨settings, registry, cache, depth⟩, d⟩ := stage
  obtain rfl : depth = 0 := h.depth
  have hs := h.row
  rw [Place.fill_whole] at hs
  have hfuel : Outline.depthAll ls < d.slots.size := by
    have hids := Document.length_le_size_of_nodup (h.document.nodup_ids hs) fun _ hx =>
      hs.contains hx
    rw [Shape.ids, List.length_cons] at hids
    exact Nat.lt_of_le_of_lt h.fits.depthAll_le hids
  refine (rendersChildren model scope _ _ .root .root notes none ls kids (fun _ h => by cases h)
    hfuel h).mono ?_
  rintro visits stage' ⟨kids', hshows, hturns, htell⟩
  exact ⟨notes, kids', hshows, hturns.registry_eq, hturns.settings_eq, htell⟩

theorem Pass.runs_render (h : stage.ShowsAll ls) (model : Value) (scope : Scope) :
    let outcome := Outline.renderAll stage.engine.settings model scope ls stage.engine.registry
    Runs (render .root model scope) stage fun _ stage' => stage'.ShowsAll outcome.1 ∧
      stage'.engine.registry = outcome.2 ∧ stage'.engine.settings = stage.engine.settings := by
  intro outcome
  rw [render_eq_map]
  refine .map ((runs_visits h model scope).mono ?_)
  rintro visits stage' ⟨notes, kids, hshows, hregistry, hsettings, -⟩
  exact ⟨⟨notes, kids, hshows⟩, hregistry, hsettings⟩

/-- Renders a document against models one after another. -/
def Pass.renderEach : List (Value × Scope) → Pass Unit
  | [] => pure ()
  | (model, scope) :: rest => do
    let _ ← render .root model scope
    renderEach rest

/-- What outlines have become after being rendered against models one after another. -/
def Outline.renderEach (s : Settings) :
    List (Value × Scope) → List Outline → Registry → List Outline × Registry
  | [], ls, registry => (ls, registry)
  | (model, scope) :: rest, ls, registry =>
    let (ls, registry) := renderAll s model scope ls registry
    renderEach s rest ls registry

theorem Pass.runs_renderEach (h : stage.ShowsAll ls) (history : List (Value × Scope)) :
    let outcome := Outline.renderEach stage.engine.settings history ls stage.engine.registry
    Runs (renderEach history) stage fun _ stage' => stage'.ShowsAll outcome.1 ∧
      stage'.engine.registry = outcome.2 ∧ stage'.engine.settings = stage.engine.settings := by
  induction history generalizing stage ls with
  | nil => exact .pure ⟨h, rfl, rfl⟩
  | cons m rest ih =>
    obtain ⟨model, scope⟩ := m
    refine (runs_render h model scope).bind ?_
    rintro - stage₁ ⟨hshows₁, hregistry₁, hsettings₁⟩
    refine (ih hshows₁).mono ?_
    rintro - stage₂ ⟨hshows₂, hregistry₂, hsettings₂⟩
    rw [hregistry₁, hsettings₁] at hshows₂ hregistry₂
    exact ⟨hshows₂, hregistry₂, hsettings₂.trans hsettings₁⟩

end LiveMarkup
