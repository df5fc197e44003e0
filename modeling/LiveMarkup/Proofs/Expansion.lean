import LiveMarkup.Proofs.Denotation

/-! Expansion does what templates stand for. On a sound document it makes detached shapes, touches
nothing else, and leaves the engine as it was but for the registry; the shapes show the trees, and
the registry is the one, that the denotation gives. -/
namespace LiveMarkup

variable {α β : Type}

namespace Pass

variable {engine : Engine} {d d' : Document} {stage : Stage}

theorem runs_edit {work : Edit α} {post : α → Stage → Prop}
    (h : Runs work d fun a d' => post a ⟨engine, d'⟩) : Runs (Pass.edit work) ⟨engine, d⟩ post := by
  obtain ⟨a, d', hok, hpost⟩ | ⟨d', herror, hfull⟩ := h.cases
  · exact .of_ok (by rw [Pass.edit, hok]) hpost
  · exact .of_outOfSlots (by rw [Pass.edit, herror]) hfull

theorem runs_bind_edit {work : Edit α} {next : α → Pass β} {post : β → Stage → Prop}
    (h : Runs work d fun a d' => Runs (next a) ⟨engine, d'⟩ post) :
    Runs (Pass.edit work >>= next) ⟨engine, d⟩ post :=
  .bind (runs_edit h) fun _ _ h => h

theorem runs_apply {f : Document → Except TreeError Document} {post : Unit → Stage → Prop}
    (h : f d = .ok d') (hpost : post () ⟨engine, d'⟩) : Runs (Pass.apply f) ⟨engine, d⟩ post :=
  runs_edit (Edit.runs_apply h hpost)

theorem runs_bind_apply {f : Document → Except TreeError Document} {next : Unit → Pass β}
    {post : β → Stage → Prop} (h : f d = .ok d') (hnext : Runs (next ()) ⟨engine, d'⟩ post) :
    Runs (Pass.apply f >>= next) ⟨engine, d⟩ post :=
  .bind (runs_apply h hnext) fun _ _ h => h

theorem runs_inner {work : Pass α} {post : α → Stage → Prop}
    (h : Runs work ⟨{ engine with depth := engine.depth + 1 }, d⟩ fun a stage =>
      post a ⟨{ stage.engine with depth := stage.engine.depth - 1 }, stage.document⟩) :
    Runs (Pass.inner work) ⟨engine, d⟩ post := by
  obtain ⟨a, stage, hok, hpost⟩ | ⟨stage, herror, hfull⟩ := h.cases
  · exact .of_ok (by rw [Pass.inner]; dsimp only; rw [hok]) hpost
  · refine .of_outOfSlots (t := ⟨{ stage.engine with depth := stage.engine.depth - 1 },
      stage.document⟩) ?_ hfull
    rw [Pass.inner]
    dsimp only
    rw [herror]

end Pass

namespace Template

mutual

/-- Every element template can be made: its tag and its attributes' names are valid. -/
def Valid : Template → Prop
  | element tag attributes _ children =>
    (Markup.isTagName tag = true ∧ (Entries.keys attributes).Nodup ∧
      ∀ name ∈ Entries.keys attributes, Markup.isAttributeName name = true) ∧ ValidAll children
  | repetition _ _ children => ValidAll children
  | conditional _ children => ValidAll children
  | recursive _ _ _ children => ValidAll children

def ValidAll : Fragment → Prop
  | [] => True
  | t :: rest => t.Valid ∧ ValidAll rest

end

theorem validAll_iff {fragment : Fragment} : ValidAll fragment ↔ ∀ t ∈ fragment, t.Valid := by
  induction fragment with
  | nil => simp [ValidAll]
  | cons t rest ih => simp [ValidAll, ih]

end Template

/-- Every definition can be expanded. -/
def Registry.Valid (registry : Registry) : Prop :=
  ∀ name definition, Entries.get? name registry = some definition →
    Template.ValidAll definition.fragment

theorem Registry.Valid.register {registry : Registry} (h : registry.Valid) (name : String)
    (definition : Definition) (hd : Template.ValidAll definition.fragment) :
    Registry.Valid (registry.register name definition).2 := by
  intro key found hfound
  rw [Registry.register, Entries.get?_put] at hfound
  split at hfound
  · cases hfound
    exact hd
  · exact h key found hfound

/-- One document comes from another by the making of detached shapes. -/
structure Made (d d' : Document) (shapes : List Shape) : Prop where
  sound : d'.Sound
  inAll : Shape.InAll d' none shapes
  nodup : (Shape.idsAll shapes).Nodup
  replaces : d.Replaces d' [] (Shape.idsAll shapes)

namespace Made

variable {d d₁ d₂ : Document} {ss ts : List Shape}

theorem nil (hd : d.Sound) : Made d d [] :=
  ⟨hd, trivial, List.nodup_nil, .refl d []⟩

/-- A new address was not in use. -/
theorem node?_eq_none (h : Made d d₁ ss) {x : NodeId} (hx : x ∈ Shape.idsAll ss) :
    d.node? x = none :=
  (h.replaces.fresh x hx).resolve_left List.not_mem_nil

theorem disjoint (h : Made d d₁ ss) {l : List NodeId} (hl : ∀ x ∈ l, d.contains x = true) :
    List.Disjoint l (Shape.idsAll ss) := fun x hx hxs => by
  have hlive := hl x hx
  rw [Document.not_contains_iff.2 (h.node?_eq_none hxs)] at hlive
  cases hlive

theorem append (h : Made d d₁ ss) (h' : Made d₁ d₂ ts) : Made d d₂ (ss ++ ts) where
  sound := h'.sound
  inAll := by
    have hold := h.inAll.of_replaces h'.replaces (List.disjoint_nil_right _)
    exact Shape.inAll_append.2 ⟨hold, h'.inAll⟩
  nodup := by
    rw [Shape.idsAll_append]
    exact List.nodup_append'.2 ⟨h.nodup, h'.nodup, h'.disjoint fun x hx => h.inAll.contains hx⟩
  replaces := by
    have hlast := h'.replaces.append_left (Shape.idsAll ss)
    rw [List.append_nil] at hlast
    rw [Shape.idsAll_append]
    exact h.replaces.trans hlast

end Made

/-- An engine can work: its marks and the templates that it knows are valid. -/
structure Engine.Ready (engine : Engine) : Prop where
  generated : Markup.isAttributeName engine.settings.generatedAttribute = true
  registry : engine.registry.Valid

section Elements

variable {engine : Engine} {d : Document} {id : NodeId} {p : Option NodeId} {tag : String}
  {attributes notes : List (String × String)} {kids : List Shape}

theorem runs_forM_setAttribute {before attributes : List (String × String)} (hd : d.Sound)
    (hs : (⟨id, .element tag before, notes, kids⟩ : Shape).In d p)
    (hnodup : (Entries.keys (before ++ attributes)).Nodup)
    (hnames : ∀ name ∈ Entries.keys attributes, Markup.isAttributeName name = true) :
    Runs (attributes.forM fun a => Pass.apply (·.setAttribute id a.1 a.2)) ⟨engine, d⟩
      fun _ stage => stage.engine = engine ∧ stage.document.Sound ∧
        (⟨id, .element tag (before ++ attributes), notes, kids⟩ : Shape).In stage.document p ∧
        d.Replaces stage.document (id :: Shape.idsAll kids) (id :: Shape.idsAll kids) := by
  induction attributes generalizing d before with
  | nil =>
    rw [List.append_nil]
    exact .pure ⟨rfl, hd, hs, .refl d _⟩
  | cons a rest ih =>
    obtain ⟨name, value⟩ := a
    have hname : Markup.isAttributeName name = true := hnames name (List.mem_cons_self ..)
    have hnew : name ∉ Entries.keys before := by
      rw [Entries.keys, List.map_append, List.map_cons, List.nodup_append'] at hnodup
      exact fun h => hnodup.2.2 h (List.mem_cons_self ..)
    obtain ⟨d₁, hset, hd₁, hs₁, hrep₁⟩ := hd.setAttribute_in hs hname value
    refine Pass.runs_bind_apply hset ?_
    rw [Entries.put_of_not_mem hnew] at hs₁
    have hsplit : before ++ (name, value) :: rest = before ++ [(name, value)] ++ rest := by
      rw [List.append_assoc, List.singleton_append]
    rw [hsplit] at hnodup ⊢
    refine (ih hd₁ hs₁ hnodup fun n hn => hnames n (List.mem_cons_of_mem _ hn)).mono ?_
    rintro - stage ⟨hengine, hsound, hin, hrep⟩
    exact ⟨hengine, hsound, hin, hrep₁.trans hrep⟩

/-- The text of an element that had none. -/
theorem treesAll_oneText {content : String} {new : List Shape} (h : Shape.OneText content new) :
    Shape.treesAll new = Tree.textTrees content := by
  obtain ⟨rfl, rfl⟩ | ⟨hcontent, t, rfl⟩ := h
  · rfl
  · rw [Tree.textTrees, if_neg hcontent]
    rfl

theorem replaceWhere_oneText {content : String} {new kids : List Shape}
    (h : Shape.OneText content kids) : replaceWhere Shape.isText new kids = new := by
  have hnone : ∀ c ∈ ([] : List Shape), c.isText = false := fun c hc => absurd hc List.not_mem_nil
  obtain ⟨-, rfl⟩ | ⟨-, t, rfl⟩ := h
  · rw [replaceWhere_of_none hnone, List.append_nil]
  · change replaceWhere Shape.isText new ([] ++ ⟨t, .text content, [], []⟩ :: []) = new
    rw [replaceWhere_append_cons hnone rfl, List.filter_nil, List.append_nil, List.nil_append]

/-- What comes after the text of a new element: its attributes, the mark and the filling. -/
theorem runs_finishElement (hengine : engine.Ready) (hd : d.Sound) {text : String}
    (hs : (⟨id, .element tag [], notes, kids⟩ : Shape).In d none)
    (hnodup : (Entries.keys attributes).Nodup)
    (hnames : ∀ name ∈ Entries.keys attributes, Markup.isAttributeName name = true)
    (hkids : Shape.OneText text kids)
    (htext : noted notes textSource (Tree.directText (Shape.treesAll kids)) = text)
    (hnotes : ∀ name value, noted notes (attributeSource name) value = value)
    (model : Value) (scope : Scope) :
    Runs (do
        attributes.forM fun a => Pass.apply (·.setAttribute id a.1 a.2)
        Pass.apply (·.setAttribute id engine.settings.generatedAttribute "true")
        Pass.edit (Document.fill id model scope)
        pure id : Pass NodeId) ⟨engine, d⟩ fun node stage =>
      node = id ∧ stage.engine = engine ∧ stage.document.Sound ∧ ∃ notes' kids',
        Shape.treesAll kids' = Tree.textTrees (Placeholder.filled text model scope) ∧
        (⟨id, .element tag (generatedAttributes engine.settings attributes model scope), notes',
          kids'⟩ : Shape).In stage.document none ∧
        d.Replaces stage.document (id :: Shape.idsAll kids) (id :: Shape.idsAll kids') := by
  refine (runs_forM_setAttribute hd hs hnodup hnames).bind ?_
  rintro - ⟨engine₁, d₁⟩ ⟨hengine₁, hd₁, hs₁, hrep₁⟩
  obtain rfl : engine₁ = engine := hengine₁
  obtain ⟨d₂, hset, hd₂, hs₂, hrep₂⟩ := hd₁.setAttribute_in hs₁ hengine.generated "true"
  refine Pass.runs_bind_apply hset (Pass.runs_bind_edit ?_)
  refine (hd₂.runs_fill hs₂ htext model scope).mono ?_
  rintro - d₃ ⟨hd₃, kids', hfilled, hs₃, hrep₃⟩
  have hshown : Shape.treesAll kids' = Tree.textTrees (Placeholder.filled text model scope) := by
    rw [Shape.TextFilled] at hfilled
    rw [Placeholder.filled]
    by_cases happears : Placeholder.appearsIn text = true
    · rw [if_pos happears] at hfilled ⊢
      obtain ⟨new, hnew, rfl⟩ := hfilled
      rw [replaceWhere_oneText hkids, treesAll_oneText hnew]
    · rw [if_neg happears] at hfilled ⊢
      rw [hfilled, treesAll_oneText hkids]
  have hmap : (Entries.put engine₁.settings.generatedAttribute "true" ([] ++ attributes)).map
      (fillPair notes model scope) = generatedAttributes engine₁.settings attributes model scope :=
    List.map_congr_left fun a _ => by simp only [fillPair, hnotes, Placeholder.filled]
  have hrep := (hrep₁.trans hrep₂).trans hrep₃
  exact .pure ⟨rfl, rfl, hd₃, _, kids', hshown, hmap ▸ hs₃, hrep⟩

/-- A new element shows its own text and its attributes, and carries the mark. -/
theorem runs_makeElement (hengine : engine.Ready) (hd : d.Sound)
    (htag : Markup.isTagName tag = true) (hnodup : (Entries.keys attributes).Nodup)
    (hnames : ∀ name ∈ Entries.keys attributes, Markup.isAttributeName name = true)
    (text : String) (model : Value) (scope : Scope) :
    Runs (Expansion.makeElement tag attributes text model scope) ⟨engine, d⟩ fun node stage =>
      stage.engine = engine ∧ ∃ notes kids,
        Shape.treesAll kids = Tree.textTrees (Placeholder.filled text model scope) ∧
        Made d stage.document [⟨node, .element tag
          (generatedAttributes engine.settings attributes model scope), notes, kids⟩] := by
  have hmade : ∀ {d' : Document} {s : Shape}, d'.Sound → s.In d' none → d.Replaces d' [] s.ids →
      Made d d' [s] := by
    intro d' s hd' hs hrep
    refine ⟨hd', ⟨hs, trivial⟩, ?_, ?_⟩
    · rw [Shape.idsAll_singleton]
      exact hd'.nodup_ids hs
    · rwa [Shape.idsAll_singleton]
  refine .get ?_
  rcases hd.createElement_in htag with ⟨hfull, herror⟩ | ⟨id, d₁, hok, hd₁, hs₁, hrep₁⟩
  · refine .of_outOfSlots (bind_eq_of_error (t := ⟨engine, d⟩) ?_) hfull
    simp only [Pass.edit, Edit.create, herror]
  · refine Pass.runs_bind_edit (.of_ok (a := id) (t := d₁) (by simp only [Edit.create, hok]) ?_)
    by_cases htext : text = ""
    · subst htext
      refine (runs_finishElement hengine hd₁ hs₁ hnodup hnames (Or.inl ⟨rfl, rfl⟩) rfl
        (fun _ _ => rfl) model scope).mono ?_
      rintro _ stage ⟨rfl, hstage, hsound, notes', kids', hkids, hin, hrep⟩
      exact ⟨hstage, notes', kids', hkids, hmade hsound hin (hrep₁.trans hrep)⟩
    · rw [if_pos htext]
      refine Pass.runs_bind_edit ?_
      rcases hd₁.setDirectText hs₁ (fun _ h => by cases h) text with
        ⟨hfull, -, herror⟩ | ⟨d₂, new, hok₂, hd₂, hnew, -, hs₂, hrep₂⟩
      · exact .of_outOfSlots herror (mt Or.inl hfull)
      · refine .of_ok hok₂ ?_
        have hempty : Shape.OneText "" [] := Or.inl ⟨rfl, rfl⟩
        rw [replaceWhere_oneText hempty] at hs₂ hrep₂
        obtain ⟨d₃, hnote, hd₃, hs₃, hrep₃⟩ := hd₂.setNote_in hs₂ textSource text
        refine Pass.runs_bind_apply hnote ?_
        refine (runs_finishElement hengine hd₃ hs₃ hnodup hnames hnew ?_ ?_ model scope).mono ?_
        · simp only [noted, Entries.put, Entries.get?, if_true, if_neg htext]
        · intro name value
          simp only [noted, Entries.put, Entries.get?, if_neg (attributeSource_ne name).symm]
        · rintro _ stage ⟨rfl, hstage, hsound, notes', kids', hkids, hin, hrep⟩
          refine ⟨hstage, notes', kids', hkids, hmade hsound hin ?_⟩
          exact ((hrep₁.trans hrep₂).trans hrep₃).trans hrep

end Elements

namespace Pass

variable {engine : Engine} {d d₁ : Document} {id : NodeId} {p : Option NodeId} {kind : NodeKind}
  {notes : List (String × String)} {before after shapes : List Shape}
  {place : NodeId → Document → Except TreeError Document}

/-- Detached shapes may be put right before some of the children of a node. -/
def Puts (place : NodeId → Document → Except TreeError Document) (id : NodeId) (kind : NodeKind)
    (notes : List (String × String)) (p : Option NodeId) (after : List Shape) : Prop :=
  ∀ (d : Document) (before : List Shape) (s : Shape), d.Sound →
    (⟨id, kind, notes, before ++ after⟩ : Shape).In d p → s.In d none → s.id ≠ .root →
    id ∉ s.ids → ∃ d', place s.id d = .ok d' ∧ d'.Sound ∧
      (⟨id, kind, notes, before ++ s :: after⟩ : Shape).In d' p ∧
      d.Replaces d' (s.ids ++ id :: Shape.idsAll (before ++ after))
        (id :: Shape.idsAll (before ++ s :: after))

/-- Detached shapes put at one place in a row, each after the one before. -/
theorem runs_forM_place (hplace : Puts place id kind notes p after) (hd : d.Sound)
    (hs : (⟨id, kind, notes, before ++ after⟩ : Shape).In d p)
    (hshapes : Shape.InAll d none shapes) (hroot : NodeId.root ∉ Shape.idsAll shapes)
    (hdisj : (Shape.idsAll shapes ++ id :: Shape.idsAll (before ++ after)).Nodup) :
    Runs ((shapes.map Shape.id).forM fun node => Pass.apply (place node)) ⟨engine, d⟩
      fun _ stage => stage.engine = engine ∧ stage.document.Sound ∧
        (⟨id, kind, notes, before ++ shapes ++ after⟩ : Shape).In stage.document p ∧
        d.Replaces stage.document (Shape.idsAll shapes ++ id :: Shape.idsAll (before ++ after))
          (id :: Shape.idsAll (before ++ shapes ++ after)) := by
  induction shapes generalizing d before with
  | nil =>
    rw [List.append_nil]
    exact .pure ⟨rfl, hd, hs, .refl d _⟩
  | cons s rest ih =>
    have hmem : ∀ x, x ∈ Shape.idsAll (before ++ s :: after) ↔
        x ∈ s.ids ∨ x ∈ Shape.idsAll (before ++ after) := fun x => by
      simp only [Shape.idsAll_append, Shape.idsAll, List.mem_append]
      exact or_left_comm
    rw [Shape.idsAll, List.append_assoc, List.nodup_append'] at hdisj
    obtain ⟨-, hrest, hsep⟩ := hdisj
    have hsroot : s.id ≠ .root := fun h => hroot (List.mem_append_left _ (h ▸ s.id_mem_ids))
    have hid : id ∉ s.ids := fun h => hsep h (List.mem_append_right _ (List.mem_cons_self ..))
    obtain ⟨d₁, hok, hd₁, hs₁, hrep₁⟩ := hplace d before s hd hs hshapes.1 hsroot hid
    refine Pass.runs_bind_apply hok ?_
    have hkept : Shape.InAll d₁ none rest := hshapes.2.of_replaces hrep₁ fun x hx hold => by
      rcases List.mem_append.1 hold with h | h
      · exact hsep h (List.mem_append_left _ hx)
      · exact (List.nodup_append'.1 hrest).2.2 hx h
    have hnodup : (Shape.idsAll rest ++ id :: Shape.idsAll (before ++ s :: after)).Nodup := by
      obtain ⟨hnodup, -, hsep'⟩ := List.nodup_append'.1 hrest
      refine List.nodup_append'.2 ⟨hnodup, hd₁.nodup_ids hs₁, fun x hx hold => ?_⟩
      rw [List.mem_cons, hmem] at hold
      rcases hold with h | h | h
      · exact hsep' hx (h ▸ List.mem_cons_self ..)
      · exact hsep h (List.mem_append_left _ hx)
      · exact hsep' hx (List.mem_cons_of_mem _ h)
    have hsplit : before ++ s :: after = before ++ [s] ++ after := by
      rw [List.append_assoc, List.singleton_append]
    rw [hsplit] at hs₁ hnodup hrep₁ hmem
    refine (ih hd₁ hs₁ hkept (fun h => hroot (List.mem_append_right _ h)) hnodup).mono ?_
    rintro - stage ⟨hengine, hsound, hin, hrep⟩
    have hjoin : before ++ [s] ++ rest = before ++ s :: rest := by
      rw [List.append_assoc, List.singleton_append]
    rw [hjoin] at hin hrep
    refine ⟨hengine, hsound, hin, ?_⟩
    refine ((hrep₁.append_left (Shape.idsAll rest)).trans hrep).of_mem_iff (fun x => ?_)
      fun _ => Iff.rfl
    simp only [Shape.idsAll, List.mem_append]
    exact or_assoc.trans or_left_comm

/-- New shapes put at one place in a row. -/
theorem runs_place_made (hplace : Puts place id kind notes p after) (hd : d.Sound)
    (hs : (⟨id, kind, notes, before ++ after⟩ : Shape).In d p) (hmade : Made d d₁ shapes) :
    Runs ((shapes.map Shape.id).forM fun node => Pass.apply (place node)) ⟨engine, d₁⟩
      fun _ stage => stage.engine = engine ∧ stage.document.Sound ∧
        (⟨id, kind, notes, before ++ shapes ++ after⟩ : Shape).In stage.document p ∧
        d.Replaces stage.document (id :: Shape.idsAll (before ++ after))
          (id :: Shape.idsAll (before ++ shapes ++ after)) := by
  have hroot : NodeId.root ∉ Shape.idsAll shapes := fun hmem =>
    hd.ne_root (hmade.node?_eq_none hmem) rfl
  have hnodup : (Shape.idsAll shapes ++ id :: Shape.idsAll (before ++ after)).Nodup := by
    refine List.nodup_append'.2 ⟨hmade.nodup, hd.nodup_ids hs, fun x hx hxs => ?_⟩
    exact hmade.disjoint (fun y hy => hs.contains hy) hxs hx
  refine (runs_forM_place hplace hmade.sound
    (hs.of_replaces hmade.replaces (List.disjoint_nil_right _)) hmade.inAll hroot hnodup).mono ?_
  rintro - stage ⟨hengine, hsound, hin, hrep⟩
  exact ⟨hengine, hsound, hin,
    (hmade.replaces.append_right (id :: Shape.idsAll (before ++ after))).trans hrep⟩

end Pass

/-- A sound document and an engine that can work on it. -/
structure Stage.Ready (stage : Stage) : Prop where
  document : stage.document.Sound
  engine : stage.engine.Ready

/-- The nodes are detached shapes that show what a meaning gives, made besides all that there was;
in the engine nothing but the registry has changed. -/
structure Expands (stage : Stage) (meaning : Meaning) (nodes : List NodeId) (stage' : Stage) :
    Prop where
  engine : stage'.engine = { stage.engine with registry := (meaning stage.engine.registry).2 }
  registry : Registry.Valid (meaning stage.engine.registry).2
  made : ∃ shapes, nodes = shapes.map Shape.id ∧
    Shape.treesAll shapes = (meaning stage.engine.registry).1 ∧
    Made stage.document stage'.document shapes

namespace Expands

variable {stage stage₁ stage₂ : Stage} {meaning first second : Meaning} {nodes others : List NodeId}

theorem ready (h : Expands stage meaning nodes stage₁) (hs : stage.Ready) : stage₁.Ready := by
  obtain ⟨shapes, -, -, hmade⟩ := h.made
  refine ⟨hmade.sound, ?_, ?_⟩
  · rw [h.engine]
    exact hs.engine.generated
  · rw [h.engine]
    exact h.registry

theorem of_eq {other : Meaning} (h : Expands stage meaning nodes stage₁)
    (heq : other stage.engine.registry = meaning stage.engine.registry) :
    Expands stage other nodes stage₁ :=
  ⟨heq ▸ h.engine, heq ▸ h.registry, heq ▸ h.made⟩

theorem nothing (hs : stage.Ready) : Expands stage Meaning.nothing [] stage :=
  ⟨rfl, hs.engine.registry, [], rfl, rfl, .nil hs.document⟩

theorem join (h : Expands stage first nodes stage₁) (h' : Expands stage₁ second others stage₂) :
    Expands stage (first.join second) (nodes ++ others) stage₂ := by
  obtain ⟨shapes, rfl, htrees, hmade⟩ := h.made
  obtain ⟨shapes', rfl, htrees', hmade'⟩ := h'.made
  have hengine := h'.engine
  have hregistry := h'.registry
  rw [h.engine] at hengine hregistry htrees'
  refine ⟨hengine, hregistry, shapes ++ shapes', (List.map_append ..).symm, ?_,
    hmade.append hmade'⟩
  rw [Shape.treesAll_append, htrees, htrees']
  rfl

end Expands

/-- At a depth, work does on every stage what a meaning says, if it does not run out of slots. -/
def Refines (s : Settings) (depth : Nat) (work : Pass (List NodeId)) (meaning : Meaning) : Prop :=
  ∀ stage : Stage, stage.Ready → stage.engine.settings = s → stage.engine.depth = depth →
    Runs work stage (Expands stage meaning)

namespace Refines

variable {s : Settings} {depth : Nat} {first second : Pass (List NodeId)} {meaning other : Meaning}

theorem nothing : Refines s depth (pure []) Meaning.nothing := fun _ hs _ _ =>
  .pure (.nothing hs)

theorem join (h : Refines s depth first meaning) (h' : Refines s depth second other) :
    Refines s depth (do
      let nodes ← first
      let others ← second
      pure (nodes ++ others)) (meaning.join other) := by
  intro stage hs hsettings hdepth
  refine (h stage hs hsettings hdepth).bind fun nodes stage₁ h₁ => ?_
  refine (h' stage₁ (h₁.ready hs) ?_ ?_).bind fun others stage₂ h₂ => .pure (h₁.join h₂)
  · rw [h₁.engine]
    exact hsettings
  · rw [h₁.engine]
    exact hdepth

theorem gather {α : Type} {make : α → Pass (List NodeId)} {each : α → Meaning} {l : List α}
    (h : ∀ a ∈ l, Refines s depth (make a) (each a)) :
    Refines s depth (Pass.gather make l) (Meaning.gather each l) := by
  induction l with
  | nil => exact nothing
  | cons a rest ih =>
    exact (h a (List.mem_cons_self ..)).join (ih fun b hb => h b (List.mem_cons_of_mem _ hb))

end Refines

/-- What expands uses at a depth does what `uses` says, one use further in; at the bound of the
depth uses stand for nothing. -/
def Opens (s : Settings) (depth : Nat) (opener : Opener) (uses : Fragment → Scope → Meaning) :
    Prop :=
  if s.maxDepth ≤ depth then ∀ fragment scope, uses fragment scope = Meaning.nothing
  else ∀ fragment scope, Template.ValidAll fragment →
    Refines s (depth + 1) (opener fragment scope) (uses fragment scope)

namespace Expansion

variable {s : Settings} {depth : Nat} {opener : Opener} {uses : Fragment → Scope → Meaning}
  {model : Value} {fragment : Fragment}

theorem refines_expandAll
    (h : ∀ t ∈ fragment, ∀ scope,
      Refines s depth (expand opener model t scope) (t.denote s model uses scope))
    (scope : Scope) : Refines s depth (expandAll opener model fragment scope)
      (Template.denoteAll s model uses fragment scope) := by
  induction fragment with
  | nil =>
    rw [expandAll, Template.denoteAll]
    exact .nothing
  | cons t rest ih =>
    rw [expandAll, Template.denoteAll]
    exact (h t (List.mem_cons_self ..) scope).join (ih fun u hu => h u (List.mem_cons_of_mem _ hu))

theorem refines_use (hopener : Opens s depth opener uses) (name : String) (source : Option String)
    (scope : Scope) : Refines s depth (use opener name source scope) fun registry =>
      match registry.instance? name source with
      | none => ([], registry)
      | some definition =>
        uses definition.fragment (sourceFrame scope name definition.source) registry := by
  rintro ⟨engine, d⟩ hs rfl rfl
  refine .get ?_
  cases hname : engine.registry.instance? name source with
  | none => exact .pure ((Expands.nothing hs).of_eq (by simp only [hname]; rfl))
  | some definition =>
    rw [Opens] at hopener
    dsimp only
    split
    · next hbound =>
      rw [if_pos hbound] at hopener
      refine .pure ((Expands.nothing hs).of_eq ?_)
      simp only [hname, hopener]
    · next hbound =>
      rw [if_neg hbound] at hopener
      have hvalid : Template.ValidAll definition.fragment := by
        rw [Registry.instance?, Option.map_eq_some_iff] at hname
        obtain ⟨found, hfound, rfl⟩ := hname
        exact hs.engine.registry name found hfound
      refine Pass.runs_inner ?_
      refine (hopener definition.fragment (sourceFrame scope name definition.source) hvalid
        ⟨{ engine with depth := engine.depth + 1 }, d⟩ ⟨hs.document, hs.engine.generated,
          hs.engine.registry⟩ rfl rfl).mono fun nodes stage h => ?_
      refine ⟨?_, ?_, ?_⟩
      · simp only [hname, h.engine, Nat.add_sub_cancel]
      · simp only [hname]
        exact h.registry
      · simp only [hname]
        exact h.made

variable {engine : Engine} {d : Document} {id : NodeId} {kind : NodeKind}
  {notes : List (String × String)} {kids shapes : List Shape} {scope : Scope}

/-- What children give is put at the end of a new element. -/
theorem runs_expandInto
    (h : ∀ t ∈ fragment, ∀ scope,
      Refines s depth (expand opener model t scope) (t.denote s model uses scope))
    (hready : engine.Ready) (hsettings : engine.settings = s) (hdepth : engine.depth = depth)
    (hd : d.Sound) (hs : (⟨id, kind, notes, kids⟩ : Shape).In d none)
    (hkind : ∀ content, kind ≠ .text content) (scope : Scope) :
    Runs (expandInto opener model id fragment scope) ⟨engine, d⟩ fun _ stage =>
      stage.engine = { engine with
        registry := (Template.denoteAll s model uses fragment scope engine.registry).2 } ∧
      Registry.Valid (Template.denoteAll s model uses fragment scope engine.registry).2 ∧
      stage.document.Sound ∧ ∃ kids',
        Shape.treesAll kids' = Shape.treesAll kids ++
          (Template.denoteAll s model uses fragment scope engine.registry).1 ∧
        (⟨id, kind, notes, kids'⟩ : Shape).In stage.document none ∧
        d.Replaces stage.document (id :: Shape.idsAll kids) (id :: Shape.idsAll kids') := by
  induction fragment generalizing engine d kids with
  | nil =>
    rw [expandInto, Template.denoteAll]
    exact .pure ⟨rfl, hready.registry, hd, kids, (List.append_nil _).symm, hs, .refl d _⟩
  | cons t rest ih =>
    rw [expandInto, Template.denoteAll]
    refine (h t (List.mem_cons_self ..) scope ⟨engine, d⟩ ⟨hd, hready⟩ hsettings hdepth).bind ?_
    rintro nodes ⟨engine₁, d₁⟩ ⟨hengine₁, hregistry, shapes, rfl, htrees, hmade⟩
    have hplace : Pass.Puts (fun node d => d.append id node) id kind notes none [] := by
      intro d before s hd hs
      rw [List.append_nil] at hs ⊢
      exact hd.append_in hs hkind
    have hend : (⟨id, kind, notes, kids ++ []⟩ : Shape).In d none := by rwa [List.append_nil]
    refine (Pass.runs_place_made hplace hd hend hmade).bind ?_
    rintro - ⟨engine₂, d₂⟩ ⟨hengine₂, hd₂, hs₂, hrep₂⟩
    rw [List.append_nil] at hs₂ hrep₂
    rw [List.append_nil] at hrep₂
    obtain rfl : engine₂ = { engine with
        registry := (t.denote s model uses scope engine.registry).2 } := hengine₂.trans hengine₁
    have hready₂ : Engine.Ready { engine with
        registry := (t.denote s model uses scope engine.registry).2 } :=
      ⟨hready.generated, hregistry⟩
    refine (ih (fun u hu => h u (List.mem_cons_of_mem _ hu)) hready₂ hsettings hdepth hd₂
      hs₂).mono ?_
    rintro - stage ⟨hstage, hvalid, hsound, kids', hkids', hin, hrep⟩
    refine ⟨hstage, hvalid, hsound, kids', ?_, hin, ?_⟩
    · rw [hkids', Shape.treesAll_append, htrees, List.append_assoc]
      rfl
    · exact hrep₂.trans hrep

/-- Expanding a template does what the template stands for. -/
theorem refines_expand (hopener : Opens s depth opener uses) (t : Template) (ht : t.Valid)
    (scope : Scope) :
    Refines s depth (expand opener model t scope) (t.denote s model uses scope) := by
  induction t using Template.induction generalizing scope with
  | element tag attributes text children ih =>
    obtain ⟨⟨htag, hnodup, hnames⟩, hchildren⟩ := ht
    rintro ⟨engine, d⟩ hs rfl rfl
    rw [expand, Template.denote]
    refine (runs_makeElement hs.engine hs.document htag hnodup hnames text model scope).bind ?_
    rintro node ⟨engine₁, d₁⟩ ⟨hengine₁, notes, kids, hkids, hmade⟩
    obtain rfl : engine₁ = engine := hengine₁
    refine (runs_expandInto (fun t ht => ih t ht (Template.validAll_iff.1 hchildren t ht)) hs.engine
      rfl rfl hmade.sound hmade.inAll.1 (fun _ h => by cases h) scope).bind ?_
    rintro - stage ⟨hstage, hvalid, hsound, kids', hkids', hin, hrep⟩
    refine .pure ⟨hstage, hvalid, [_], rfl, ?_, hsound, ⟨hin, trivial⟩, ?_, ?_⟩
    · rw [Shape.treesAll, Shape.treesAll, Shape.trees, hkids', hkids, List.append_nil]
    · rw [Shape.idsAll_singleton]
      exact hsound.nodup_ids hin
    · have hfirst := hmade.replaces
      rw [Shape.idsAll_singleton] at hfirst ⊢
      exact hfirst.trans hrep
  | repetition source binding children ih =>
    rintro ⟨engine, d⟩ hs rfl rfl
    rw [expand, Template.denote]
    refine .get ?_
    dsimp only
    cases hpath : sourcePath? engine.registry scope source with
    | none => exact .pure ((Expands.nothing hs).of_eq (by simp only [hpath]; rfl))
    | some path =>
      have hgather : Refines engine.settings engine.depth
          (Pass.gather (fun item => expandAll opener model children
            (scope.child.bind (binding.getD engine.settings.defaultBinding) item))
            (itemsAt path model scope))
          (Meaning.gather (fun item => Template.denoteAll engine.settings model uses children
            (scope.child.bind (binding.getD engine.settings.defaultBinding) item))
            (itemsAt path model scope)) :=
        Refines.gather fun item _ =>
          refines_expandAll (fun t h => ih t h (Template.validAll_iff.1 ht t h)) _
      refine (hgather ⟨engine, d⟩ hs rfl rfl).mono fun nodes stage h => h.of_eq ?_
      simp only [hpath]
  | conditional test children ih =>
    rw [expand, Template.denote]
    split
    · exact refines_expandAll (fun t h => ih t h (Template.validAll_iff.1 ht t h)) scope
    · exact .nothing
  | recursive name target source children ih =>
    have hchildren : ∀ scope, Refines s depth (expandAll opener model children scope)
        (Template.denoteAll s model uses children scope) :=
      refines_expandAll fun t h => ih t h (Template.validAll_iff.1 ht t h)
    cases name with
    | some name =>
      rw [expand, Template.denote]
      rintro ⟨engine, d⟩ hs rfl rfl
      have hvalid := hs.engine.registry.register name ⟨source, children⟩ ht
      refine (hchildren (sourceFrame scope name source)
        ⟨{ engine with registry := (engine.registry.register name ⟨source, children⟩).2 }, d⟩
        ⟨hs.document, hs.engine.generated, hvalid⟩ rfl rfl).mono fun nodes stage h => ?_
      exact ⟨h.engine, h.registry, h.made⟩
    | none =>
      cases target with
      | some target =>
        rw [expand, Template.denote]
        exact refines_use hopener target source scope
      | none =>
        rw [expand, Template.denote]
        exact hchildren scope

theorem opens_openWithin (room : Nat) (h : s.maxDepth - depth = room) :
    Opens s depth (openWithin model room) (Template.usesWithin s model room) := by
  induction room generalizing depth with
  | zero =>
    rw [Opens, if_pos (by omega)]
    exact fun _ _ => rfl
  | succ room ih =>
    rw [Opens, if_neg (by omega)]
    intro fragment scope hvalid
    exact refines_expandAll (fun t ht scope => refines_expand (ih (by omega)) t
      (Template.validAll_iff.1 hvalid t ht) scope) scope

end Expansion

/-- Expanding a template at any depth does what it stands for there. -/
theorem Pass.refines_expand (s : Settings) (depth : Nat) (t : Template) (ht : t.Valid)
    (model : Value) (scope : Scope) :
    Refines s depth (Pass.expand t model scope) (t.meaning s depth model scope) := by
  rintro ⟨engine, d⟩ hs rfl rfl
  exact Expansion.refines_expand (Expansion.opens_openWithin _ rfl) t ht scope ⟨engine, d⟩ hs rfl
    rfl

end LiveMarkup
