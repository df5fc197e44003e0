import LiveMarkup.Filling
import LiveMarkup.Proofs.Document.DirectText
import LiveMarkup.Tree

/-! Filling a node. The sources of what a node says are what its notes and its content make of
them; filling puts them, filled, in the place of the content, notes them, and so keeps them. -/
namespace LiveMarkup

/-- What a source shows against a model. Without placeholders it shows itself. -/
def Placeholder.filled (source : String) (model : Value) (scope : Scope) : String :=
  if appearsIn source then fill source model scope else source

/-- The noted source of what is there now, if there is one that counts. -/
def noted (notes : List (String × String)) (key current : String) : String :=
  match Entries.get? key notes with
  | some source => if source = "" then current else source
  | none => current

/-- Notes a source that has placeholders. -/
def noteSource (key source : String) (notes : List (String × String)) : List (String × String) :=
  if Placeholder.appearsIn source then Entries.put key source notes else notes

theorem attributeSource_ne (name : String) : attributeSource name ≠ textSource := by
  intro h
  have hchars := congrArg String.toList h
  simp [attributeSource, textSource] at hchars

theorem attributeSource_inj {a b : String} : attributeSource a = attributeSource b ↔ a = b := by
  constructor
  · intro h
    have hchars := congrArg String.toList h
    simp only [attributeSource, String.toList_append, List.append_cancel_left_eq] at hchars
    exact String.toList_inj.1 hchars
  · exact congrArg attributeSource

theorem noted_noteSource_of_ne {key key' : String} (h : key ≠ key') (source current : String)
    (notes : List (String × String)) :
    noted (noteSource key source notes) key' current = noted notes key' current := by
  rw [noteSource]
  split
  · rw [noted, Entries.get?_put, if_neg h, noted]
  · rfl

/-- A source that was read off stays the source, whatever its placeholders have made room for. -/
theorem noted_noteSource {key source : String} {current : String} (notes : List (String × String))
    (h : Placeholder.appearsIn source = true ∨ noted notes key current = source) :
    noted (noteSource key source notes) key current = source := by
  rw [noteSource]
  split
  · next happears =>
    have hne : source ≠ "" := by
      rintro rfl
      cases happears
    rw [noted, Entries.get?_put, if_pos rfl]
    exact if_neg hne
  · next happears => exact h.resolve_left happears

namespace Shape

/-- The direct text of a node was replaced by what a source shows, if it has placeholders. -/
def TextFilled (source : String) (model : Value) (scope : Scope) (kids kids' : List Shape) : Prop :=
  if Placeholder.appearsIn source then
    ∃ new, OneText (Placeholder.fill source model scope) new ∧ kids' = replaceWhere isText new kids
  else kids' = kids

end Shape

/-- An attribute with the source that its notes give it, filled. -/
def fillPair (notes : List (String × String)) (model : Value) (scope : Scope)
    (a : String × String) : String × String :=
  let source := noted notes (attributeSource a.1) a.2
  (a.1, if Placeholder.appearsIn source then Placeholder.fill source model scope else a.2)

/-- Notes the sources of attributes. -/
def noteAttributes (attributes notes : List (String × String)) : List (String × String) :=
  attributes.foldl (fun notes a =>
    noteSource (attributeSource a.1) (noted notes (attributeSource a.1) a.2) notes) notes

namespace Document

variable {d : Document} {id q : NodeId} {p : Option NodeId} {kind : NodeKind} {tag : String}
  {attributes notes : List (String × String)} {kids : List Shape} {s : Shape}

theorem sourceOr_eq_noted (hs : (⟨id, kind, notes, kids⟩ : Shape).In d p) (key current : String) :
    d.sourceOr id key current = noted notes key current := by
  rw [sourceOr, note?, hs.1]
  rfl

theorem Sound.filterMap_content? (hd : d.Sound) (hs : s.In d (some q)) :
    s.trees.filterMap Tree.content? = (d.text? s.id).toList := by
  obtain ⟨id, kind, notes, kids⟩ := s
  cases kind with
  | root =>
    obtain rfl : id = .root := hd.valid hs.1
    have hparent := hs.parent?
    rw [Shape.id_mk, hd.parent?_root] at hparent
    cases hparent
  | element tag attributes => simp [Shape.trees, Tree.content?, text?, hs.1]
  | text content => simp [Shape.trees, Tree.content?, text?, hs.1]

theorem Sound.directText_eq (hd : d.Sound) (hs : (⟨id, kind, notes, kids⟩ : Shape).In d p) :
    d.directText id = Tree.directText (Shape.treesAll kids) := by
  have hcontents : (kids.map Shape.id).filterMap d.text? =
      (Shape.treesAll kids).filterMap Tree.content? := by
    rw [Shape.treesAll_eq_flatMap, List.filterMap_flatMap, List.filterMap_map,
      List.filterMap_eq_flatMap_toList]
    exact List.flatMap_congr fun c hc => (hd.filterMap_content? (Shape.inAll_iff.1 hs.2 c hc)).symm
  rw [directText, children_of_node? hs.1, hcontents, Tree.directText]

/-- Filling the direct text of a node fails only where a text is to be put and finds no slot. -/
theorem Sound.fillText_cases (hd : d.Sound) (hs : (⟨id, kind, notes, kids⟩ : Shape).In d p)
    (hkind : ∀ content, kind ≠ .text content) {source : String}
    (hsource : noted notes textSource (Tree.directText (Shape.treesAll kids)) = source)
    (model : Value) (scope : Scope) :
    (Placeholder.appearsIn source = true ∧ ¬ d.HasTextRoom id ∧
      ∃ t, fillText id model scope d = .error .outOfSlots t ∧ ¬ t.HasRoom) ∨
    ∃ d' kids', fillText id model scope d = .ok ⟨⟩ d' ∧ d'.Sound ∧
      (d.HasTextRoom id → d'.HasTextRoom id) ∧ Shape.TextFilled source model scope kids kids' ∧
      (⟨id, kind, noteSource textSource source notes, kids'⟩ : Shape).In d' p ∧
      d.Replaces d' (id :: Shape.idsAll kids) (id :: Shape.idsAll kids') := by
  simp only [fillText, get_bind]
  rw [sourceOr_eq_noted hs, hd.directText_eq hs, hsource, noteSource]
  by_cases happears : Placeholder.appearsIn source = true
  · obtain ⟨d₁, hnote, hd₁, hs₁, hrep₁⟩ := hd.setNote_in hs textSource source
    have hroom := HasTextRoom.of_in hs hs₁ (hasRoom_setNote hnote)
    rw [if_pos happears, if_pos happears,
      bind_eq_of_ok (Edit.apply_of_eq_ok (f := (·.setNote id textSource source)) hnote)]
    rcases hd₁.setDirectText hs₁ hkind (Placeholder.fill source model scope) with
      ⟨hfull, -, herror⟩ | ⟨d', new, hok, hd', hnew, hroom', hs', hrep⟩
    · exact Or.inl ⟨happears, mt hroom.2 hfull, d₁, herror, mt Or.inl hfull⟩
    · refine Or.inr ⟨d', _, hok, hd', fun h => hroom' (hroom.2 h), ?_, hs', hrep₁.trans hrep⟩
      rw [Shape.TextFilled, if_pos happears]
      exact ⟨new, hnew, rfl⟩
  · rw [if_neg happears, if_neg happears]
    refine Or.inr ⟨d, kids, rfl, hd, fun h => h, ?_, hs, .refl d _⟩
    rw [Shape.TextFilled, if_neg happears]

theorem Sound.runs_fillText (hd : d.Sound) (hs : (⟨id, kind, notes, kids⟩ : Shape).In d p)
    (hkind : ∀ content, kind ≠ .text content) {source : String}
    (hsource : noted notes textSource (Tree.directText (Shape.treesAll kids)) = source)
    (model : Value) (scope : Scope) : Runs (fillText id model scope) d fun _ d' =>
      d'.Sound ∧ ∃ kids', Shape.TextFilled source model scope kids kids' ∧
        (⟨id, kind, noteSource textSource source notes, kids'⟩ : Shape).In d' p ∧
        d.Replaces d' (id :: Shape.idsAll kids) (id :: Shape.idsAll kids') := by
  obtain ⟨-, -, t, herror, hfull⟩ | ⟨d', kids', hok, hd', -, h⟩ :=
    hd.fillText_cases hs hkind hsource model scope
  · exact .of_outOfSlots herror hfull
  · exact .of_ok hok ⟨hd', kids', h⟩

/-- Filling an attribute never fails. -/
theorem Sound.fillAttribute_in (hd : d.Sound)
    (hs : (⟨id, .element tag attributes, notes, kids⟩ : Shape).In d p) {a : String × String}
    (hname : Markup.isAttributeName a.1 = true) {source : String}
    (hsource : noted notes (attributeSource a.1) a.2 = source) (model : Value) (scope : Scope) :
    ∃ d', fillAttribute id model scope a d = .ok ⟨⟩ d' ∧ d'.Sound ∧ (d'.HasRoom ↔ d.HasRoom) ∧
      (⟨id, .element tag (if Placeholder.appearsIn source then
          Entries.put a.1 (Placeholder.fill source model scope) attributes else attributes),
        noteSource (attributeSource a.1) source notes, kids⟩ : Shape).In d' p ∧
      d.Replaces d' (id :: Shape.idsAll kids) (id :: Shape.idsAll kids) := by
  simp only [fillAttribute, get_bind]
  rw [sourceOr_eq_noted hs, hsource, noteSource]
  by_cases happears : Placeholder.appearsIn source = true
  · obtain ⟨d₁, hnote, hd₁, hs₁, hrep₁⟩ := hd.setNote_in hs (attributeSource a.1) source
    obtain ⟨d₂, hset, hd₂, hs₂, hrep₂⟩ :=
      hd₁.setAttribute_in hs₁ hname (Placeholder.fill source model scope)
    rw [if_pos happears, if_pos happears, if_pos happears,
      bind_eq_of_ok (Edit.apply_of_eq_ok (f := (·.setNote id (attributeSource a.1) source)) hnote)]
    exact ⟨d₂, Edit.apply_of_eq_ok (f := (·.setAttribute id a.1 _)) hset, hd₂,
      (hasRoom_setAttribute hset).trans (hasRoom_setNote hnote), hs₂, hrep₁.trans hrep₂⟩
  · rw [if_neg happears, if_neg happears, if_neg happears]
    exact ⟨d, rfl, hd, Iff.rfl, hs, .refl d _⟩

end Document

theorem fillPair_noteSource {a b : String × String} (h : a.1 ≠ b.1) (source : String)
    (notes : List (String × String)) (model : Value) (scope : Scope) :
    fillPair (noteSource (attributeSource a.1) source notes) model scope b =
      fillPair notes model scope b := by
  simp only [fillPair, noted_noteSource_of_ne (mt attributeSource_inj.1 h)]

namespace Document

variable {d : Document} {id : NodeId} {p : Option NodeId} {tag : String}
  {notes : List (String × String)} {kids : List Shape}

/-- Attributes are filled one after another; those before and after are not touched. -/
theorem Sound.forM_fillAttribute_in {attributes : List (String × String)} (hd : d.Sound)
    (before : List (String × String))
    (hs : (⟨id, .element tag (before ++ attributes), notes, kids⟩ : Shape).In d p)
    (model : Value) (scope : Scope) :
    ∃ d', attributes.forM (fillAttribute id model scope) d = .ok ⟨⟩ d' ∧ d'.Sound ∧
      (d'.HasRoom ↔ d.HasRoom) ∧
      (⟨id, .element tag (before ++ attributes.map (fillPair notes model scope)),
        noteAttributes attributes notes, kids⟩ : Shape).In d' p ∧
      d.Replaces d' (id :: Shape.idsAll kids) (id :: Shape.idsAll kids) := by
  induction attributes generalizing d before notes with
  | nil => exact ⟨d, rfl, hd, Iff.rfl, hs, .refl d _⟩
  | cons a rest ih =>
    obtain ⟨name, value⟩ := a
    obtain ⟨-, hnodup, hnames⟩ := hd.valid hs.1
    rw [Entries.keys, List.map_append, List.map_cons, List.nodup_append'] at hnodup
    obtain ⟨-, hrest, hdisj⟩ := hnodup
    have hbefore : name ∉ Entries.keys before := fun h => hdisj h (List.mem_cons_self ..)
    have hname : Markup.isAttributeName name = true := hnames name (by simp [Entries.keys])
    have hpair : fillPair notes model scope (name, value) = (name,
        if Placeholder.appearsIn (noted notes (attributeSource name) value) then
          Placeholder.fill (noted notes (attributeSource name) value) model scope else value) := rfl
    obtain ⟨d₁, hok₁, hd₁, hroom₁, hs₁, hrep₁⟩ :=
      hd.fillAttribute_in hs (a := (name, value)) hname rfl model scope
    have hput : (if Placeholder.appearsIn (noted notes (attributeSource name) value) then
          Entries.put name (Placeholder.fill (noted notes (attributeSource name) value) model scope)
            (before ++ (name, value) :: rest) else before ++ (name, value) :: rest) =
        before ++ [fillPair notes model scope (name, value)] ++ rest := by
      rw [hpair, List.append_assoc, List.singleton_append]
      split
      · exact Entries.put_append_cons hbefore
      · rfl
    rw [hput] at hs₁
    obtain ⟨d₂, hok₂, hd₂, hroom₂, hs₂, hrep₂⟩ := ih hd₁ _ hs₁
    refine ⟨d₂, (bind_eq_of_ok hok₁).trans hok₂, hd₂, hroom₂.trans hroom₁, ?_,
      hrep₁.trans hrep₂⟩
    have hmap : rest.map (fillPair (noteSource (attributeSource name)
        (noted notes (attributeSource name) value) notes) model scope) =
        rest.map (fillPair notes model scope) := by
      refine List.map_congr_left fun b hb => fillPair_noteSource (a := (name, value)) ?_ _ _ _ _
      intro h
      exact (List.nodup_cons.1 hrest).1 (h ▸ List.mem_map_of_mem hb)
    rw [hmap, List.append_assoc, List.singleton_append] at hs₂
    exact hs₂

/-- Filling an element: its direct text and its attributes show their sources, and the sources stay
what they were. It fails only where a text is to be put and finds no slot. -/
theorem Sound.fill_cases {attributes : List (String × String)} (hd : d.Sound)
    (hs : (⟨id, .element tag attributes, notes, kids⟩ : Shape).In d p) {source : String}
    (hsource : noted notes textSource (Tree.directText (Shape.treesAll kids)) = source)
    (model : Value) (scope : Scope) :
    (Placeholder.appearsIn source = true ∧ ¬ d.HasTextRoom id ∧
      ∃ t, fill id model scope d = .error .outOfSlots t ∧ ¬ t.HasRoom) ∨
    ∃ d' kids', fill id model scope d = .ok ⟨⟩ d' ∧ d'.Sound ∧
      (d.HasTextRoom id → d'.HasTextRoom id) ∧ Shape.TextFilled source model scope kids kids' ∧
      (⟨id, .element tag (attributes.map (fillPair notes model scope)),
        noteAttributes attributes (noteSource textSource source notes), kids'⟩ : Shape).In d' p ∧
      d.Replaces d' (id :: Shape.idsAll kids) (id :: Shape.idsAll kids') := by
  obtain ⟨happears, hroom, t, herror, hfull⟩ | ⟨d₁, kids', hok₁, hd₁, hroom₁, hkids, hs₁, hrep₁⟩ :=
    hd.fillText_cases hs (fun _ h => nomatch h) hsource model scope
  · exact Or.inl ⟨happears, hroom, t, bind_eq_of_error herror, hfull⟩
  have hattributes : d₁.attributes id = attributes := by
    rw [Document.attributes, hs₁.1]
  obtain ⟨d₂, hok₂, hd₂, hroom₂, hs₂, hrep₂⟩ := hd₁.forM_fillAttribute_in [] hs₁ model scope
  have hmap : attributes.map (fillPair (noteSource textSource source notes) model scope) =
      attributes.map (fillPair notes model scope) := by
    refine List.map_congr_left fun b hb => ?_
    simp only [fillPair, noted_noteSource_of_ne (attributeSource_ne b.1).symm]
  refine Or.inr ⟨d₂, kids', ?_, hd₂, fun h => (HasTextRoom.of_in hs₁ hs₂ hroom₂).2 (hroom₁ h),
    hkids, ?_, hrep₁.trans hrep₂⟩
  · rw [fill, bind_eq_of_ok hok₁, get_bind, hattributes, hok₂]
  · rwa [List.nil_append, hmap] at hs₂

theorem Sound.runs_fill {attributes : List (String × String)} (hd : d.Sound)
    (hs : (⟨id, .element tag attributes, notes, kids⟩ : Shape).In d p) {source : String}
    (hsource : noted notes textSource (Tree.directText (Shape.treesAll kids)) = source)
    (model : Value) (scope : Scope) : Runs (fill id model scope) d fun _ d' => d'.Sound ∧
      ∃ kids', Shape.TextFilled source model scope kids kids' ∧
        (⟨id, .element tag (attributes.map (fillPair notes model scope)),
          noteAttributes attributes (noteSource textSource source notes), kids'⟩ : Shape).In d' p ∧
        d.Replaces d' (id :: Shape.idsAll kids) (id :: Shape.idsAll kids') := by
  obtain ⟨-, -, t, herror, hfull⟩ | ⟨d', kids', hok, hd', -, h⟩ :=
    hd.fill_cases hs hsource model scope
  · exact .of_outOfSlots herror hfull
  · exact .of_ok hok ⟨hd', kids', h⟩

end Document

section Sources

variable {name : String} {attributes notes : List (String × String)} {model : Value} {scope : Scope}

/-- Attributes with their sources in place of their values. -/
def sourcesOf (notes attributes : List (String × String)) : List (String × String) :=
  attributes.map fun a => (a.1, noted notes (attributeSource a.1) a.2)

/-- Attributes whose sources have no placeholders show their sources. -/
def Settled (notes attributes : List (String × String)) : Prop :=
  ∀ a ∈ attributes, Placeholder.appearsIn (noted notes (attributeSource a.1) a.2) = true ∨
    a.2 = noted notes (attributeSource a.1) a.2

theorem noted_noteAttributes_text (attributes notes : List (String × String)) (current : String) :
    noted (noteAttributes attributes notes) textSource current =
      noted notes textSource current := by
  induction attributes generalizing notes with
  | nil => rfl
  | cons a rest ih =>
    rw [noteAttributes, List.foldl_cons]
    exact (ih _).trans (noted_noteSource_of_ne (attributeSource_ne a.1) _ _ _)

theorem noted_noteAttributes_of_not_mem (h : name ∉ Entries.keys attributes) (current : String) :
    noted (noteAttributes attributes notes) (attributeSource name) current =
      noted notes (attributeSource name) current := by
  induction attributes generalizing notes with
  | nil => rfl
  | cons a rest ih =>
    rw [Entries.keys, List.map_cons, List.mem_cons, not_or] at h
    rw [noteAttributes, List.foldl_cons]
    exact (ih h.2).trans (noted_noteSource_of_ne (mt attributeSource_inj.1 (Ne.symm h.1)) _ _ _)

/-- Filling keeps the sources. -/
theorem sourcesOf_fill (h : (Entries.keys attributes).Nodup) (model : Value) (scope : Scope) :
    sourcesOf (noteAttributes attributes notes) (attributes.map (fillPair notes model scope)) =
      sourcesOf notes attributes := by
  induction attributes generalizing notes with
  | nil => rfl
  | cons a rest ih =>
    rw [Entries.keys, List.map_cons, List.nodup_cons] at h
    have hstep : noteAttributes (a :: rest) notes = noteAttributes rest
        (noteSource (attributeSource a.1) (noted notes (attributeSource a.1) a.2) notes) := rfl
    have hne : ∀ b ∈ rest, a.1 ≠ b.1 := fun b hb heq => h.1 (heq ▸ List.mem_map_of_mem hb)
    have hhead : noted (noteAttributes (a :: rest) notes) (attributeSource a.1)
        (fillPair notes model scope a).2 = noted notes (attributeSource a.1) a.2 := by
      rw [hstep, noted_noteAttributes_of_not_mem h.1]
      refine noted_noteSource notes ?_
      by_cases happears : Placeholder.appearsIn (noted notes (attributeSource a.1) a.2) = true
      · exact Or.inl happears
      · exact Or.inr (by simp only [fillPair]; rw [if_neg happears])
    have hrest : rest.map (fillPair notes model scope) = rest.map (fillPair
        (noteSource (attributeSource a.1) (noted notes (attributeSource a.1) a.2) notes)
        model scope) :=
      List.map_congr_left fun b hb => (fillPair_noteSource (hne b hb) _ _ _ _).symm
    have htail := @ih (noteSource (attributeSource a.1) (noted notes (attributeSource a.1) a.2)
      notes) h.2
    rw [← hrest, ← hstep] at htail
    rw [List.map_cons, sourcesOf, List.map_cons, ← sourcesOf, htail]
    refine congrArg₂ List.cons (Prod.ext rfl hhead) (List.map_congr_left fun b hb => ?_)
    rw [noted_noteSource_of_ne (mt attributeSource_inj.1 (hne b hb))]

/-- Settled attributes show their filled sources, and stay settled. -/
theorem Settled.fill (h : Settled notes attributes) (model : Value) (scope : Scope) :
    attributes.map (fillPair notes model scope) =
      (sourcesOf notes attributes).map fun a => (a.1, Placeholder.filled a.2 model scope) := by
  rw [sourcesOf, List.map_map]
  refine List.map_congr_left fun a ha => ?_
  simp only [fillPair, Function.comp_apply, Placeholder.filled]
  by_cases happears : Placeholder.appearsIn (noted notes (attributeSource a.1) a.2) = true
  · rw [if_pos happears, if_pos happears]
  · rw [if_neg happears, if_neg happears, ← (h a ha).resolve_left happears]

theorem Settled.after (h : Settled notes attributes) (hnodup : (Entries.keys attributes).Nodup)
    (model : Value) (scope : Scope) :
    Settled (noteAttributes attributes notes) (attributes.map (fillPair notes model scope)) := by
  intro a' ha'
  obtain ⟨a, ha, rfl⟩ := List.mem_map.1 ha'
  have hsources : sourcesOf (noteAttributes attributes notes)
      (attributes.map (fillPair notes model scope)) = sourcesOf notes attributes :=
    sourcesOf_fill hnodup model scope
  rw [sourcesOf, sourcesOf, List.map_map, List.map_inj_left] at hsources
  have hsource := congrArg Prod.snd (hsources a ha)
  simp only [Function.comp_apply] at hsource
  rw [hsource]
  by_cases happears : Placeholder.appearsIn (noted notes (attributeSource a.1) a.2) = true
  · exact Or.inl happears
  · refine Or.inr ?_
    simp only [fillPair]
    rw [if_neg happears]
    exact (h a ha).resolve_left happears

/-- What filling an element does to its attributes and its notes: the attributes show their sources,
the sources stay, and so does the source of the text. -/
theorem Settled.fill_element (h : Settled notes attributes)
    (hnodup : (Entries.keys attributes).Nodup) (source : String) (model : Value) (scope : Scope) :
    attributes.map (fillPair notes model scope) =
      (sourcesOf notes attributes).map (fun a => (a.1, Placeholder.filled a.2 model scope)) ∧
    sourcesOf (noteAttributes attributes (noteSource textSource source notes))
      (attributes.map (fillPair notes model scope)) = sourcesOf notes attributes ∧
    Settled (noteAttributes attributes (noteSource textSource source notes))
      (attributes.map (fillPair notes model scope)) ∧
    ∀ current, Placeholder.appearsIn source = true ∨ noted notes textSource current = source →
      noted (noteAttributes attributes (noteSource textSource source notes)) textSource current =
        source := by
  have hnoted : ∀ name current, noted (noteSource textSource source notes) (attributeSource name)
      current = noted notes (attributeSource name) current := fun name current =>
    noted_noteSource_of_ne (attributeSource_ne name).symm _ _ _
  have hpair : fillPair (noteSource textSource source notes) model scope =
      fillPair notes model scope := by
    funext a
    simp only [fillPair, hnoted]
  have hsources : sourcesOf (noteSource textSource source notes) attributes =
      sourcesOf notes attributes := by
    simp only [sourcesOf, hnoted]
  have hsettled : Settled (noteSource textSource source notes) attributes := fun a ha => by
    rw [hnoted]
    exact h a ha
  have hkept : sourcesOf (noteAttributes attributes (noteSource textSource source notes)) _ = _ :=
    sourcesOf_fill hnodup model scope
  have hafter := hsettled.after hnodup model scope
  rw [hpair] at hkept hafter
  refine ⟨h.fill model scope, hkept.trans hsources, hafter, fun current hcurrent => ?_⟩
  rw [noted_noteAttributes_text]
  exact noted_noteSource notes hcurrent

end Sources

end LiveMarkup
