import LiveMarkup.Proofs.Engines
import LiveMarkup.Proofs.Sealed

/-! Where generated nodes stand. After a rendering, the marked elements outside of directives are
the nodes that expansions gave in it, each run of them right before its anchor and in its order; the
next rendering sweeps away exactly these. -/
namespace LiveMarkup

namespace Document

variable {s : Settings} {d : Document} {p x : NodeId}

/-- The node is inside of no marked element and of no directive. -/
def Lone (s : Settings) (d : Document) (x : NodeId) : Prop :=
  ∀ y, d.Above y x → y ≠ x → d.isGenerated s y = false ∧ d.directive? s y = none

theorem lone_of_child (hlone : d.Lone s p) (hmark : d.isGenerated s p = false)
    (htag : d.directive? s p = none) (h : d.parent? x = some p) : d.Lone s x := by
  intro y hy hne
  rcases (above_iff_of_parent? h).1 hy with rfl | hy
  · exact absurd rfl hne
  · by_cases hyp : y = p
    · rw [hyp]
      exact ⟨hmark, htag⟩
    · exact hlone y hy hyp

/-- A node is an anchor, and a run of sealed nodes stands right before it. -/
structure Anchored (s : Settings) (d : Document) (anchor : NodeId) (run : List NodeId) : Prop where
  lone : d.Lone s anchor
  directive : (d.directive? s anchor).isSome = true
  unmarked : d.isGenerated s anchor = false
  marked : ∀ r ∈ run, d.Lone s r ∧ d.isGenerated s r = true
  below : ∀ r ∈ run, ∀ x, d.Above r x → (d.tagName? x).isSome = true →
    d.isGenerated s x = true ∧ d.directive? s x = none
  row : ∃ p before after, d.children p = before ++ run ++ anchor :: after ∧
    ∀ x ∈ before.getLast?, d.isGenerated s x = false

/-- The marked elements of a document that are not inside of others or of directives are the nodes
that the visits tell of: in one run right before each anchor, and no anchor was left out. -/
structure RunsExact (d : Document) (s : Settings) (visits : List Visit) : Prop where
  anchors : ∀ x, (∃ v ∈ visits, v.anchor = x) ↔
    d.Above .root x ∧ (d.directive? s x).isSome = true ∧ d.Exposed s x
  marked : ∀ x, (∃ v ∈ visits, x ∈ v.nodes) ↔
    d.Above .root x ∧ d.isGenerated s x = true ∧ d.Lone s x
  row : ∀ v ∈ visits, ∃ p before after, d.children p = before ++ v.nodes ++ v.anchor :: after ∧
    ∀ x ∈ before.getLast?, d.isGenerated s x = false
  below : ∀ v ∈ visits, ∀ r ∈ v.nodes, ∀ x, d.Above r x → (d.tagName? x).isSome = true →
    d.isGenerated s x = true ∧ d.directive? s x = none
  nodup : (visits.flatMap fun v => v.nodes ++ [v.anchor]).Nodup

end Document

namespace Shape

variable {s : Settings} {d : Document} {p : Option NodeId} {x : Shape}
  {kids start others : List Shape}

/-- Sealed trees are shown by shapes that are marked throughout. -/
theorem In.sealed (hd : d.Sound) (hx : x.In d p) (h : ∀ t ∈ x.trees, t.Sealed s) : ∀ y ∈ x.ids,
    (d.tagName? y).isSome = true → d.isGenerated s y = true ∧ d.directive? s y = none := by
  induction x generalizing p with
  | mk id kind notes kids ih =>
    have hkids : (∀ t ∈ treesAll kids, t.Sealed s) → ∀ y ∈ idsAll kids,
        (d.tagName? y).isSome = true → d.isGenerated s y = true ∧ d.directive? s y = none := by
      intro htrees y hy
      obtain ⟨c, hc, hcy⟩ := mem_idsAll_iff.1 hy
      refine ih c hc (inAll_iff.1 hx.2 c hc) (fun t ht => htrees t ?_) y hcy
      rw [treesAll_eq_flatMap]
      exact List.mem_flatMap.2 ⟨c, hc, ht⟩
    intro y hy htag
    cases kind with
    | root =>
      rcases List.mem_cons.1 hy with rfl | hbelow
      · rw [Document.tagName?, hx.1] at htag
        cases htag
      · exact hkids h y hbelow htag
    | text content =>
      obtain rfl : kids = [] := List.map_eq_nil_iff.1 (hd.valid hx.1)
      rw [List.mem_singleton.1 hy, Document.tagName?, hx.1] at htag
      cases htag
    | element tag attributes =>
      obtain ⟨hmark, hnone, hinner⟩ := h _ (List.mem_singleton_self _)
      rcases List.mem_cons.1 hy with rfl | hbelow
      · refine ⟨(Document.isGenerated_eq hx).trans ?_, (Document.directive?_eq hx).trans hnone⟩
        rw [isMarked, hmark]
        rfl
      · exact hkids (Tree.sealedAll_iff.1 hinner) y hbelow htag

/-- All anchors among shapes are found with the runs before them, and whatever is not above or
below them is plain. -/
structure Exact (s : Settings) (d : Document) (kids : List Shape) : Prop where
  anchored : ∀ v ∈ anchoredAll s [] kids, d.Anchored s v.1 v.2
  sorted : ((anchoredAll s [] kids).flatMap fun v => v.2 ++ [v.1]).Sublist (idsAll kids)
  rest : ∀ x ∈ idsAll kids, (d.isGenerated s x = false ∧ d.directive? s x = none) ∨
    ∃ v ∈ anchoredAll s [] kids, d.Above v.1 x ∨ ∃ r ∈ v.2, d.Above r x

theorem Exact.append (hx : x.isMarked s = false) (h : Exact s d (start ++ [x]))
    (h' : Exact s d others) : Exact s d (start ++ [x] ++ others) where
  anchored := by
    rw [anchoredAll_append hx]
    exact List.forall_mem_append.2 ⟨h.anchored, h'.anchored⟩
  sorted := by
    rw [anchoredAll_append hx, List.flatMap_append, idsAll_append]
    exact h.sorted.append h'.sorted
  rest y hy := by
    rw [anchoredAll_append hx]
    rw [idsAll_append, List.mem_append] at hy
    rcases hy with hy | hy
    · exact (h.rest y hy).imp_right fun ⟨v, hv, hvy⟩ => ⟨v, List.mem_append_left _ hv, hvy⟩
    · exact (h'.rest y hy).imp_right fun ⟨v, hv, hvy⟩ => ⟨v, List.mem_append_right _ hv, hvy⟩

end Shape

namespace Outline

variable {s : Settings} {tree : TreeId} {cache : Cache} {d : Document} {l : Outline}
  {ls : List Outline} {g : Place} {p : Option NodeId} {group kids : List Shape}

theorem FitsAll.exact_of_forall (h : FitsAll s tree cache ls kids) (hopen : g.Open s)
    (hrow : (g.fill kids).In d p)
    (heach : ∀ l ∈ ls, ∀ (g' : Place) group, g'.id = g.id → g'.Open s → (g'.fill group).In d p →
      l.Fits s tree cache group → Shape.Exact s d group) : Shape.Exact s d kids := by
  induction ls generalizing g kids with
  | nil =>
    obtain rfl : kids = [] := h
    exact ⟨nofun, .slnil, nofun⟩
  | cons l rest ih =>
    obtain ⟨group, others, rfl, hl, hrest⟩ := h
    have hfirst : Shape.Exact s d group :=
      heach l (List.mem_cons_self ..) (g.follow others) group rfl (hopen.follow others)
        (by rwa [Place.fill_follow]) hl
    obtain ⟨start, x, rfl, hx⟩ := hl.ends
    refine hfirst.append hx (ih hrest (hopen.precede hx) (by rwa [Place.fill_precede]) ?_)
    exact fun m hm => heach m (List.mem_cons_of_mem _ hm)

/-- An anchor with the run before it. -/
theorem exact_anchor {id : NodeId} {tag : String} {attributes notes : List (String × String)}
    {shapes : List Shape} (hd : d.Sound) (hopen : g.Open s)
    (hrow : (g.fill (shapes ++ [⟨id, .element tag attributes, notes, kids⟩])).In d p)
    (hlone : ∀ x, d.parent? x = some g.id → d.Lone s x)
    (htag : (s.directive? tag).isSome = true)
    (hmark : Entries.get? s.generatedAttribute attributes ≠ some "true")
    (hmarked : ∀ x ∈ shapes, x.isMarked s = true)
    (hsealed : ∀ t ∈ Shape.treesAll shapes, t.Sealed s) :
    Shape.Exact s d (shapes ++ [⟨id, .element tag attributes, notes, kids⟩]) := by
  obtain ⟨hshapes, hanchor, -⟩ := Shape.inAll_append.1 (Place.inAll_of_fill hrow)
  have hin := Shape.inAll_iff.1 hshapes
  have hfound : Shape.anchoredAll s [] (shapes ++ [⟨id, .element tag attributes, notes, kids⟩]) =
      [(id, shapes.map Shape.id)] := Shape.anchoredAll_anchor hmarked hmark htag
  refine ⟨?_, ?_, fun x hx => ?_⟩
  · rw [hfound]
    refine List.forall_mem_singleton.2 ⟨hlone id hanchor.parent?, ?_,
      Document.isGenerated_eq_false hanchor hmark, ?_, ?_, ?_⟩
    · rw [Document.directive?_eq hanchor]
      exact htag
    · refine List.forall_mem_map.2 fun r hr => ⟨hlone r.id (hin r hr).parent?, ?_⟩
      exact (Document.isGenerated_eq (hin r hr)).trans (hmarked r hr)
    · refine List.forall_mem_map.2 fun r hr x hx => ?_
      refine (hin r hr).sealed hd (fun t ht => hsealed t ?_) x ((hd.mem_ids_iff (hin r hr)).2 hx)
      rw [Shape.treesAll_eq_flatMap]
      exact List.mem_flatMap.2 ⟨r, hr, ht⟩
    · refine ⟨g.id, g.before.map Shape.id, g.after.map Shape.id, ?_, fun x hx => ?_⟩
      · rw [Document.children_of_node? hrow.1]
        simp only [List.map_append, List.map_cons, List.append_assoc, Shape.id_mk, List.cons_append,
          List.nil_append]
      · rw [List.getLast?_map, Option.mem_map] at hx
        obtain ⟨y, hy, rfl⟩ := hx
        have hyin := Shape.inAll_iff.1 hrow.2 y (by simp [List.mem_of_mem_getLast? hy])
        exact (Document.isGenerated_eq hyin).trans (hopen.last y hy)
  · rw [hfound, Shape.idsAll_append]
    simp only [List.flatMap_cons, List.flatMap_nil, List.append_nil, Shape.idsAll, Shape.ids]
    exact (Shape.map_id_sublist shapes).append ((List.nil_sublist _).cons_cons id)
  · rw [hfound]
    refine Or.inr ⟨_, List.mem_singleton_self _, ?_⟩
    rw [Shape.idsAll_append, List.mem_append] at hx
    rcases hx with hx | hx
    · obtain ⟨r, hr, hrx⟩ := Shape.mem_idsAll_iff.1 hx
      exact Or.inr ⟨r.id, List.mem_map_of_mem hr, (hd.mem_ids_iff (hin r hr)).1 hrx⟩
    · rw [Shape.idsAll_singleton] at hx
      exact Or.inl ((hd.mem_ids_iff hanchor).1 hx)

theorem Fits.exact (hd : d.Sound) (h : l.Fits s tree cache group) (hsealed : l.Sealed s)
    (hopen : g.Open s) (hrow : (g.fill group).In d p)
    (hlone : ∀ x, d.parent? x = some g.id → d.Lone s x) : Shape.Exact s d group := by
  have hin := Place.inAll_of_fill hrow
  induction l generalizing g p group with
  | text content =>
    obtain ⟨id, notes, rfl⟩ := h
    refine ⟨nofun, List.nil_sublist _, fun x hx => Or.inl ?_⟩
    rw [List.mem_singleton.1 hx, Document.directive?, Document.tagName?, hin.1.1]
    exact ⟨Document.isGenerated_eq hin.1, rfl⟩
  | plain tag attributes sources source inner ih =>
    obtain ⟨id, notes, kids, rfl, hnone, hunmarked, -, -, -, hinner⟩ := h
    have hmark : d.isGenerated s id = false :=
      Document.isGenerated_eq_false hin.1 (by simp [hunmarked])
    have htag : d.directive? s id = none := (Document.directive?_eq hin.1).trans hnone
    have hwhole : ((Place.whole id (.element tag attributes) notes).fill kids).In d
        (some g.id) := by
      rw [Place.fill_whole]
      exact hin.1
    have hkids : Shape.Exact s d kids := by
      refine hinner.exact_of_forall (Place.open_whole fun _ h => by cases h) hwhole
        fun m hm g' group' hid hopen' hrow' hm' => ih m hm hm' (sealedAll_iff.1 hsealed m hm) hopen'
          hrow' (fun x hx => ?_) (Place.inAll_of_fill hrow')
      rw [hid] at hx
      exact Document.lone_of_child (hlone id hin.1.parent?) hmark htag hx
    have hids : Shape.idsAll [⟨id, .element tag attributes, notes, kids⟩] =
        id :: Shape.idsAll kids := Shape.idsAll_singleton _
    have hfound : Shape.anchoredAll s [] [⟨id, .element tag attributes, notes, kids⟩] = _ :=
      Shape.anchoredAll_plain hunmarked hnone
    refine ⟨hfound ▸ hkids.anchored, ?_, fun x hx => ?_⟩
    · rw [hfound, hids]
      exact hkids.sorted.cons id
    · rw [hids, List.mem_cons] at hx
      rw [hfound]
      rcases hx with rfl | hx
      · exact Or.inl ⟨hmark, htag⟩
      · exact hkids.rest x hx
  | anchor tag attributes template inside run =>
    obtain ⟨id, notes, kids, shapes, rfl, htag, hmark, -, rfl, hmarked, -⟩ := h
    exact exact_anchor hd hopen hrow hlone htag hmark hmarked hsealed.2

end Outline

theorem Document.tagName?_of_directive? {s : Settings} {d : Document} {x : NodeId}
    (h : (d.directive? s x).isSome = true) : (d.tagName? x).isSome = true := by
  rw [directive?, Option.isSome_bind, Option.any_eq_true] at h
  exact Option.isSome_iff_exists.2 (h.imp fun _ h => h.1)

namespace Document

variable {s : Settings} {d : Document} {visits : List Visit}

/-- Visits to all anchors, each of which gave the run before its anchor, tell of all that there
is. -/
theorem runsExact_of_anchored (hanchored : ∀ v ∈ visits, d.Anchored s v.anchor v.nodes)
    (hroot : ∀ v ∈ visits, ∀ x ∈ v.nodes ++ [v.anchor], d.Above .root x)
    (hrest : ∀ x, d.Above .root x → (d.isGenerated s x = false ∧ d.directive? s x = none) ∨
      ∃ v ∈ visits, d.Above v.anchor x ∨ ∃ r ∈ v.nodes, d.Above r x)
    (hnodup : (visits.flatMap fun v => v.nodes ++ [v.anchor]).Nodup) : d.RunsExact s visits where
  anchors x := by
    constructor
    · rintro ⟨v, hv, rfl⟩
      exact ⟨hroot v hv _ (by simp), (hanchored v hv).directive,
        fun y hy hne => ((hanchored v hv).lone y hy hne).2⟩
    · rintro ⟨hx, hdirective, hexposed⟩
      obtain ⟨-, hnone⟩ | ⟨v, hv, habove | ⟨r, hr, habove⟩⟩ := hrest x hx
      · rw [hnone] at hdirective
        cases hdirective
      · refine ⟨v, hv, by_contra fun hne => ?_⟩
        have hsome := (hanchored v hv).directive
        rw [hexposed _ habove hne] at hsome
        cases hsome
      · have htag := tagName?_of_directive? hdirective
        rw [((hanchored v hv).below r hr x habove htag).2] at hdirective
        cases hdirective
  marked x := by
    constructor
    · rintro ⟨v, hv, hx⟩
      obtain ⟨hlone, hmark⟩ := (hanchored v hv).marked x hx
      exact ⟨hroot v hv x (by simp [hx]), hmark, hlone⟩
    · rintro ⟨hx, hmark, hlone⟩
      obtain ⟨hnone, -⟩ | ⟨v, hv, habove | ⟨r, hr, habove⟩⟩ := hrest x hx
      · cases hmark.symm.trans hnone
      · by_cases hne : v.anchor = x
        · cases (hne ▸ hmark).symm.trans (hanchored v hv).unmarked
        · have hsome := (hanchored v hv).directive
          rw [(hlone _ habove hne).2] at hsome
          cases hsome
      · refine ⟨v, hv, ?_⟩
        by_cases hne : r = x
        · exact hne ▸ hr
        · cases (hlone r habove hne).1.symm.trans ((hanchored v hv).marked r hr).2
  row v hv := (hanchored v hv).row
  below v hv := (hanchored v hv).below
  nodup := hnodup

end Document

namespace Stage.Shows

variable {stage : Stage} {notes : List (String × String)} {ls : List Outline} {kids : List Shape}
  {visits : List Visit}

theorem exact (h : stage.Shows (.whole .root .root notes) none ls kids)
    (hsealed : Outline.SealedAll stage.engine.settings ls) :
    Shape.Exact stage.engine.settings stage.document kids := by
  have hroot := h.row
  rw [Place.fill_whole] at hroot
  have hlone : ∀ x, stage.document.parent? x = some .root →
      stage.document.Lone stage.engine.settings x := fun x hx => by
    refine Document.lone_of_child (fun y hy hne => ?_) (Document.isGenerated_eq hroot)
      (Document.plain_root h.document).directive hx
    exact absurd ((Document.above_iff_of_parent?_eq_none h.document.parent?_root).1 hy) hne
  exact h.fits.exact_of_forall (Place.open_whole fun _ h => by cases h) h.row
    fun m hm g group hid hopen hrow hm' =>
      hm'.exact h.document (Outline.sealedAll_iff.1 hsealed m hm) hopen hrow (hid ▸ hlone)

/-- Outlines that are shown with sealed runs tell where the marked elements are. -/
theorem runsExact (h : stage.Shows (.whole .root .root notes) none ls kids)
    (hsealed : Outline.SealedAll stage.engine.settings ls)
    (htell : visits.map (fun v => (v.anchor, v.nodes)) =
      Shape.anchoredAll stage.engine.settings [] kids) :
    stage.document.RunsExact stage.engine.settings visits := by
  have hexact := h.exact hsealed
  have hroot := h.row
  rw [Place.fill_whole] at hroot
  have hids := fun x => h.document.mem_ids_iff (x := x) hroot
  have hvisits : ∀ v ∈ visits, (v.anchor, v.nodes) ∈
      Shape.anchoredAll stage.engine.settings [] kids := fun v hv =>
    htell ▸ List.mem_map_of_mem hv
  refine Document.runsExact_of_anchored (fun v hv => hexact.anchored _ (hvisits v hv))
    (fun v hv x hx => ?_) (fun x hx => ?_) ?_
  · refine (hids x).1 (List.mem_cons_of_mem _ (hexact.sorted.subset ?_))
    exact List.mem_flatMap.2 ⟨_, hvisits v hv, hx⟩
  · rcases List.mem_cons.1 ((hids x).2 hx) with rfl | hbelow
    · exact Or.inl ⟨Document.isGenerated_eq hroot, (Document.plain_root h.document).directive⟩
    · refine (hexact.rest x hbelow).imp_right fun ⟨w, hw, hwx⟩ => ?_
      rw [← htell] at hw
      obtain ⟨v, hv, rfl⟩ := List.mem_map.1 hw
      exact ⟨v, hv, hwx⟩
  · have hflat : (visits.flatMap fun v => v.nodes ++ [v.anchor]) =
        (Shape.anchoredAll stage.engine.settings [] kids).flatMap fun w => w.2 ++ [w.1] := by
      rw [← htell, List.flatMap_map]
    rw [hflat]
    exact (List.nodup_cons.1 (h.document.nodup_ids hroot)).2.sublist hexact.sorted

end Stage.Shows

namespace Pass

/-- Renders a document against models one after another, and gives of each rendering what it
counted and the document that it left. -/
def countEach : List (Value × Scope) → Pass (List (Counts × Document))
  | [] => pure []
  | (model, scope) :: rest => do
    let counts ← render .root model scope
    let stage ← get
    let others ← countEach rest
    pure ((counts, stage.document) :: others)

/-- The same, telling of the visits of each rendering. -/
def visitEach : List (Value × Scope) → Pass (List (List Visit × Document))
  | [] => pure []
  | (model, scope) :: rest => do
    let visits ← visits .root model scope
    let stage ← get
    let others ← visitEach rest
    pure ((visits, stage.document) :: others)

theorem countEach_eq_map (history : List (Value × Scope)) :
    countEach history = List.map (fun r => (Visit.total r.1, r.2)) <$> visitEach history := by
  induction history with
  | nil => simp [countEach, visitEach]
  | cons m rest ih => simp [countEach, visitEach, render_eq_map, ih]

end Pass

/-- How many trees stand in the runs before anchors. -/
def Outline.generated (ls : List Outline) : Nat := (runsAll ls).flatten.length

mutual

theorem Outline.runs_ofTree (s : Settings) : ∀ t : Tree, ∀ run ∈ (ofTree s t).runs, run = []
  | .text _ => nofun
  | .element tag attributes children => by
    rw [ofTree]
    split
    · exact List.forall_mem_singleton.2 rfl
    · exact runsAll_ofTrees s children

theorem Outline.runsAll_ofTrees (s : Settings) : ∀ trees : List Tree,
    ∀ run ∈ runsAll (ofTrees s trees), run = []
  | [] => nofun
  | t :: rest => List.forall_mem_append.2 ⟨runs_ofTree s t, runsAll_ofTrees s rest⟩

end

/-- Nothing was generated for what was authored. -/
theorem Outline.generated_ofTrees (s : Settings) (trees : List Tree) :
    generated (ofTrees s trees) = 0 := by
  rw [generated, List.length_eq_zero_iff, List.flatten_eq_nil_iff]
  exact runsAll_ofTrees s trees

section

variable {s : Settings} {visits : List Visit} {ls ms : List Outline} {kids : List Shape}

theorem Visit.Tell.total_swept (h : Visit.Tell s visits ls kids) :
    (Visit.total visits).swept = Outline.generated ls :=
  Visit.total_swept h.swept

theorem Visit.Tell.total_generated {tree : TreeId} {cache : Cache}
    (h : Visit.Tell s visits ls kids) (hfits : Outline.FitsAll s tree cache ms kids) :
    (Visit.total visits).generated = Outline.generated ms := by
  have hlengths := congrArg (List.map fun w => w.2.length) h.runs
  rw [List.map_map, hfits.map_length] at hlengths
  exact Visit.total_generated hlengths

end

namespace Pass

theorem runs_visitEach {s : Settings} {stage : Stage} {ls : List Outline} (h : stage.ShowsAll ls)
    (hsettings : stage.engine.settings = s) (hsealed : Outline.SealedAll s ls)
    (hplain : stage.engine.registry.Plain s) (history : List (Value × Scope)) :
    Runs (visitEach history) stage fun log _ => (∀ r ∈ log, r.2.RunsExact s r.1) ∧
      log.map (fun r => (Visit.total r.1).swept) =
        (Outline.generated ls :: log.map fun r => (Visit.total r.1).generated).dropLast := by
  induction history generalizing stage ls with
  | nil => exact .pure ⟨nofun, rfl⟩
  | cons m rest ih =>
    refine (runs_visits h m.1 m.2).bind ?_
    rintro visits stage₁ ⟨notes, kids, hshows, hregistry, hsettings₁, htell⟩
    rw [hsettings] at hshows hregistry hsettings₁ htell
    obtain ⟨hsealed₁, hplain₁⟩ := Outline.sealedAll_renderAll m.1 m.2 hsealed hplain
    rw [← hregistry] at hplain₁
    have hexact : stage₁.document.RunsExact s visits := by
      have hall := hshows.runsExact (by rwa [hsettings₁]) (by rw [hsettings₁]; exact htell.runs)
      rwa [hsettings₁] at hall
    refine .get ((ih ⟨notes, kids, hshows⟩ hsettings₁ hsealed₁ hplain₁).bind ?_)
    rintro log stage₂ ⟨hlog, hswept⟩
    refine .pure ⟨List.forall_mem_cons.2 ⟨hexact, hlog⟩, ?_⟩
    have hfits := hshows.fits
    rw [hsettings₁] at hfits
    rw [List.map_cons, List.map_cons, hswept, htell.total_swept, htell.total_generated hfits]
    rfl

/-- A document that was read is rendered any number of times with one engine. After each rendering
its marked elements are exactly the nodes that expansions gave in it, before their anchors; each
rendering sweeps as many nodes as the one before generated, the first one none. -/
theorem generated_runs_exact {tree : TreeId} {text : String} {d : Document} {s : Settings}
    {engine : Engine} (hread : Document.read tree text = .ok d)
    (hcreate : Engine.create s = .ok engine) (hmarks : Tree.UnmarkedAll s d.content)
    (history : List (Value × Scope)) :
    (∃ log stage, visitEach history ⟨engine, d⟩ = .ok log stage ∧
      countEach history ⟨engine, d⟩ = .ok (log.map fun r => (Visit.total r.1, r.2)) stage ∧
      (∀ r ∈ log, r.2.RunsExact s r.1) ∧
      log.map (fun r => (Visit.total r.1).swept) =
        (0 :: log.map fun r => (Visit.total r.1).generated).dropLast) ∨
    ∃ stage, countEach history ⟨engine, d⟩ = .error .outOfSlots stage ∧
      ¬ stage.document.HasRoom := by
  have hshows := Stage.showsAll_of_read hread hcreate hmarks
  obtain ⟨-, rfl⟩ := Engine.create_eq_ok hcreate
  have hrun := runs_visitEach hshows rfl (Outline.sealedAll_ofTrees s d.content) nofun history
  rw [Outline.generated_ofTrees] at hrun
  obtain ⟨log, stage, hok, hlog, hswept⟩ | ⟨stage, herror, hfull⟩ := hrun.cases
  · refine Or.inl ⟨log, stage, hok, ?_, hlog, hswept⟩
    rw [countEach_eq_map]
    exact bind_eq_of_ok hok
  · refine Or.inr ⟨stage, ?_, hfull⟩
    rw [countEach_eq_map]
    exact bind_eq_of_error herror

/-- Two anchors side by side, below a plain element whose text is placed anew: what the first
rendering generates, the second one sweeps away. -/
theorem generated_runs_exact_neighbours :
    let first : Value := .map [("xs", .list [.string "1", .string "2"]), ("y", .bool true)]
    let second : Value := .map [("xs", .list [.string "3"]), ("z", .string "4")]
    let history : List (Value × Scope) := [(first, .empty), (second, .empty)]
    ∃ d, Document.read ⟨0⟩ ("<p><each of=\"xs\" as=\"x\"><b>{{x}}</b></each>" ++
        "<if test=\"y\"><i/></if>{{z}}</p>") = .ok d ∧
      Engine.create .default = .ok (.ofSettings .default) ∧ Tree.UnmarkedAll .default d.content ∧
      ∃ log stage, visitEach history ⟨.ofSettings .default, d⟩ = .ok log stage ∧
        (∀ r ∈ log, r.2.RunsExact .default r.1) ∧
        log.map (fun r => (Visit.total r.1).swept) = [0, 3] ∧
        log.map (fun r => (Visit.total r.1).generated) = [3, 1] := by
  intro first second history
  have hrun : (Document.read ⟨0⟩ ("<p><each of=\"xs\" as=\"x\"><b>{{x}}</b></each>" ++
        "<if test=\"y\"><i/></if>{{z}}</p>")).toOption.any (fun d =>
      decide (Tree.UnmarkedAll .default d.content) &&
        Succeeds (countEach history) ⟨.ofSettings .default, d⟩ fun log _ =>
          log.map (fun r => (r.1.swept, r.1.generated)) == [(0, 3), (3, 1)]) = true := by
    decide +kernel
  obtain ⟨d, hread, hrun⟩ := exists_of_toOption_any hrun
  rw [Bool.and_eq_true] at hrun
  obtain ⟨counts, stage, hcounts, hlist⟩ := exists_of_succeeds hrun.2
  have hcreate : Engine.create .default = .ok (.ofSettings .default) := rfl
  have hmarks := of_decide_eq_true hrun.1
  refine ⟨d, hread, hcreate, hmarks, ?_⟩
  obtain ⟨log, stage', hlog, hcounts', hexact, -⟩ | ⟨stage', herror, -⟩ :=
    generated_runs_exact hread hcreate hmarks history
  · cases hcounts.symm.trans hcounts'
    rw [beq_iff_eq, List.map_map] at hlist
    have hswept := congrArg (List.map Prod.fst) hlist
    have hgenerated := congrArg (List.map Prod.snd) hlist
    rw [List.map_map] at hswept hgenerated
    exact ⟨log, stage, hlog, hexact, hswept, hgenerated⟩
  · cases hcounts.symm.trans herror

end Pass
end LiveMarkup
