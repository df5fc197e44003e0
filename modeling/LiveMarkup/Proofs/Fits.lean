import LiveMarkup.Proofs.Expansion
import LiveMarkup.Proofs.Outline
import LiveMarkup.Render

/-! How outlines fit documents. A row of outlines fits a row of shapes: an anchor takes the shapes
of its run and its own, everything else takes one. What the cache holds for an anchor is what the
anchor is expanded from; where it holds nothing, that is what compiling the anchor gives. -/
namespace LiveMarkup

namespace Shape

/-- Whether the node of a shape carries the mark of generated ones. -/
def isMarked (s : Settings) : Shape → Bool
  | ⟨_, .element _ attributes, _, _⟩ =>
    Entries.get? s.generatedAttribute attributes == some "true"
  | _ => false

end Shape

/-- The template that is used for an element: the cached one, or else the compiled one. -/
def Cache.Gives (cache : Cache) (s : Settings) (tree : TreeId) (id : NodeId) (element : Tree)
    (template : Template) : Prop :=
  Entries.get? (tree, id) cache.entries = some template ∨
    Entries.get? (tree, id) cache.entries = none ∧
      (Template.compile s element).head? = some template

namespace Outline

mutual

/-- An outline fits a group of shapes. -/
def Fits (s : Settings) (tree : TreeId) (cache : Cache) : Outline → List Shape → Prop
  | text content, group => ∃ id notes, group = [⟨id, .text content, notes, []⟩]
  | plain tag attributes sources source inner, group => ∃ id notes kids,
    group = [⟨id, .element tag attributes, notes, kids⟩] ∧
    s.directive? tag = none ∧ Entries.get? s.generatedAttribute attributes = none ∧
    sourcesOf notes attributes = sources ∧ Settled notes attributes ∧
    noted notes textSource (Tree.directText (Shape.treesAll kids)) = source ∧
    FitsAll s tree cache inner kids
  | anchor tag attributes template inside run, group => ∃ id notes kids shapes,
    group = shapes ++ [⟨id, .element tag attributes, notes, kids⟩] ∧
    (s.directive? tag).isSome = true ∧
    Entries.get? s.generatedAttribute attributes ≠ some "true" ∧
    Shape.treesAll kids = inside ∧ Shape.treesAll shapes = run ∧
    (∀ x ∈ shapes, x.isMarked s = true) ∧ template.Valid ∧
    cache.Gives s tree id (.element tag attributes inside) template

def FitsAll (s : Settings) (tree : TreeId) (cache : Cache) : List Outline → List Shape → Prop
  | [], kids => kids = []
  | l :: rest, kids => ∃ group others,
    kids = group ++ others ∧ l.Fits s tree cache group ∧ FitsAll s tree cache rest others

end

variable {s : Settings} {tree : TreeId} {cache cache' : Cache} {l : Outline} {ls ms : List Outline}
  {group kids kids' : List Shape}

theorem fitsAll_append : FitsAll s tree cache (ls ++ ms) kids ↔ ∃ left right,
    kids = left ++ right ∧ FitsAll s tree cache ls left ∧ FitsAll s tree cache ms right := by
  induction ls generalizing kids with
  | nil =>
    simp only [List.nil_append, FitsAll]
    constructor
    · exact fun h => ⟨[], kids, rfl, rfl, h⟩
    · rintro ⟨left, right, rfl, rfl, h⟩
      exact h
  | cons l ls ih =>
    simp only [List.cons_append, FitsAll]
    constructor
    · rintro ⟨group, others, rfl, hl, h⟩
      obtain ⟨left, right, rfl, hls, hms⟩ := ih.1 h
      exact ⟨group ++ left, right, (List.append_assoc ..).symm, ⟨group, left, rfl, hl, hls⟩, hms⟩
    · rintro ⟨left, right, rfl, ⟨group, others, rfl, hl, hls⟩, hms⟩
      exact ⟨group, others ++ right, List.append_assoc .., hl, ih.2 ⟨others, right, rfl, hls, hms⟩⟩

theorem fitsAll_singleton : FitsAll s tree cache [l] kids ↔ l.Fits s tree cache kids := by
  simp only [FitsAll]
  constructor
  · rintro ⟨group, others, rfl, hl, rfl⟩
    rwa [List.append_nil]
  · exact fun h => ⟨kids, [], (List.append_nil _).symm, h, rfl⟩

/-- What holds of each outline with its group holds of the row. -/
theorem FitsAll.of_forall {s' : Settings} {tree' : TreeId} (h : FitsAll s tree cache ls kids)
    (heach : ∀ l ∈ ls, ∀ group, group ⊆ kids → l.Fits s tree cache group →
      l.Fits s' tree' cache' group) : FitsAll s' tree' cache' ls kids := by
  induction ls generalizing kids with
  | nil => exact h
  | cons l rest ih =>
    obtain ⟨group, others, rfl, hl, hrest⟩ := h
    refine ⟨group, others, rfl,
      heach l (List.mem_cons_self ..) group (List.subset_append_left ..) hl, ?_⟩
    exact ih hrest fun m hm group' hsub =>
      heach m (List.mem_cons_of_mem _ hm) group'
        (List.Subset.trans hsub (List.subset_append_right ..))

/-- Only the entries of the nodes at hand matter. -/
theorem Fits.congr_cache (h : l.Fits s tree cache group)
    (hcache : ∀ x ∈ Shape.idsAll group,
      Entries.get? (tree, x) cache'.entries = Entries.get? (tree, x) cache.entries) :
    l.Fits s tree cache' group := by
  induction l generalizing group with
  | text content => exact h
  | plain tag attributes sources source inner ih =>
    obtain ⟨id, notes, kids, rfl, htag, hmark, hsources, hsettled, hsource, hinner⟩ := h
    refine ⟨id, notes, kids, rfl, htag, hmark, hsources, hsettled, hsource, ?_⟩
    refine hinner.of_forall fun m hm group hsub hfits => ih m hm hfits fun x hx => hcache x ?_
    obtain ⟨c, hc, hx⟩ := Shape.mem_idsAll_iff.1 hx
    have hmem : x ∈ Shape.idsAll kids := Shape.mem_idsAll_iff.2 ⟨c, hsub hc, hx⟩
    simp [Shape.idsAll, Shape.ids, hmem]
  | anchor tag attributes template inside run =>
    obtain ⟨id, notes, kids, shapes, rfl, htag, hmark, hinside, hrun, hmarked, hvalid, hgives⟩ := h
    refine ⟨id, notes, kids, shapes, rfl, htag, hmark, hinside, hrun, hmarked, hvalid, ?_⟩
    rwa [Cache.Gives, hcache id (by simp [Shape.idsAll, Shape.ids])]

theorem FitsAll.congr_cache (h : FitsAll s tree cache ls kids)
    (hcache : ∀ x ∈ Shape.idsAll kids,
      Entries.get? (tree, x) cache'.entries = Entries.get? (tree, x) cache.entries) :
    FitsAll s tree cache' ls kids :=
  h.of_forall fun _ _ _ hsub hl => hl.congr_cache fun x hx => by
    obtain ⟨c, hc, hx⟩ := Shape.mem_idsAll_iff.1 hx
    exact hcache x (Shape.mem_idsAll_iff.2 ⟨c, hsub hc, hx⟩)

theorem FitsAll.treesAll_of_forall (h : FitsAll s tree cache ls kids)
    (heach : ∀ l ∈ ls, ∀ group, l.Fits s tree cache group → Shape.treesAll group = l.trees) :
    Shape.treesAll kids = treesAll ls := by
  induction ls generalizing kids with
  | nil =>
    obtain rfl : kids = [] := h
    rfl
  | cons l rest ih =>
    obtain ⟨group, others, rfl, hl, hrest⟩ := h
    rw [Shape.treesAll_append, heach l (List.mem_cons_self ..) group hl,
      ih hrest fun m hm => heach m (List.mem_cons_of_mem _ hm), treesAll]

theorem Fits.trees_eq (h : l.Fits s tree cache group) : Shape.treesAll group = l.trees := by
  induction l generalizing group with
  | text content =>
    obtain ⟨id, notes, rfl⟩ := h
    rfl
  | plain tag attributes sources source inner ih =>
    obtain ⟨id, notes, kids, rfl, -, -, -, -, -, hinner⟩ := h
    have hkids := hinner.treesAll_of_forall fun m hm group => ih m hm
    simp only [Shape.treesAll, Shape.trees, trees, hkids, List.append_nil]
  | anchor tag attributes template inside run =>
    obtain ⟨id, notes, kids, shapes, rfl, -, -, rfl, rfl, -⟩ := h
    simp [Shape.treesAll, Shape.trees, trees]

/-- Outlines show the same as the shapes that they fit. -/
theorem FitsAll.treesAll_eq (h : FitsAll s tree cache ls kids) :
    Shape.treesAll kids = treesAll ls :=
  h.treesAll_of_forall fun _ _ _ => Fits.trees_eq

theorem FitsAll.depthAll_le_of_forall (h : FitsAll s tree cache ls kids)
    (heach : ∀ l ∈ ls, ∀ group, l.Fits s tree cache group → l.depth ≤ (Shape.idsAll group).length) :
    depthAll ls ≤ (Shape.idsAll kids).length := by
  induction ls generalizing kids with
  | nil => exact Nat.zero_le _
  | cons l rest ih =>
    obtain ⟨group, others, rfl, hl, hrest⟩ := h
    have hhead := heach l (List.mem_cons_self ..) group hl
    have htail := ih hrest fun m hm => heach m (List.mem_cons_of_mem _ hm)
    rw [depthAll, Shape.idsAll_append, List.length_append]
    omega

theorem Fits.depth_le (h : l.Fits s tree cache group) : l.depth ≤ (Shape.idsAll group).length := by
  induction l generalizing group with
  | text content => exact Nat.zero_le _
  | plain tag attributes sources source inner ih =>
    obtain ⟨id, notes, kids, rfl, -, -, -, -, -, hinner⟩ := h
    have hkids := hinner.depthAll_le_of_forall fun m hm group => ih m hm
    rw [depth, Shape.idsAll, Shape.ids, List.length_append, List.length_cons]
    omega
  | anchor tag attributes template inside run => exact Nat.zero_le _

/-- The nodes below a node are more than its outlines are deep. -/
theorem FitsAll.depthAll_le (h : FitsAll s tree cache ls kids) :
    depthAll ls ≤ (Shape.idsAll kids).length :=
  h.depthAll_le_of_forall fun _ _ _ => Fits.depth_le

/-- The last shape of a group is its own and carries no mark. -/
theorem Fits.ends (h : l.Fits s tree cache group) :
    ∃ start x, group = start ++ [x] ∧ x.isMarked s = false := by
  cases l with
  | text content =>
    obtain ⟨id, notes, rfl⟩ := h
    exact ⟨[], _, rfl, rfl⟩
  | plain tag attributes sources source inner =>
    obtain ⟨id, notes, kids, rfl, -, hmark, -⟩ := h
    refine ⟨[], _, rfl, ?_⟩
    rw [Shape.isMarked, hmark]
    rfl
  | anchor tag attributes template inside run =>
    obtain ⟨id, notes, kids, shapes, rfl, -, hmark, -⟩ := h
    refine ⟨shapes, _, rfl, ?_⟩
    rw [Shape.isMarked]
    exact beq_false_of_ne hmark

/-- Marked shapes are elements. -/
theorem trees_content?_of_isMarked {x : Shape} (h : x.isMarked s = true) :
    x.trees.filterMap Tree.content? = [] := by
  obtain ⟨id, kind, notes, kids⟩ := x
  cases kind with
  | root => cases h
  | element tag attributes => rfl
  | text content => cases h

theorem Fits.contents (h : l.Fits s tree cache group) :
    (Shape.treesAll group).filterMap Tree.content? = l.content?.toList := by
  cases l with
  | text content =>
    obtain ⟨id, notes, rfl⟩ := h
    rfl
  | plain tag attributes sources source inner =>
    obtain ⟨id, notes, kids, rfl, -⟩ := h
    rfl
  | anchor tag attributes template inside run =>
    obtain ⟨id, notes, kids, shapes, rfl, -, -, -, -, hmarked, -⟩ := h
    rw [Shape.treesAll_append, List.filterMap_append, Shape.treesAll_eq_flatMap,
      List.filterMap_flatMap, List.flatMap_eq_nil_iff.2 fun x hx =>
        trees_content?_of_isMarked (hmarked x hx)]
    rfl

/-- A row of shapes has the texts of the row of outlines that it is fitted by. -/
theorem FitsAll.contents (h : FitsAll s tree cache ls kids) :
    (Shape.treesAll kids).filterMap Tree.content? = ls.filterMap content? := by
  induction ls generalizing kids with
  | nil =>
    obtain rfl : kids = [] := h
    rfl
  | cons l rest ih =>
    obtain ⟨group, others, rfl, hl, hrest⟩ := h
    rw [Shape.treesAll_append, List.filterMap_append, hl.contents, ih hrest, List.filterMap_cons]
    cases l.content? <;> rfl

theorem FitsAll.directText_eq {s' : Settings} {tree' : TreeId} (h : FitsAll s tree cache ls kids)
    (h' : FitsAll s' tree' cache' ms kids')
    (hcontents : ls.filterMap content? = ms.filterMap content?) :
    Tree.directText (Shape.treesAll kids) = Tree.directText (Shape.treesAll kids') := by
  rw [Tree.directText, Tree.directText, h.contents, h'.contents, hcontents]

theorem Fits.isText (h : l.Fits s tree cache group) : ∀ x ∈ group, x.isText = l.isText := by
  cases l with
  | text content =>
    obtain ⟨id, notes, rfl⟩ := h
    exact List.forall_mem_singleton.2 rfl
  | plain tag attributes sources source inner =>
    obtain ⟨id, notes, kids, rfl, -⟩ := h
    exact List.forall_mem_singleton.2 rfl
  | anchor tag attributes template inside run =>
    obtain ⟨id, notes, kids, shapes, rfl, -, -, -, -, hmarked, -⟩ := h
    intro x hx
    rcases List.mem_append.1 hx with hx | hx
    · obtain ⟨xid, kind, xnotes, xkids⟩ := x
      have hmark := hmarked _ hx
      cases kind with
      | root => cases hmark
      | element tag attributes => rfl
      | text content => cases hmark
    · rw [List.mem_singleton.1 hx]
      rfl

theorem Fits.eq_singleton (h : l.Fits s tree cache group) (hl : l.isText = true) :
    ∃ x, group = [x] ∧ x.isText = true := by
  obtain ⟨content, rfl⟩ := Outline.exists_of_isText hl
  obtain ⟨id, notes, rfl⟩ := h
  exact ⟨_, rfl, rfl⟩

theorem FitsAll.isText {b : Bool} (h : FitsAll s tree cache ls kids)
    (hls : ∀ l ∈ ls, l.isText = b) : ∀ x ∈ kids, x.isText = b := by
  induction ls generalizing kids with
  | nil =>
    obtain rfl : kids = [] := h
    exact fun x hx => absurd hx List.not_mem_nil
  | cons l rest ih =>
    obtain ⟨group, others, rfl, hl, hrest⟩ := h
    rw [List.forall_mem_cons] at hls
    intro x hx
    rcases List.mem_append.1 hx with hx | hx
    · rw [hl.isText x hx, hls.1]
    · exact ih hrest hls.2 x hx

theorem FitsAll.filter (h : FitsAll s tree cache ls kids) :
    FitsAll s tree cache (ls.filter (!·.isText)) (kids.filter (!·.isText)) := by
  induction ls generalizing kids with
  | nil =>
    obtain rfl : kids = [] := h
    rfl
  | cons l rest ih =>
    obtain ⟨group, others, rfl, hl, hrest⟩ := h
    rw [List.filter_append]
    cases htext : l.isText with
    | true =>
      have hgroup : group.filter (!·.isText) = [] :=
        List.filter_eq_nil_iff.2 fun x hx => by simp [hl.isText x hx, htext]
      rw [List.filter_cons_of_neg (by simp [htext]), hgroup, List.nil_append]
      exact ih hrest
    | false =>
      have hgroup : group.filter (!·.isText) = group :=
        List.filter_eq_self.2 fun x hx => by simp [hl.isText x hx, htext]
      rw [List.filter_cons_of_pos (by simp [htext]), hgroup]
      exact ⟨group, _, rfl, hl, ih hrest⟩

/-- Texts of a row and of the shapes that it fits stand at the same places. -/
theorem FitsAll.replaceWhere {new : List Shape} (h : FitsAll s tree cache ls kids)
    (hnew : FitsAll s tree cache ms new) :
    FitsAll s tree cache (replaceWhere Outline.isText ms ls)
      (LiveMarkup.replaceWhere Shape.isText new kids) := by
  rcases none_or_first Outline.isText ls with hnone | ⟨before, l, rest, rfl, hbefore, hl⟩
  · rw [replaceWhere_of_none hnone, replaceWhere_of_none (h.isText hnone)]
    exact fitsAll_append.2 ⟨new, kids, rfl, hnew, h⟩
  · obtain ⟨left, right, rfl, hleft, group, others, rfl, hgroup, hothers⟩ := fitsAll_append.1 h
    obtain ⟨x, rfl, hx⟩ := hgroup.eq_singleton hl
    rw [replaceWhere_append_cons hbefore hl, List.singleton_append,
      replaceWhere_append_cons (hleft.isText hbefore) hx]
    have hstart := fitsAll_append.2 ⟨left, new, rfl, hleft, hnew⟩
    exact fitsAll_append.2 ⟨_, _, rfl, hstart, hothers.filter⟩

theorem fitsAll_oneText {content : String} {new : List Shape} (h : Shape.OneText content new) :
    FitsAll s tree cache (oneText content) new := by
  rw [oneText]
  obtain ⟨rfl, rfl⟩ | ⟨hcontent, t, rfl⟩ := h
  · rfl
  · rw [if_neg hcontent]
    exact fitsAll_singleton.2 ⟨t, [], rfl⟩

theorem FitsAll.placeText {source : String} {model : Value} {scope : Scope}
    (h : FitsAll s tree cache ls kids) (hfilled : Shape.TextFilled source model scope kids kids') :
    FitsAll s tree cache (placeText source model scope ls) kids' := by
  rw [Shape.TextFilled] at hfilled
  rw [Outline.placeText]
  split
  · next happears =>
    rw [if_pos happears] at hfilled
    obtain ⟨new, hnew, rfl⟩ := hfilled
    exact h.replaceWhere (fitsAll_oneText hnew)
  · next happears =>
    rw [if_neg happears] at hfilled
    rwa [hfilled]

end Outline
end LiveMarkup
