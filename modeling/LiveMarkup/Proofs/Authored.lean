import LiveMarkup.Proofs.Document.Reading
import LiveMarkup.Proofs.Rendering

/-! Authored trees: their outlines before anything is rendered, and that they fit a document that
was just read. -/
namespace LiveMarkup

mutual

/-- Elements outside the contents of directives do not carry the mark of generated ones. -/
def Tree.Unmarked (s : Settings) : Tree → Prop
  | .text _ => True
  | .element tag attributes children =>
    Entries.get? s.generatedAttribute attributes = none ∧
      (s.directive? tag = none → Tree.UnmarkedAll s children)

def Tree.UnmarkedAll (s : Settings) : List Tree → Prop
  | [] => True
  | t :: rest => t.Unmarked s ∧ Tree.UnmarkedAll s rest

end

mutual

def Tree.decideUnmarked (s : Settings) : (t : Tree) → Decidable (t.Unmarked s)
  | .text _ => .isTrue trivial
  | .element tag attributes children =>
    have := Tree.decideUnmarkedAll s children
    inferInstanceAs (Decidable (Entries.get? s.generatedAttribute attributes = none ∧
      (s.directive? tag = none → Tree.UnmarkedAll s children)))

def Tree.decideUnmarkedAll (s : Settings) : (ts : List Tree) → Decidable (Tree.UnmarkedAll s ts)
  | [] => .isTrue trivial
  | t :: rest =>
    have := Tree.decideUnmarked s t
    have := Tree.decideUnmarkedAll s rest
    inferInstanceAs (Decidable (t.Unmarked s ∧ Tree.UnmarkedAll s rest))

end

instance (s : Settings) : DecidablePred (Tree.UnmarkedAll s) := Tree.decideUnmarkedAll s

mutual

/-- No element outside the contents of directives is taken for a generated one, and the plain ones
do not carry the mark at all. -/
def Tree.Authored (s : Settings) : Tree → Prop
  | .text _ => True
  | .element tag attributes children =>
    Entries.get? s.generatedAttribute attributes ≠ some "true" ∧
      (s.directive? tag = none → Entries.get? s.generatedAttribute attributes = none ∧
        Tree.AuthoredAll s children)

def Tree.AuthoredAll (s : Settings) : List Tree → Prop
  | [] => True
  | t :: rest => t.Authored s ∧ Tree.AuthoredAll s rest

end

mutual

theorem Tree.Unmarked.authored (s : Settings) : ∀ t : Tree, t.Unmarked s → t.Authored s
  | .text _, _ => trivial
  | .element _ _ children, h => by
    refine ⟨?_, fun hplain => ⟨h.1, Tree.UnmarkedAll.authored s children (h.2 hplain)⟩⟩
    rw [h.1]
    exact nofun

theorem Tree.UnmarkedAll.authored (s : Settings) :
    ∀ ts : List Tree, Tree.UnmarkedAll s ts → Tree.AuthoredAll s ts
  | [], _ => trivial
  | t :: rest, h => ⟨Tree.Unmarked.authored s t h.1, Tree.UnmarkedAll.authored s rest h.2⟩

end

mutual

/-- The outline of a tree as it was authored. -/
def Outline.ofTree (s : Settings) : Tree → Outline
  | .text content => .text content
  | .element tag attributes children =>
    match s.directive? tag with
    | some directive => .anchor tag attributes
        (Template.ofDirective directive attributes (Template.compileAll s children)) children []
    | none => .plain tag attributes attributes (Tree.directText children)
        (Outline.ofTrees s children)

def Outline.ofTrees (s : Settings) : List Tree → List Outline
  | [] => []
  | t :: rest => Outline.ofTree s t :: Outline.ofTrees s rest

end

variable {s : Settings} {tree : TreeId} {d : Document} {q : NodeId} {x : Shape} {kids : List Shape}

theorem Tree.authoredAll_append {left right : List Tree} :
    Tree.AuthoredAll s (left ++ right) ↔ Tree.AuthoredAll s left ∧ Tree.AuthoredAll s right := by
  induction left with
  | nil => simp [Tree.AuthoredAll]
  | cons t rest ih => simp [Tree.AuthoredAll, ih, and_assoc]

theorem Outline.ofTrees_append (left right : List Tree) :
    Outline.ofTrees s (left ++ right) = Outline.ofTrees s left ++ Outline.ofTrees s right := by
  induction left with
  | nil => rfl
  | cons t rest ih => simp [Outline.ofTrees, ih]

theorem Template.compileAll_append (left right : List Tree) :
    Template.compileAll s (left ++ right) =
      Template.compileAll s left ++ Template.compileAll s right := by
  induction left with
  | nil => rfl
  | cons t rest ih => simp [Template.compileAll, ih]

namespace Template

theorem valid_ofDirective (directive : Directive) (attributes : List (String × String))
    {children : Fragment} (h : ValidAll children) :
    (ofDirective directive attributes children).Valid := by
  cases directive <;> exact h

/-- What holds of all that is compiled from each shape of a row holds of the row. -/
theorem forall_mem_compileAll {P : Template → Prop}
    (h : ∀ c ∈ kids, ∀ t ∈ compileAll s c.trees, P t) :
    ∀ t ∈ compileAll s (Shape.treesAll kids), P t := by
  induction kids with
  | nil => exact nofun
  | cons c rest ih =>
    rw [List.forall_mem_cons] at h
    rw [Shape.treesAll, compileAll_append]
    exact List.forall_mem_append.2 ⟨h.1, ih h.2⟩

theorem validAll_compileAll_of_forall (h : ∀ c ∈ kids, ValidAll (compileAll s c.trees)) :
    ValidAll (compileAll s (Shape.treesAll kids)) :=
  validAll_iff.2 (forall_mem_compileAll fun c hc => validAll_iff.1 (h c hc))

end Template

/-- What is compiled from a sound document can be expanded. -/
theorem Document.Sound.validAll_compile (hd : d.Sound) {p : Option NodeId} (hx : x.In d p) :
    Template.ValidAll (Template.compileAll s x.trees) := by
  induction x generalizing p with
  | mk id kind notes kids ih =>
    have hkids := Template.validAll_compileAll_of_forall (s := s) fun c hc =>
      ih c hc (Shape.inAll_iff.1 hx.2 c hc)
    cases kind with
    | root => exact hkids
    | text content => trivial
    | element tag attributes =>
      have hvalid := hd.valid hx.1
      rw [Shape.trees, Template.compileAll, Template.compile]
      split
      · exact ⟨Template.valid_ofDirective _ _ hkids, trivial⟩
      · exact ⟨⟨hvalid, hkids⟩, trivial⟩

/-- The template of a node is one of those that its shape is compiled to. -/
theorem Document.Sound.exists_of_template? (hd : d.Sound) {t : Template}
    (h : d.template? s q = some t) :
    ∃ x : Shape, x.id = q ∧ x.In d (d.parent? q) ∧ t ∈ Template.compileAll s x.trees := by
  rw [template?, Option.bind_eq_some_iff] at h
  obtain ⟨tree, htree, hhead⟩ := h
  rw [elementTree?] at htree
  split at htree
  · next htag =>
    obtain ⟨n, hn⟩ : ∃ n, d.node? q = some n := by
      rw [tagName?, Option.isSome_bind, Option.any_eq_true] at htag
      exact htag.imp fun n h => h.1
    obtain ⟨x, rfl, hx⟩ := hd.exists_shape (contains_iff.2 ⟨n, hn⟩)
    rw [hd.trees_eq hx] at htree
    obtain ⟨rest, hcons⟩ := List.head?_eq_some_iff.1 htree
    refine ⟨x, rfl, hx, ?_⟩
    rw [hcons, Template.compileAll]
    exact List.mem_append_left _ (List.mem_of_mem_head? hhead)
  · cases htree

theorem Document.Sound.valid_of_template? (hd : d.Sound) {t : Template}
    (h : d.template? s q = some t) : t.Valid := by
  obtain ⟨x, -, hx, ht⟩ := hd.exists_of_template? h
  exact Template.validAll_iff.1 (hd.validAll_compile hx) t ht

/-- Outlines that fit each shape of a row fit the row. -/
theorem Outline.fitsAll_ofTrees (hmarks : Tree.AuthoredAll s (Shape.treesAll kids))
    (h : ∀ c ∈ kids, Tree.AuthoredAll s c.trees →
      FitsAll s tree .empty (ofTrees s c.trees) [c]) :
    FitsAll s tree .empty (ofTrees s (Shape.treesAll kids)) kids := by
  induction kids with
  | nil => rfl
  | cons c rest ih =>
    rw [Shape.treesAll] at hmarks ⊢
    rw [Tree.authoredAll_append] at hmarks
    rw [List.forall_mem_cons] at h
    rw [ofTrees_append]
    exact fitsAll_append.2 ⟨[c], rest, rfl, h.1 hmarks.1, ih hmarks.2 h.2⟩

namespace Document.Unnoted

theorem fitsAll_of_in (hd : d.Unnoted tree) (hx : x.In d (some q))
    (hmarks : Tree.AuthoredAll s x.trees) :
    Outline.FitsAll s tree .empty (Outline.ofTrees s x.trees) [x] := by
  induction x generalizing q with
  | mk id kind notes kids ih =>
    obtain rfl : notes = [] := hd.noteless id _ hx.1
    cases kind with
    | root =>
      obtain rfl : id = .root := hd.sound.valid hx.1
      have hparent := hx.parent?
      rw [Shape.id_mk, hd.sound.parent?_root] at hparent
      cases hparent
    | text content =>
      have hchildren : kids.map Shape.id = [] := hd.sound.valid hx.1
      obtain rfl := List.map_eq_nil_iff.1 hchildren
      exact Outline.fitsAll_singleton.2 ⟨id, [], rfl⟩
    | element tag attributes =>
      obtain ⟨⟨hmark, hinner⟩, -⟩ := hmarks
      refine Outline.fitsAll_singleton.2 ?_
      rw [Outline.ofTree]
      split
      · next directive hdirective =>
        have hkids := Template.validAll_compileAll_of_forall (s := s) fun c hc =>
          hd.sound.validAll_compile (Shape.inAll_iff.1 hx.2 c hc)
        refine ⟨id, [], kids, [], rfl, by rw [hdirective]; rfl, hmark, rfl, rfl,
          fun c hc => absurd hc List.not_mem_nil, Template.valid_ofDirective _ _ hkids,
          Or.inr ⟨rfl, ?_⟩⟩
        rw [Template.compile, hdirective]
        rfl
      · next hdirective =>
        have hrow : Outline.FitsAll s tree .empty (Outline.ofTrees s (Shape.treesAll kids)) kids :=
          Outline.fitsAll_ofTrees (hinner hdirective).2 fun c hc =>
            ih c hc (Shape.inAll_iff.1 hx.2 c hc)
        refine ⟨id, [], kids, rfl, hdirective, (hinner hdirective).1, ?_, fun a _ => Or.inr rfl,
          rfl, hrow⟩
        exact List.map_id' attributes

end Document.Unnoted

/-- The attributes of usable settings can be set. -/
theorem Settings.isAttributeName_of_fault? (h : s.fault? = none) :
    Markup.isAttributeName s.generatedAttribute = true ∧
      Markup.isAttributeName s.hiddenAttribute = true := by
  rw [fault?] at h
  split at h
  · cases h
  split at h
  · cases h
  split at h
  · cases h
  · next hnames =>
    simpa using List.find?_eq_none.1 hnames

theorem Settings.maxDepth_pos_of_fault? (h : s.fault? = none) : 0 < s.maxDepth := by
  rw [fault?] at h
  split at h
  · cases h
  split at h
  · cases h
  split at h
  · cases h
  split at h
  · cases h
  split at h
  · cases h
  · next hdepth => exact Nat.pos_of_ne_zero hdepth

theorem Engine.create_eq_ok {engine : Engine} (h : Engine.create s = .ok engine) :
    s.fault? = none ∧ engine = .ofSettings s := by
  simp only [create, Settings.validate, Bind.bind, Except.bind] at h
  cases hfault : s.fault? with
  | some e =>
    rw [hfault] at h
    cases h
  | none =>
    rw [hfault] at h
    cases h
    exact ⟨rfl, rfl⟩

/-- An engine with usable settings and a document that was just read are ready to be rendered. -/
theorem Stage.showsAll_of_authored {text : String} {engine : Engine}
    (hread : Document.read tree text = .ok d) (hcreate : Engine.create s = .ok engine)
    (hmarks : Tree.AuthoredAll s d.content) :
    (⟨engine, d⟩ : Stage).ShowsAll (Outline.ofTrees s d.content) := by
  have hd := Document.read_unnoted hread
  obtain ⟨hfault, rfl⟩ := Engine.create_eq_ok hcreate
  obtain ⟨hgenerated, hhidden⟩ := Settings.isAttributeName_of_fault? hfault
  obtain ⟨notes, kids, hs, htrees⟩ := hd.sound.exists_content
  rw [htrees] at hmarks ⊢
  refine ⟨notes, kids, ⟨⟨hd.sound, hgenerated, fun _ _ h => by cases h⟩, hhidden, rfl, ?_, ?_⟩⟩
  · rwa [Place.fill_whole]
  · rw [hd.tree_eq]
    exact Outline.fitsAll_ofTrees hmarks fun c hc => hd.fitsAll_of_in (Shape.inAll_iff.1 hs.2 c hc)

theorem Stage.showsAll_of_read {text : String} {engine : Engine}
    (hread : Document.read tree text = .ok d) (hcreate : Engine.create s = .ok engine)
    (hmarks : Tree.UnmarkedAll s d.content) :
    (⟨engine, d⟩ : Stage).ShowsAll (Outline.ofTrees s d.content) :=
  Stage.showsAll_of_authored hread hcreate (hmarks.authored s _)

end LiveMarkup
