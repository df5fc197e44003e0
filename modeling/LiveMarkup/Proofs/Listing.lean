import LiveMarkup.Proofs.Document.Order
import LiveMarkup.Proofs.Reported

/-! The listing of directives against what is compiled. The listing goes through the nodes of a
document in their order and has an entry for each directive among them. The entries for an element
and what hangs below it are those of the directives in its template, in preorder and as deep. -/
namespace LiveMarkup

variable {s : Settings} {d : Document} {a x : NodeId}

namespace Template

mutual

/-- The directives of a template in preorder, each with the number of directives around it. -/
def directives (depth : Nat) : Template → List (Template × Nat)
  | element _ _ _ children => directivesAll depth children
  | repetition source binding children =>
    (repetition source binding children, depth) :: directivesAll (depth + 1) children
  | conditional test children =>
    (conditional test children, depth) :: directivesAll (depth + 1) children
  | recursive name use source children =>
    (recursive name use source children, depth) :: directivesAll (depth + 1) children

def directivesAll (depth : Nat) : Fragment → List (Template × Nat)
  | [] => []
  | template :: rest => template.directives depth ++ directivesAll depth rest

end

theorem directivesAll_append (depth : Nat) (fragment others : Fragment) :
    directivesAll depth (fragment ++ others) =
      directivesAll depth fragment ++ directivesAll depth others := by
  induction fragment with
  | nil => rfl
  | cons template fragment ih =>
    rw [List.cons_append, directivesAll, directivesAll, ih, List.append_assoc]

theorem directives_ofDirective (depth : Nat) (directive : Directive)
    (attributes : List (String × String)) (children : Fragment) :
    (ofDirective directive attributes children).directives depth =
      (ofDirective directive attributes children, depth) :: directivesAll (depth + 1) children := by
  cases directive <;> rfl

end Template

namespace Report

/-- An entry tells a directive: its kind, and the attributes that its fields were taken from. Of the
two sources of a repetition `of` goes first, and an empty `as` is as good as none. -/
def Tells (r : Report) : Template → Prop
  | .element .. => False
  | .repetition source binding _ => r.directive = .repetition ∧
    (∀ path, source = .path path ↔ r.attribute? "of" = some path) ∧
    (∀ name, source = .recursive name ↔
      r.attribute? "of" = none ∧ r.attribute? "of-rec" = some name) ∧
    ∀ name, binding = some name ↔ r.attribute? "as" = some name ∧ name ≠ ""
  | .conditional test _ => r.directive = .conditional ∧ test = r.attribute? "test"
  | .recursive name use source _ => r.directive = .recursive ∧ name = r.attribute? "name" ∧
    use = r.attribute? "use" ∧ source = r.attribute? "of"

theorem tells_ofDirective (r : Report) (children : Fragment) :
    r.Tells (Template.ofDirective r.directive r.attributes children) := by
  obtain ⟨directive, tag, attributes, depth⟩ := r
  cases directive with
  | repetition =>
    refine ⟨rfl, fun path => ?_, fun name => ?_, fun name => ?_⟩
    · simp only [Template.sourceOf, attribute?]
      split <;> simp_all
    · simp only [Template.sourceOf, attribute?]
      split <;> simp_all
    · simp [attribute?, Option.filter_eq_some_iff]
  | conditional => exact ⟨rfl, rfl⟩
  | recursive => exact ⟨rfl, rfl, rfl, rfl⟩

/-- An entry tells a directive at its depth, where all depths are shifted by one number. -/
def TellsAt (shift : Nat) (u : Template × Nat) (r : Report) : Prop :=
  r.Tells u.1 ∧ r.depth = shift + u.2

mutual

/-- The directives that are compiled from a tree are those that are listed. -/
theorem forall₂_ofTree (s : Settings) (shift depth : Nat) : (tree : Tree) →
    List.Forall₂ (TellsAt shift) (Template.directivesAll depth (Template.compile s tree))
      (ofTree s (shift + depth) tree)
  | .text _ => .nil
  | .element tag attributes children => by
    rw [Template.compile, ofTree]
    cases s.directive? tag with
    | none =>
      simp only [Template.directivesAll, Template.directives, List.append_nil]
      exact forall₂_ofTrees s shift depth children
    | some directive =>
      simp only [Template.directivesAll, Template.directives_ofDirective, List.append_nil]
      exact .cons ⟨tells_ofDirective ⟨directive, tag, attributes, shift + depth⟩ _, rfl⟩
        (forall₂_ofTrees s shift (depth + 1) children)

theorem forall₂_ofTrees (s : Settings) (shift depth : Nat) : (trees : List Tree) →
    List.Forall₂ (TellsAt shift) (Template.directivesAll depth (Template.compileAll s trees))
      (ofTrees s (shift + depth) trees)
  | [] => .nil
  | tree :: rest => by
    rw [Template.compileAll, Template.directivesAll_append, ofTrees]
    exact List.rel_append (forall₂_ofTree s shift depth tree)
      (forall₂_ofTrees s shift depth rest)

end

end Report

namespace Document

/-- Number of directives above a node. -/
def directivesAbove (d : Document) (s : Settings) (x : NodeId) : Nat :=
  (d.lineage (d.slots.size + 1) x).tail.countP fun y => (d.directive? s y).isSome

/-- The entry for a node in a listing of directives. -/
def report? (d : Document) (s : Settings) (x : NodeId) : Option Report :=
  (d.tagName? x).bind fun tag => (s.directive? tag).map fun directive =>
    ⟨directive, tag, d.attributes x, d.directivesAbove s x⟩

theorem Sound.directivesAbove_root (hd : d.Sound) : d.directivesAbove s .root = 0 := by
  rw [directivesAbove, lineage, hd.parent?_root]
  rfl

theorem Sound.lineage_of_parent? {p : NodeId} (hd : d.Sound) (hp : d.parent? x = some p) :
    d.lineage (d.slots.size + 1) x = x :: d.lineage (d.slots.size + 1) p := by
  obtain ⟨line, hline, hmem, hnodup, -⟩ := hd.exists_line p
  have hle := hd.length_line_le (hd.contains_of_parent? hp).2 hmem hnodup
  rw [lineage, hp]
  dsimp only
  rw [hline _ hle, hline _ (Nat.le_succ_of_le hle)]

/-- A node is one deeper below a directive, and as deep as its parent below another node. -/
theorem Sound.directivesAbove_of_parent? {p : NodeId} (hd : d.Sound)
    (hp : d.parent? x = some p) : d.directivesAbove s x =
      d.directivesAbove s p + if (d.directive? s p).isSome then 1 else 0 := by
  have hparent : d.lineage (d.slots.size + 1) p = p :: (d.lineage (d.slots.size + 1) p).tail := by
    rw [lineage, List.tail_cons]
  rw [directivesAbove, hd.lineage_of_parent? hp, List.tail_cons, hparent, List.countP_cons,
    directivesAbove]

end Document

namespace Shape

variable {p : Option NodeId} {w : Shape} {kids : List Shape}

theorem ofTrees_of_forall {depth : Nat}
    (h : ∀ c ∈ kids, Report.ofTrees s depth c.trees = c.ids.filterMap (d.report? s)) :
    Report.ofTrees s depth (treesAll kids) = (idsAll kids).filterMap (d.report? s) := by
  induction kids with
  | nil => rfl
  | cons c kids ih =>
    rw [List.forall_mem_cons] at h
    rw [treesAll, Report.ofTrees_append, idsAll, List.filterMap_append, h.1, ih h.2]

/-- The listing of a shape has the entries for its nodes, in document order. -/
theorem In.ofTrees_eq (hd : d.Sound) (hw : w.In d p) :
    Report.ofTrees s (d.directivesAbove s w.id) w.trees = w.ids.filterMap (d.report? s) := by
  induction w generalizing p with
  | mk id kind notes kids ih =>
    have hkids : ∀ {depth}, (d.directivesAbove s id +
        if (d.directive? s id).isSome then 1 else 0) = depth →
        Report.ofTrees s depth (treesAll kids) = (idsAll kids).filterMap (d.report? s) := by
      rintro depth rfl
      refine ofTrees_of_forall fun c hc => ?_
      have hcs := inAll_iff.1 hw.2 c hc
      rw [← hd.directivesAbove_of_parent? hcs.parent?]
      exact ih c hc hcs
    rw [ids, id_mk]
    cases kind with
    | root =>
      have hnone : d.directive? s id = none := by
        simp [Document.directive?, Document.tagName?, hw.1]
      have hreport : d.report? s id = none := by simp [Document.report?, Document.tagName?, hw.1]
      rw [trees, List.filterMap_cons_none hreport]
      exact hkids (by simp [hnone])
    | text content =>
      have hnone : kids.map Shape.id = [] := hd.valid hw.1
      obtain rfl := List.map_eq_nil_iff.1 hnone
      have hreport : d.report? s id = none := by simp [Document.report?, Document.tagName?, hw.1]
      rw [trees, List.filterMap_cons_none hreport]
      rfl
    | element tag attributes =>
      have hdirective := Document.directive?_eq (s := s) hw
      rw [trees, Report.ofTrees, Report.ofTrees, List.append_nil, Report.ofTree]
      cases htag : s.directive? tag with
      | none =>
        have hreport : d.report? s id = none := by
          simp [Document.report?, Document.tagName?, hw.1, htag]
        rw [List.filterMap_cons_none hreport]
        exact hkids (by simp [hdirective, htag])
      | some directive =>
        have hreport : d.report? s id =
            some ⟨directive, tag, attributes, d.directivesAbove s id⟩ := by
          simp [Document.report?, Document.tagName?, Document.attributes, hw.1, htag]
        rw [List.filterMap_cons_some hreport]
        exact congrArg _ (hkids (by simp [hdirective, htag]))

end Shape

namespace Document

/-- The listing of a document goes through what hangs below its root. -/
theorem Sound.ofDocument_eq (hd : d.Sound) :
    Report.ofDocument s d = (d.subtree .root).filterMap (d.report? s) := by
  obtain ⟨notes, kids, hw, hcontent⟩ := hd.exists_content
  have hlisting := hw.ofTrees_eq (s := s) hd
  have hsubtree := hd.subtree_eq hw
  rw [Shape.id_mk] at hlisting hsubtree
  rw [Report.ofDocument, hcontent, hsubtree, ← hlisting, hd.directivesAbove_root]
  rfl

/-- What is listed is what is compiled. The listing of a document has the entries for the nodes
under its root, in document order, and what hangs below a node is one piece of that order. An
element, wherever it hangs, has a template, whose directives in preorder are told one by one by the
entries for the element and what hangs below it: kinds and fields are those of the entry, and it is
as deep in the document as the directive in the template, shifted by the depth of the element. -/
theorem listing_as_compiled (hd : d.Reachable) (s : Settings) (ha : (d.tagName? a).isSome = true) :
    Report.ofDocument s d = (d.subtree .root).filterMap (d.report? s) ∧
    (a ∈ d.subtree .root → d.subtree a <:+: d.subtree .root) ∧
    ∃ template, d.template? s a = some template ∧
      List.Forall₂ (Report.TellsAt (d.directivesAbove s a)) (template.directives 0)
        ((d.subtree a).filterMap (d.report? s)) := by
  have hsound := hd.sound
  refine ⟨hsound.ofDocument_eq, fun h => ?_, ?_⟩
  · exact hsound.subtree_infix ((hsound.mem_subtree_iff hsound.contains_root).1 h)
  · obtain ⟨tag, htag⟩ := Option.isSome_iff_exists.1 ha
    obtain ⟨attributes, notes, kids, hw⟩ := hsound.exists_element htag
    obtain ⟨template, htemplate⟩ : ∃ template, Template.compile s
        (.element tag attributes (Shape.treesAll kids)) = [template] := by
      rw [Template.compile]
      cases s.directive? tag <;> exact ⟨_, rfl⟩
    have hlisting := hw.ofTrees_eq (s := s) hsound
    have htells := Report.forall₂_ofTree s (d.directivesAbove s a) 0
      (.element tag attributes (Shape.treesAll kids))
    have hsubtree := hsound.subtree_eq hw
    rw [Shape.id_mk] at hlisting hsubtree
    rw [Shape.trees, Report.ofTrees, Report.ofTrees, List.append_nil] at hlisting
    rw [htemplate, Template.directivesAll, Template.directivesAll, List.append_nil, Nat.add_zero,
      hlisting, ← hsubtree] at htells
    exact ⟨template, by rw [Pass.template?_eq hsound hw, htemplate]; rfl, htells⟩

/-- A repetition with both sources below a plain element in a condition: it is listed one deep, and
it is the whole template of its element. -/
theorem listing_as_compiled_nested :
    let s := Settings.default
    let text := "<if test=\"a\"><p><each of=\"xs\" of-rec=\"n\" as=\"\"/></p></if>"
    let entry : Report :=
      ⟨.repetition, "each", [("of", "xs"), ("of-rec", "n"), ("as", "")], 1⟩
    ∃ d, read ⟨0⟩ text = .ok d ∧ (d.tagName? ⟨3, 0⟩).isSome = true ∧
      ⟨3, 0⟩ ∈ d.subtree .root ∧ d.subtree ⟨3, 0⟩ <:+: d.subtree .root ∧
      Report.ofDocument s d = [⟨.conditional, "if", [("test", "a")], 0⟩, entry] ∧
      ∃ template, d.template? s ⟨3, 0⟩ = some template ∧
        List.Forall₂ (Report.TellsAt 1) (template.directives 0) [entry] := by
  intro s text entry
  have hrun : Option.any (fun d => (d.tagName? ⟨3, 0⟩).isSome && d.subtree .root ==
      [⟨0, 0⟩, ⟨1, 0⟩, ⟨2, 0⟩, ⟨3, 0⟩] && d.subtree ⟨3, 0⟩ == [⟨3, 0⟩] &&
      [⟨0, 0⟩, ⟨1, 0⟩, ⟨2, 0⟩, ⟨3, 0⟩].map (d.report? s) ==
        [none, some ⟨.conditional, "if", [("test", "a")], 0⟩, none, some entry] &&
      d.directivesAbove s ⟨3, 0⟩ == 1) (read ⟨0⟩ text).toOption = true := by
    decide +kernel
  obtain ⟨d, hread, hrun⟩ := exists_of_toOption_any hrun
  simp only [Bool.and_eq_true, beq_iff_eq, List.map_cons, List.map_nil, List.cons.injEq] at hrun
  obtain ⟨⟨⟨⟨htag, hroot⟩, hown⟩, hnone, hif, hplain, heach, -⟩, hdepth⟩ := hrun
  obtain ⟨hlisting, hinfix, template, htemplate, htells⟩ :=
    listing_as_compiled (Reachable.of_read hread) s htag
  have hmem : (⟨3, 0⟩ : NodeId) ∈ d.subtree .root := by
    rw [hroot]
    decide
  refine ⟨d, hread, htag, hmem, hinfix hmem, ?_, template, htemplate, ?_⟩
  · rw [hlisting, hroot]
    simp [hnone, hif, hplain, heach]
  · rw [hown, hdepth] at htells
    simpa [heach] using htells

end Document
end LiveMarkup
