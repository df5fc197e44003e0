import LiveMarkup.Proofs.Authored
import LiveMarkup.Proofs.Detection
import LiveMarkup.Proofs.Document.Roundtrip

/-! Lists in lists: a recursive template that is used inside its own repetition shows a tree of
labels as a tree of elements, down to the bound on recursion. -/
namespace LiveMarkup

inductive Rose where
  | node (label : String) (children : List Rose)

namespace Rose

/-- A value holds a tree: it has the label, and a list of children whose items hold the subtrees. -/
inductive Held : Value → Rose → Prop
  | node {value : Value} {label : String} {items : List Value} {children : List Rose}
    (hlabel : value.child? "label" = some (.string label))
    (hitems : value.child? "children" = some (.list items))
    (hchildren : List.Forall₂ Held items children) : Held value (node label children)

mutual

/-- The value that holds a tree and nothing else. -/
def value : Rose → Value
  | node label children => .map [("label", .string label), ("children", .list (values children))]

def values : List Rose → List Value
  | [] => []
  | rose :: rest => rose.value :: values rest

end

mutual

theorem held_value : ∀ rose : Rose, Held rose.value rose
  | node _ children => .node rfl rfl (held_values children)

theorem held_values : ∀ roses : List Rose, List.Forall₂ Held (values roses) roses
  | [] => .nil
  | rose :: rest => .cons (held_value rose) (held_values rest)

end

mutual

/-- The element for a tree at a level: its label, then the list for the next level, unless the level
is the last one. -/
def item (mark : String) (last level : Nat) : Rose → Tree
  | node label children => .element "li" [(mark, "true")]
    (Tree.textTrees label ++ if level < last then
      [.element "ul" [(mark, "true")] (items mark last (level + 1) children)] else [])

def items (mark : String) (last level : Nat) : List Rose → List Tree
  | [] => []
  | rose :: rest => rose.item mark last level :: items mark last level rest

end

end Rose

namespace NestedList

/-- A definition of a list that uses itself in its items, and a use of it. -/
def text : String :=
  "<recursive-template name=\"node\" of=\"children\">\n" ++
  "  <ul>\n" ++
  "    <each of-rec=\"node\" as=\"n\">\n" ++
  "      <li>\x7b\x7bn.label\x7d\x7d<recursive-template use=\"node\" of=\"n.children\"/></li>\n" ++
  "    </each>\n" ++
  "  </ul>\n" ++
  "</recursive-template>\n" ++
  "<recursive-template use=\"node\" of=\"root.children\"/>\n"

def body : List Tree :=
  [.text "\n  ",
    .element "ul" [] [.text "\n    ",
      .element "each" [("of-rec", "node"), ("as", "n")] [.text "\n      ",
        .element "li" [] [.text "\x7b\x7bn.label\x7d\x7d",
          .element "recursive-template" [("use", "node"), ("of", "n.children")] []],
        .text "\n    "],
      .text "\n  "],
    .text "\n"]

def trees : List Tree :=
  [.element "recursive-template" [("name", "node"), ("of", "children")] body, .text "\n",
    .element "recursive-template" [("use", "node"), ("of", "root.children")] [], .text "\n"]

/-- The text is what is written for the trees. -/
theorem toList_text : text.toList = Tree.markupAll trees := by
  unfold text
  simp only [String.toList_append, -String.reduceAppend]
  decide +kernel

theorem wellNamedAll_trees : Tree.WellNamedAll trees := by
  simp only [trees, body, Tree.WellNamedAll, Tree.WellNamed, and_true, true_and]
  refine ⟨⟨?_, ?_, ?_, ?_, ?_⟩, ?_⟩ <;> exact ⟨by decide, by decide, by decide⟩

theorem content_of_read {tree : TreeId} {d : Document} (h : Document.read tree text = .ok d) :
    d.content = trees := by
  rw [← String.ofList_toList (s := text), toList_text] at h
  exact Document.content_of_read_markupAll wellNamedAll_trees (by decide +kernel) h

/-- What stands for an item, with the use of the list in it. -/
def itemTemplate : Template :=
  .element "li" [] "\x7b\x7bn.label\x7d\x7d"
    [.recursive none (some "node") (some "n.children") []]

def listTemplate : Template :=
  .element "ul" [] "" [.repetition (.recursive "node") (some "n") [itemTemplate]]

/-- The settings have the tags of the template. -/
structure Tags (s : Settings) : Prop where
  repetition : s.repeatTag = "each"
  conditional : s.conditionalTag = "if"
  recursive : s.recursiveTag = "recursive-template"

variable {s : Settings} {model : Value} {scope : Scope}

theorem Tags.directive?_eq (h : Tags s) (tag : String) :
    s.directive? tag = Settings.default.directive? tag := by
  rw [Settings.directive?, Settings.directive?, h.repetition, h.conditional, h.recursive]
  rfl

theorem Tags.compileAll_body (h : Tags s) : Template.compileAll s body = [listTemplate] := by
  have hrecursive : s.directive? "recursive-template" = some .recursive :=
    (h.directive?_eq _).trans (by decide)
  have hrepetition : s.directive? "each" = some .repetition :=
    (h.directive?_eq _).trans (by decide)
  have hul : s.directive? "ul" = none := (h.directive?_eq _).trans (by decide)
  have hli : s.directive? "li" = none := (h.directive?_eq _).trans (by decide)
  simp only [body, Template.compileAll, Template.compile, hrecursive, hrepetition, hul, hli,
    List.nil_append, List.append_nil]
  rfl

theorem resolve_pair {path first second : String} (h : Text.segments path = [first, second])
    (hfirst : first ≠ "") (hsecond : second ≠ "") (model : Value) (scope : Scope) :
    Path.resolve path model scope =
      (Path.start? first model scope).bind fun value => value.child? second := by
  rw [Path.resolve, h]
  dsimp only
  rw [if_neg hfirst]
  congr 1
  funext value
  rw [Path.walk, if_neg hsecond]
  exact Option.bind_fun_some _

/-- The source of a use is bound in its frame, and nothing else. -/
theorem find?_sourceFrame (scope : Scope) (source name : String) :
    (Expansion.sourceFrame scope "node" (some source)).find? name =
      if name = "node.of" then some (.string source) else scope.find? name := by
  have hname : sourceBinding "node" = "node.of" := by decide
  rw [Expansion.sourceFrame, hname, Scope.find?_bind, Scope.find?_child]
  simp only [eq_comm]

section Items

variable {value : Value} {label : String} {items : List Value} {roses : List Rose}
  {uses : Fragment → Scope → Meaning} {registry : Registry} {last level : Nat}

theorem filled_label (hbound : scope.find? "n" = some value)
    (hlabel : value.child? "label" = some (.string label)) :
    Placeholder.filled "\x7b\x7bn.label\x7d\x7d" model scope = label := by
  have happears : Placeholder.appearsIn "\x7b\x7bn.label\x7d\x7d" = true := by decide
  have htoken : Placeholder.token? "\x7b\x7bn.label\x7d\x7d".toList =
      some ("n.label".toList, []) := by decide
  have hsegments : Text.segments "n.label" = ["n", "label"] := by decide +kernel
  have hresolve : Path.resolve "n.label" model scope = some (.string label) := by
    rw [resolve_pair hsegments (by decide) (by decide), Path.start?, hbound]
    exact hlabel
  obtain ⟨c, rest, hchars⟩ := List.exists_cons_of_ne_nil
    (show "\x7b\x7bn.label\x7d\x7d".toList ≠ [] by decide)
  rw [hchars] at htoken
  rw [Placeholder.filled, if_pos happears, Placeholder.fill, Placeholder.fillChars, hchars,
    Placeholder.pieces_of_token? htoken, Placeholder.pieces, List.flatMap_singleton,
    Placeholder.Piece.fill, Placeholder.shown, String.ofList_toList, hresolve]
  dsimp only
  rw [Value.displayChars, String.ofList_toList]

theorem itemsAt_children (hbound : scope.find? "n" = some value)
    (hitems : value.child? "children" = some (.list items)) :
    Expansion.itemsAt "n.children" model scope = items := by
  have hsegments : Text.segments "n.children" = ["n", "children"] := by decide +kernel
  rw [Expansion.itemsAt, resolve_pair hsegments (by decide) (by decide), Path.start?, hbound]
  dsimp only
  rw [Option.bind_some, hitems]

theorem generatedAttributes_nil :
    generatedAttributes s [] model scope = [(s.generatedAttribute, "true")] := by
  rw [generatedAttributes, Entries.put, List.map_singleton, Template.filled_true]

theorem denoteAll_singleton (t : Template) :
    Template.denoteAll s model uses [t] scope = Template.denote s model uses t scope := by
  funext registry
  simp only [Template.denoteAll, Meaning.join, Meaning.nothing, List.append_nil]

/-- The item for a value: its label, and what the use in it gives. -/
theorem denote_item {nested : List Tree} (hbound : scope.find? "n" = some value)
    (hlabel : value.child? "label" = some (.string label))
    (hdefined : registry.instance? "node" (some "n.children") =
      some ⟨some "n.children", [listTemplate]⟩)
    (huse : uses [listTemplate] (Expansion.sourceFrame scope "node" (some "n.children")) registry =
      (nested, registry)) :
    Template.denote s model uses itemTemplate scope registry =
      ([.element "li" [(s.generatedAttribute, "true")] (Tree.textTrees label ++ nested)],
        registry) := by
  simp only [itemTemplate, denoteAll_singleton, Template.denote, hdefined, huse,
    generatedAttributes_nil, filled_label hbound hlabel]

/-- The list for a source, in terms of its items. -/
theorem denote_list {path : String} {made : List Tree}
    (hbound : scope.find? "node.of" = some (.string path))
    (hmade : Meaning.gather (fun item =>
        Template.denote s model uses itemTemplate (scope.child.bind "n" item))
      (Expansion.itemsAt path model scope) registry = (made, registry)) :
    Template.denote s model uses listTemplate scope registry =
      ([.element "ul" [(s.generatedAttribute, "true")] made], registry) := by
  have hsource : Expansion.sourcePath? registry scope (.recursive "node") = some path := by
    rw [Expansion.sourcePath?, show sourceBinding "node" = "node.of" by decide, hbound]
  have hempty : Placeholder.filled "" model scope = "" := by
    have hnot : ¬ Placeholder.appearsIn "" = true := by decide
    rw [Placeholder.filled, if_neg hnot]
  simp only [listTemplate, denoteAll_singleton, Template.denote, hsource, Option.getD_some, hmade,
    generatedAttributes_nil, hempty]
  rfl

/-- The items for values that hold trees. -/
theorem gather_items (hheld : List.Forall₂ Rose.Held items roses)
    (hdefined : registry.instance? "node" (some "n.children") =
      some ⟨some "n.children", [listTemplate]⟩)
    (huse : ∀ (scope : Scope) (value : Value) (children : List Value) (roses : List Rose),
      scope.find? "n" = some value → value.child? "children" = some (.list children) →
      List.Forall₂ Rose.Held children roses →
      uses [listTemplate] (Expansion.sourceFrame scope "node" (some "n.children")) registry =
        (if level < last then [.element "ul" [(s.generatedAttribute, "true")]
          (Rose.items s.generatedAttribute last (level + 1) roses)] else [], registry)) :
    Meaning.gather (fun item =>
        Template.denote s model uses itemTemplate (scope.child.bind "n" item)) items registry =
      (Rose.items s.generatedAttribute last level roses, registry) := by
  induction hheld with
  | nil => rfl
  | @cons value rose items roses hvalue _ ih =>
    obtain ⟨hlabel, hchildren, hsub⟩ := hvalue
    have hbound : (scope.child.bind "n" value).find? "n" = some value := by
      rw [Scope.find?_bind, if_pos rfl]
    rw [Meaning.gather, Meaning.join, denote_item hbound hlabel hdefined
      (huse _ value _ _ hbound hchildren hsub)]
    dsimp only
    rw [ih]
    rfl

/-- A use at a level gives the list for the level, unless the last one has been passed. -/
theorem usesWithin_list
    (hdefined : registry.instance? "node" (some "n.children") =
      some ⟨some "n.children", [listTemplate]⟩)
    {room : Nat} (hroom : level + room = last + 1) {path : String}
    (hbound : scope.find? "node.of" = some (.string path))
    (hheld : List.Forall₂ Rose.Held (Expansion.itemsAt path model scope) roses) :
    Template.usesWithin s model room [listTemplate] scope registry =
      (if level ≤ last then [.element "ul" [(s.generatedAttribute, "true")]
        (Rose.items s.generatedAttribute last level roses)] else [], registry) := by
  induction room generalizing level scope path roses with
  | zero =>
    rw [if_neg (by omega)]
    rfl
  | succ room ih =>
    rw [if_pos (by omega), Template.usesWithin]
    dsimp only
    rw [denoteAll_singleton]
    refine denote_list hbound (gather_items hheld hdefined fun scope value children roses hn
      hchildren hsub => ?_)
    have hvalue : (Expansion.sourceFrame scope "node" (some "n.children")).find? "n" =
        some value := by
      rw [find?_sourceFrame, if_neg (by decide), hn]
    have hnext : level + 1 + room = last + 1 := by omega
    refine ih hnext (find?_sourceFrame scope "n.children" "node.of") ?_
    rwa [itemsAt_children hvalue hchildren]

end Items

theorem Tags.ofTrees_trees (h : Tags s) : Outline.ofTrees s trees =
    [.anchor "recursive-template" [("name", "node"), ("of", "children")]
        (.recursive (some "node") none (some "children") [listTemplate]) body [],
      .text "\n",
      .anchor "recursive-template" [("use", "node"), ("of", "root.children")]
        (.recursive none (some "node") (some "root.children") []) [] [],
      .text "\n"] := by
  have hrecursive : s.directive? "recursive-template" = some .recursive :=
    (h.directive?_eq _).trans (by decide)
  simp only [trees, Outline.ofTrees, Outline.ofTree, hrecursive, h.compileAll_body,
    Template.compileAll]
  rfl

theorem Tags.authoredAll_trees (h : Tags s) : Tree.AuthoredAll s trees := by
  have hrecursive : s.directive? "recursive-template" = some .recursive :=
    (h.directive?_eq _).trans (by decide)
  have hdirective : ¬ s.directive? "recursive-template" = none := by
    rw [hrecursive]
    exact nofun
  refine ⟨⟨?_, fun hnone => absurd hnone hdirective⟩, trivial,
    ⟨?_, fun hnone => absurd hnone hdirective⟩, trivial, trivial⟩
  · simp only [Entries.get?]
    split <;> (try split) <;> simp
  · simp only [Entries.get?]
    split <;> (try split) <;> simp

section Whole

variable {tree : TreeId} {d : Document} {engine : Engine} {root : Value} {items : List Value}
  {roses : List Rose}

/-- Nothing is found at the path of the definition, so its list is empty. -/
theorem meaning_definition (hmodel : model.child? "children" = none)
    (hscope : scope.find? "children" = none) :
    (Template.recursive (some "node") none (some "children") [listTemplate]).meaning s 0 model scope
      [] = ([.element "ul" [(s.generatedAttribute, "true")] []],
        [("node", ⟨some "children", [listTemplate]⟩)]) := by
  have hsegments : Text.segments "children" = ["children"] := by decide +kernel
  have hnone : Expansion.itemsAt "children" model
      (Expansion.sourceFrame scope "node" (some "children")) = [] := by
    rw [Expansion.itemsAt, Path.resolve, hsegments]
    dsimp only
    rw [if_neg (by decide), Path.start?, find?_sourceFrame, if_neg (by decide), hscope, hmodel]
    rfl
  rw [Template.meaning, Template.denote]
  dsimp only
  rw [denoteAll_singleton]
  refine denote_list (find?_sourceFrame scope "children" "node.of") ?_
  rw [hnone]
  rfl

/-- The use shows the trees at its path, from the first level on. -/
theorem meaning_use (hmodel : model.child? "root" = some root)
    (hitems : root.child? "children" = some (.list items))
    (hheld : List.Forall₂ Rose.Held items roses) (hscope : scope.find? "root" = none)
    (hdepth : 1 ≤ s.maxDepth) :
    (Template.recursive none (some "node") (some "root.children") []).meaning s 0 model scope
      [("node", ⟨some "children", [listTemplate]⟩)] =
      ([.element "ul" [(s.generatedAttribute, "true")]
        (Rose.items s.generatedAttribute s.maxDepth 1 roses)],
        [("node", ⟨some "children", [listTemplate]⟩)]) := by
  have hsegments : Text.segments "root.children" = ["root", "children"] := by decide +kernel
  have hfound : Expansion.itemsAt "root.children" model
      (Expansion.sourceFrame scope "node" (some "root.children")) = items := by
    rw [Expansion.itemsAt, resolve_pair hsegments (by decide) (by decide), Path.start?,
      find?_sourceFrame, if_neg (by decide), hscope, hmodel]
    dsimp only
    rw [Option.bind_some, hitems]
  rw [Template.meaning, Template.denote]
  refine (usesWithin_list rfl (Nat.add_comm 1 s.maxDepth)
    (find?_sourceFrame scope "root.children" "node.of") (hfound ▸ hheld)).trans ?_
  rw [if_pos hdepth]

/-- Rendering puts one list before the use: the trees are nested in it as they are in the data, one
item with its label for each, down to the bound on recursion. An item has a list in it, empty for a
leaf, exactly above the bound, and of what is further down nothing is shown. -/
theorem render_mirrors (hread : Document.read tree text = .ok d)
    (hcreate : Engine.create s = .ok engine) (htags : Tags s)
    (hmodel : model.child? "root" = some root)
    (hitems : root.child? "children" = some (.list items))
    (hheld : List.Forall₂ Rose.Held items roses) (hnone : model.child? "children" = none)
    (hscope : scope.find? "root" = none ∧ scope.find? "children" = none) :
    (∃ counts stage, Pass.render .root model scope ⟨engine, d⟩ = .ok counts stage ∧
      stage.document.content =
        [.element "ul" [(s.generatedAttribute, "true")] [],
          .element "recursive-template"
            (Entries.put s.hiddenAttribute "" [("name", "node"), ("of", "children")]) body,
          .text "\n",
          .element "ul" [(s.generatedAttribute, "true")]
            (Rose.items s.generatedAttribute s.maxDepth 1 roses),
          .element "recursive-template"
            (Entries.put s.hiddenAttribute "" [("use", "node"), ("of", "root.children")]) [],
          .text "\n"]) ∨
    ∃ stage, Pass.render .root model scope ⟨engine, d⟩ = .error .outOfSlots stage ∧
      ¬ stage.document.HasRoom := by
  have hcontent := content_of_read hread
  obtain ⟨hfault, rfl⟩ := Engine.create_eq_ok hcreate
  have hshows := Stage.showsAll_of_authored hread hcreate (hcontent ▸ htags.authoredAll_trees)
  rw [hcontent, htags.ofTrees_trees] at hshows
  obtain ⟨counts, stage, hok, hrendered, -⟩ | hfull := (Pass.runs_render hshows model scope).cases
  · refine Or.inl ⟨counts, stage, hok, ?_⟩
    rw [hrendered.content_eq]
    simp only [Outline.renderAll, Outline.render, Engine.ofSettings,
      meaning_definition hnone hscope.2,
      meaning_use hmodel hitems hheld hscope.1 (Settings.maxDepth_pos_of_fault? hfault)]
    rfl
  · exact Or.inr hfull

end Whole

/-- Three levels of data under a bound of two, beside a leaf. -/
theorem render_mirrors_two_levels :
    let s := { Settings.default with maxDepth := 2 }
    let roses : List Rose := [.node "a" [.node "b" [.node "c" []]], .node "d" []]
    let model := Value.map [("root", .map [("children", .list (Rose.values roses))])]
    ∃ d counts stage, Document.read ⟨0⟩ text = .ok d ∧ Tags s ∧
      Pass.render .root model .empty ⟨.ofSettings s, d⟩ = .ok counts stage ∧
      stage.document.content[3]? = some (.element "ul" [("data-generated", "true")]
        [.element "li" [("data-generated", "true")] [.text "a",
            .element "ul" [("data-generated", "true")]
              [.element "li" [("data-generated", "true")] [.text "b"]]],
          .element "li" [("data-generated", "true")] [.text "d",
            .element "ul" [("data-generated", "true")] []]]) := by
  intro s roses model
  have hrun : (Document.read ⟨0⟩ text).toOption.any (fun d =>
      Succeeds (Pass.render .root model .empty) ⟨.ofSettings s, d⟩ fun _ _ => true) = true := by
    rw [Document.read, Markup.events, toList_text]
    decide +kernel
  obtain ⟨d, hread, hsucceeds⟩ := exists_of_toOption_any hrun
  obtain ⟨counts, stage, hok, -⟩ := exists_of_succeeds hsucceeds
  have hcreate : Engine.create s = .ok (.ofSettings s) := by
    dsimp only [s]
    rfl
  have htags : Tags s := ⟨rfl, rfl, rfl⟩
  have hmodel : model.child? "root" = some (.map [("children", .list (Rose.values roses))]) := rfl
  have hscope : Scope.empty.find? "root" = none ∧ Scope.empty.find? "children" = none := ⟨rfl, rfl⟩
  obtain ⟨counts', stage', hok', hcontent⟩ | ⟨stage', herror, -⟩ :=
    render_mirrors hread hcreate htags hmodel rfl (Rose.held_values roses) rfl hscope
  · refine ⟨d, counts', stage', hread, htags, hok', ?_⟩
    rw [hcontent]
    rfl
  · cases hok.symm.trans herror

end NestedList
end LiveMarkup
