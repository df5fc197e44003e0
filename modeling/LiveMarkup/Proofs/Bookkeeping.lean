import Mathlib.Data.List.Forall2
import LiveMarkup.Proofs.Composition

/-! Bindings of dotted names, such as those of the sources of recursive templates, are out of reach
for paths. Where no repetition runs over such a source, a definition is expanded like a group. -/
namespace LiveMarkup

/-- Two frames bind the same values to names without a point. -/
def Frame.SameUndotted (f f' : Frame) : Prop :=
  ∀ name : String, '.' ∉ name.toList → Entries.get? name f = Entries.get? name f'

/-- Two scopes whose frames, one by one, differ in bindings of dotted names only. -/
def Scope.SameUndotted (a b : Scope) : Prop := List.Forall₂ Frame.SameUndotted a.frames b.frames

/-- Names without a point mean the same in two scopes. -/
def Scope.Agree (a b : Scope) : Prop :=
  ∀ name : String, '.' ∉ name.toList → a.find? name = b.find? name

section Frames

variable {name : String} {frame : Frame}

theorem ne_of_dotted {other : String} (h : '.' ∈ name.toList) (hother : '.' ∉ other.toList) :
    name ≠ other := by
  rintro rfl
  exact hother h

/-- A dotted name may be bound. -/
theorem Frame.sameUndotted_put (h : '.' ∈ name.toList) (value : Value) :
    Frame.SameUndotted frame (Entries.put name value frame) := fun other hother => by
  rw [Entries.get?_put, if_neg (ne_of_dotted h hother)]

/-- The binding of a dotted name may be dropped. -/
theorem Frame.sameUndotted_erase (h : '.' ∈ name.toList) :
    Frame.SameUndotted frame (Entries.erase name frame) := fun other hother => by
  rw [Entries.get?_erase, if_neg (ne_of_dotted h hother)]

end Frames

namespace Scope

variable {a b scope : Scope}

theorem SameUndotted.agree (h : a.SameUndotted b) : a.Agree b := by
  intro name hname
  rw [SameUndotted] at h
  rw [find?, find?]
  generalize a.frames = left, b.frames = right at h ⊢
  induction h with
  | nil => rfl
  | cons hframe _ ih => rw [List.findSome?_cons, List.findSome?_cons, hframe name hname, ih]

namespace Agree

theorem bind (h : a.Agree b) (key : String) (value : Value) :
    (a.child.bind key value).Agree (b.child.bind key value) := fun name hname => by
  rw [find?_bind, find?_bind, find?_child, find?_child, h name hname]

/-- The source of a recursive template is bound to a dotted name. -/
theorem sourceFrame (scope : Scope) (name : String) (source : Option String) :
    scope.Agree (Expansion.sourceFrame scope name source) := fun other hother => by
  cases source with
  | none => rfl
  | some path =>
    have hdotted : '.' ∈ (sourceBinding name).toList := by simp [sourceBinding]
    rw [Expansion.sourceFrame, find?_bind, if_neg (ne_of_dotted hdotted hother), find?_child]

theorem resolve_eq (h : a.Agree b) (path : String) (model : Value) :
    Path.resolve path model a = Path.resolve path model b := by
  rw [Path.resolve, Path.resolve]
  cases hsegments : Text.segments path with
  | nil => rfl
  | cons first rest =>
    have hmem : first ∈ Text.segments path := hsegments ▸ List.mem_cons_self ..
    obtain ⟨piece, hpiece, rfl⟩ := List.mem_map.1 hmem
    have hfirst := Text.not_mem_of_mem_splitDots hpiece
    rw [← String.toList_ofList (l := piece)] at hfirst
    simp only [Path.start?, h _ hfirst]

theorem fill_eq (h : a.Agree b) (id : NodeId) (model : Value) :
    Document.fill id model a = Document.fill id model b := by
  have hpiece : Placeholder.Piece.fill model a = Placeholder.Piece.fill model b := by
    funext piece
    cases piece with
    | plain c => rfl
    | token path => simp only [Placeholder.Piece.fill, Placeholder.shown, h.resolve_eq]
  have htext : ∀ text, Placeholder.fill text model a = Placeholder.fill text model b :=
    fun text => by
    simp only [Placeholder.fill, Placeholder.fillChars, hpiece]
  have hattribute : Document.fillAttribute id model a = Document.fillAttribute id model b := by
    funext pair
    simp only [Document.fillAttribute, htext]
  simp only [Document.fill, Document.fillText, htext, hattribute]

theorem makeElement_eq (h : a.Agree b) (tag : String) (attributes : List (String × String))
    (text : String) (model : Value) : Expansion.makeElement tag attributes text model a =
      Expansion.makeElement tag attributes text model b := by
  simp only [Expansion.makeElement, h.fill_eq]

theorem itemsAt_eq (h : a.Agree b) (path : String) (model : Value) :
    Expansion.itemsAt path model a = Expansion.itemsAt path model b := by
  rw [Expansion.itemsAt, Expansion.itemsAt, h.resolve_eq]

theorem holds_eq (h : a.Agree b) (test : Option String) (model : Value) :
    Expansion.holds test model a = Expansion.holds test model b := by
  simp only [Expansion.holds, h.resolve_eq]

end Agree
end Scope

def Stage.withRegistry (stage : Stage) (registry : Registry) : Stage :=
  { stage with engine.registry := registry }

variable {α β : Type}

/-- A result with another registry in the stage that is left. -/
def Pass.exchange (registry : Registry) :
    EStateM.Result TreeError Stage α → EStateM.Result TreeError Stage α
  | .ok a stage => .ok a (stage.withRegistry registry)
  | .error e stage => .error e (stage.withRegistry registry)

/-- On stages with the same documents, one work does what the other does, whatever the registries
are, and leaves its registry as it is. -/
def Parallel (work work' : Pass α) : Prop :=
  ∀ (stage : Stage) (registry : Registry),
    work' (stage.withRegistry registry) = Pass.exchange registry (work stage)

namespace Parallel

theorem pure (a : α) : Parallel (pure a) (pure a) := fun _ _ => rfl

theorem bind {work work' : Pass α} {next next' : α → Pass β} (h : Parallel work work')
    (hnext : ∀ a, Parallel (next a) (next' a)) : Parallel (work >>= next) (work' >>= next') := by
  intro stage registry
  have hwork := h stage registry
  cases hrun : work stage with
  | ok a t =>
    rw [hrun] at hwork
    rw [bind_eq_of_ok hwork, bind_eq_of_ok hrun]
    exact hnext a t registry
  | error e t =>
    rw [hrun] at hwork
    rw [bind_eq_of_error hwork, bind_eq_of_error hrun]
    rfl

/-- Work that looks at the stage first, but not at its registry. -/
theorem get {next next' : Stage → Pass α}
    (h : ∀ stage registry, Parallel (next stage) (next' (stage.withRegistry registry))) :
    Parallel (get >>= next) (get >>= next') := fun stage registry =>
  h stage registry stage registry

theorem edit (change : Edit α) : Parallel (Pass.edit change) (Pass.edit change) :=
  fun stage registry => by
    simp only [Pass.edit, Stage.withRegistry]
    cases change stage.document <;> rfl

theorem forM {step : β → Pass PUnit} (h : ∀ b, Parallel (step b) (step b)) (l : List β) :
    Parallel (l.forM step) (l.forM step) := by
  induction l with
  | nil => exact pure _
  | cons b l ih => exact (h b).bind fun _ => ih

theorem join {first first' second second' : Pass (List NodeId)} (h : Parallel first first')
    (h' : Parallel second second') : Parallel (do
      let nodes ← first
      let others ← second
      Pure.pure (nodes ++ others)) (do
      let nodes ← first'
      let others ← second'
      Pure.pure (nodes ++ others)) :=
  h.bind fun _ => h'.bind fun _ => pure _

theorem gather {make make' : β → Pass (List NodeId)} (h : ∀ b, Parallel (make b) (make' b))
    (l : List β) : Parallel (Pass.gather make l) (Pass.gather make' l) := by
  induction l with
  | nil => exact pure _
  | cons b l ih => exact (h b).join ih

end Parallel

/-- Nothing in the template defines or uses a recursive template or runs over the source of one. -/
inductive Template.Independent : Template → Prop
  | element {tag text : String} {attributes : List (String × String)} {children : Fragment}
    (h : ∀ t ∈ children, Independent t) : Independent (.element tag attributes text children)
  | repetition {source : Source} {binding : Option String} {children : Fragment}
    (hsource : ∀ name, source ≠ .recursive name) (h : ∀ t ∈ children, Independent t) :
    Independent (.repetition source binding children)
  | conditional {test : Option String} {children : Fragment} (h : ∀ t ∈ children, Independent t) :
    Independent (.conditional test children)

namespace Expansion

variable {opener opener' : Opener} {model : Value} {fragment : Fragment} {a b : Scope}

theorem parallel_makeElement (tag : String) (attributes : List (String × String)) (text : String)
    (model : Value) (scope : Scope) : Parallel (makeElement tag attributes text model scope)
      (makeElement tag attributes text model scope) := by
  refine .get fun stage registry => (Parallel.edit _).bind fun node => ?_
  have hfinish : Parallel (do
      attributes.forM fun a => Pass.apply (·.setAttribute node a.1 a.2)
      Pass.apply (·.setAttribute node stage.engine.settings.generatedAttribute "true")
      Pass.edit (Document.fill node model scope)
      pure node : Pass NodeId) (do
      attributes.forM fun a => Pass.apply (·.setAttribute node a.1 a.2)
      Pass.apply (·.setAttribute node stage.engine.settings.generatedAttribute "true")
      Pass.edit (Document.fill node model scope)
      pure node : Pass NodeId) :=
    (Parallel.forM (fun _ => .edit _) _).bind fun _ => (Parallel.edit _).bind fun _ =>
      (Parallel.edit _).bind fun _ => .pure _
  split
  · exact (Parallel.edit _).bind fun _ => (Parallel.edit _).bind fun _ => hfinish
  · exact hfinish

theorem parallel_expandAll (h : ∀ t ∈ fragment, ∀ {a b : Scope}, a.Agree b →
      Parallel (expand opener model t a) (expand opener' model t b)) (hscope : a.Agree b) :
    Parallel (expandAll opener model fragment a) (expandAll opener' model fragment b) := by
  induction fragment with
  | nil =>
    rw [expandAll, expandAll]
    exact .pure _
  | cons t rest ih =>
    rw [List.forall_mem_cons] at h
    rw [expandAll, expandAll]
    exact (h.1 hscope).join (ih h.2)

theorem parallel_expandInto (h : ∀ t ∈ fragment, ∀ {a b : Scope}, a.Agree b →
      Parallel (expand opener model t a) (expand opener' model t b)) (hscope : a.Agree b)
    (node : NodeId) :
    Parallel (expandInto opener model node fragment a)
      (expandInto opener' model node fragment b) := by
  induction fragment with
  | nil =>
    rw [expandInto, expandInto]
    exact .pure _
  | cons t rest ih =>
    rw [List.forall_mem_cons] at h
    rw [expandInto, expandInto]
    exact (h.1 hscope).bind fun _ => (Parallel.forM (fun _ => .edit _) _).bind fun _ => ih h.2

/-- Independent templates are expanded alike in scopes that agree, whatever is known of recursive
templates. -/
theorem parallel_expand {t : Template} (ht : t.Independent) (hscope : a.Agree b) :
    Parallel (expand opener model t a) (expand opener' model t b) := by
  induction ht generalizing a b with
  | @element tag text attributes children _ ih =>
    rw [expand, expand, hscope.makeElement_eq]
    refine .bind (parallel_makeElement tag attributes text model b) fun node => ?_
    exact (parallel_expandInto (fun t ht _ _ => ih t ht) hscope node).bind fun _ => .pure _
  | @repetition source binding children hsource _ ih =>
    rw [expand, expand]
    refine .get fun stage registry => ?_
    cases source with
    | path path =>
      simp only [sourcePath?, hscope.itemsAt_eq]
      exact .gather (fun item => parallel_expandAll (fun t ht _ _ => ih t ht)
        (hscope.bind _ item)) _
    | recursive name => exact absurd rfl (hsource name)
    | missing => exact .pure _
  | @conditional test children _ ih =>
    rw [expand, expand, hscope.holds_eq]
    split
    · exact parallel_expandAll (fun t ht _ _ => ih t ht) hscope
    · exact .pure _

end Expansion

/-- Bindings of dotted names make no difference to paths. So it makes none, but to the registry, if
independent templates are the children of a definition or of a group. -/
theorem Pass.bookkeeping_unseen (model : Value) :
    (∀ a b : Scope, a.SameUndotted b → ∀ path,
      Path.resolve path model b = Path.resolve path model a) ∧
    ∀ children : Fragment, (∀ t ∈ children, t.Independent) →
      ∀ (name : String) (target source other : Option String) (scope : Scope) (stage : Stage),
        Pass.expand (.recursive (some name) target source children) model scope stage =
          Pass.exchange (stage.engine.registry.register name ⟨source, children⟩).2
            (Pass.expand (.recursive none none other children) model scope stage) := by
  refine ⟨fun a b h path => (h.agree.resolve_eq path model).symm, ?_⟩
  intro children hchildren name target source other scope stage
  have hparallel : Parallel
      (Expansion.expandAll (Expansion.openWithin model
        (stage.engine.settings.maxDepth - stage.engine.depth)) model children scope)
      (Expansion.expandAll (Expansion.openWithin model
        (stage.engine.settings.maxDepth - stage.engine.depth)) model children
        (Expansion.sourceFrame scope name source)) :=
    Expansion.parallel_expandAll (fun t ht _ _ => Expansion.parallel_expand (hchildren t ht))
      (.sourceFrame scope name source)
  exact hparallel stage _

/-- A path that is spelt like a bookkeeping name, with such names bound and dropped around it. -/
theorem Pass.bookkeeping_unseen_lookalike :
    let model : Value := .map [("xs", .list [.string "1"]), ("n", .map [("of", .string "2")])]
    let outer : Frame := [("m.of", .string "3")]
    let a : Scope := ⟨[], [outer]⟩
    let b : Scope := ⟨Entries.put "n.of" (.string "4") [], [Entries.erase "m.of" outer]⟩
    let children : Fragment :=
      [.repetition (.path "xs") none [.element "b" [] "{{item}}{{n.of}}" []]]
    let stage : Stage := ⟨.ofSettings .default, .empty ⟨0⟩⟩
    a.SameUndotted b ∧ Path.resolve "n.of" model b = Path.resolve "n.of" model a ∧
    (∀ t ∈ children, t.Independent) ∧ ∃ nodes left,
      Pass.expand (.recursive none none none children) model b stage = .ok nodes left ∧
      Pass.expand (.recursive (some "n") none (some "xs") children) model b stage =
        .ok nodes (left.withRegistry [("n", ⟨some "xs", children⟩)]) ∧
      nodes.map left.document.serialize = ["<b data-generated=\"true\">12</b>"] := by
  intro model outer a b children stage
  have hscope : a.SameUndotted b :=
    .cons (Frame.sameUndotted_put (by decide) _) (.cons (Frame.sameUndotted_erase (by decide)) .nil)
  have hchildren : ∀ t ∈ children, t.Independent :=
    List.forall_mem_singleton.2 (.repetition nofun (List.forall_mem_singleton.2 (.element nofun)))
  have hrun : Succeeds (Pass.expand (.recursive none none none children) model b) stage
      (fun nodes left =>
        nodes.map left.document.serialize == ["<b data-generated=\"true\">12</b>"]) = true := by
    decide +kernel
  obtain ⟨nodes, left, hgroup, hmarkup⟩ := exists_of_succeeds hrun
  obtain ⟨hpaths, hexpand⟩ := Pass.bookkeeping_unseen model
  refine ⟨hscope, hpaths a b hscope "n.of", hchildren, nodes, left, hgroup, ?_, eq_of_beq hmarkup⟩
  have hdefinition := hexpand children hchildren "n" none (some "xs") none b stage
  rwa [hgroup] at hdefinition

end LiveMarkup
