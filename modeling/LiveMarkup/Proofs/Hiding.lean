import LiveMarkup.Proofs.Sharing

/-! Hidden anchors. The mark that hides them may have any name that attributes can have. Where it is
none of the names that templates are read off, hiding leaves the templates of directives as they
are, and without recursive templates it is never seen whether a template comes from the cache or is
compiled anew. Where it is one of them, neither holds. -/
namespace LiveMarkup

variable {s : Settings} {d d' : Document}

/-- Each of the attributes that say what directives ask for makes a difference for one of them. -/
theorem Template.exists_ofDirective_ne {name : String} (h : name ∈ Document.directiveAttributes) :
    ∃ directive,
      ofDirective directive [(name, "x")] [] ≠ ofDirective directive [(name, "")] [] := by
  simp only [Document.directiveAttributes, List.mem_cons, List.not_mem_nil, or_false] at h
  rcases h with rfl | rfl | rfl | rfl | rfl | rfl
  · exact ⟨.repetition, by simp [ofDirective, sourceOf, Entries.get?]⟩
  · exact ⟨.repetition, by simp [ofDirective, sourceOf, Entries.get?]⟩
  · exact ⟨.repetition, by simp [ofDirective, sourceOf, Entries.get?, Option.filter]⟩
  · exact ⟨.conditional, by simp [ofDirective, Entries.get?]⟩
  · exact ⟨.recursive, by simp [ofDirective, Entries.get?]⟩
  · exact ⟨.recursive, by simp [ofDirective, Entries.get?]⟩

theorem Settings.sameTag_comm (a b : String) : sameTag a b = sameTag b a := BEq.comm

/-- With usable settings there are elements for all directives. -/
theorem Settings.exists_tag_of_fault? (h : s.fault? = none) (directive : Directive) :
    ∃ tag, Markup.isTagName tag = true ∧ s.directive? tag = some directive := by
  rw [fault?] at h
  split at h
  · cases h
  next htags =>
  split at h
  · cases h
  next hshared =>
  obtain ⟨hrepeat, hconditional, hrecursive⟩ : Markup.isTagName s.repeatTag = true ∧
      Markup.isTagName s.conditionalTag = true ∧ Markup.isTagName s.recursiveTag = true := by
    simpa using List.find?_eq_none.1 htags
  have hself : ∀ tag, sameTag tag tag = true := fun tag => BEq.rfl
  have hdistinct : sameTag s.repeatTag s.conditionalTag = false ∧
      sameTag s.repeatTag s.recursiveTag = false ∧
      sameTag s.conditionalTag s.recursiveTag = false := by
    rw [sharedTag?] at hshared
    grind
  cases directive with
  | repetition => exact ⟨s.repeatTag, hrepeat, by simp [directive?, hself]⟩
  | conditional =>
    refine ⟨s.conditionalTag, hconditional, ?_⟩
    simp [directive?, sameTag_comm s.conditionalTag s.repeatTag, hself, hdistinct]
  | recursive =>
    refine ⟨s.recursiveTag, hrecursive, ?_⟩
    simp [directive?, sameTag_comm s.recursiveTag, hself, hdistinct]

/-- A directive to which the mark of hidden ones makes a difference. -/
theorem Document.exists_template?_ne (hfault : s.fault? = none)
    (hname : s.hiddenAttribute ∈ directiveAttributes) : ∃ (d d' : Document) (x : NodeId),
      d.Reachable ∧ (d.directive? s x).isSome = true ∧
      d.setAttribute x s.hiddenAttribute "" = .ok d' ∧ d'.template? s x ≠ d.template? s x := by
  obtain ⟨directive, hne⟩ := Template.exists_ofDirective_ne hname
  obtain ⟨tag, htag, hdirective⟩ := Settings.exists_tag_of_fault? hfault directive
  have hvalid := (Settings.isAttributeName_of_fault? hfault).2
  obtain ⟨hfull, -⟩ | ⟨x, d₁, hcreate, hd₁, hs₁, -⟩ := (Sound.empty ⟨0⟩).createElement_in htag
  · exact absurd (Or.inr (by decide)) hfull
  obtain ⟨d₂, hset, hd₂, hs₂, -⟩ := hd₁.setAttribute_in hs₁ hvalid "x"
  obtain ⟨d₃, hhide, hd₃, hs₃, -⟩ := hd₂.setAttribute_in hs₂ hvalid ""
  have hreachable : d₂.Reachable :=
    .of_derives (.empty ⟨0⟩) (IsTrans.trans _ _ _ (Derives.createElement hcreate)
      (Derives.setAttribute hset))
  have hput : Entries.put s.hiddenAttribute "" (Entries.put s.hiddenAttribute "x" []) =
      [(s.hiddenAttribute, "")] := by simp [Entries.put]
  refine ⟨d₂, d₃, x, hreachable, ?_, hhide, ?_⟩
  · rw [directive?_of_element hs₂.1 rfl, hdirective]
    rfl
  · rw [Pass.template?_eq hd₃ hs₃, Pass.template?_eq hd₂ hs₂, hput, Template.compile,
      Template.compile, hdirective]
    exact fun h => hne (Option.some.inj h).symm

/-- What may be done with an engine between renderings. -/
inductive Care where
  | keep
  | clear
  | renew

def Engine.tend (e : Engine) : Care → Engine
  | .keep => e
  | .clear => e.clearCache
  | .renew => .ofSettings e.settings

/-- A rendering to be done. -/
structure Turn where
  root : NodeId
  model : Value
  scope : Scope

def Turn.render (turn : Turn) : Pass Counts := Pass.render turn.root turn.model turn.scope

namespace Stage

def tend (stage : Stage) (care : Care) : Stage := { stage with engine := stage.engine.tend care }

/-- The stage after renderings, failing ones included, each with some care before. -/
def renderAll (stage : Stage) (history : List (Care × Turn)) : Stage :=
  history.foldl (fun stage m => Pass.after m.2.render (stage.tend m.1)) stage

variable {stage a b : Stage}

theorem Fresh.tend (h : stage.Fresh s) (care : Care) : (stage.tend care).Fresh s := by
  cases care with
  | keep => exact h
  | clear => exact ⟨⟨h.fit.settings, h.fit.document, h.fit.registry, nofun⟩, nofun⟩
  | renew => exact ⟨⟨h.fit.settings, h.fit.document, nofun, nofun⟩, nofun⟩

theorem Quiet.tend (h : stage.Quiet s) (care : Care) : (stage.tend care).Quiet s := by
  cases care with
  | keep => exact h
  | clear =>
    refine ⟨?_, h.document, nofun⟩
    rw [Stage.tend, Engine.tend, Engine.clearCache, h.engine]
  | renew =>
    refine ⟨?_, h.document, nofun⟩
    rw [Stage.tend, Engine.tend, h.settings]

/-- Two stages with one document, both fresh and without recursive templates. -/
structure Alike (s : Settings) (a b : Stage) : Prop where
  quiet : a.Quiet s
  quiet' : b.Quiet s
  fresh : a.Fresh s
  fresh' : b.Fresh s
  document : b.document = a.document

theorem Alike.tend (h : Alike s a b) (care care' : Care) :
    Alike s (a.tend care) (b.tend care') :=
  ⟨h.quiet.tend care, h.quiet'.tend care', h.fresh.tend care, h.fresh'.tend care', h.document⟩

theorem outcome_document {α : Type} (work : Pass α) (stage : Stage) :
    (Pass.outcome work stage).2.1 = (Pass.after work stage).document := by
  rw [Pass.outcome, Pass.after]
  cases work stage <;> rfl

section

variable (hhidden : s.hiddenAttribute ∉ Document.directiveAttributes)
include hhidden

theorem Fresh.onward (h : stage.Fresh s) {turn : Turn}
    (hroot : stage.document.Plain s turn.root) : stage.Onward s (Pass.after turn.render stage) := by
  have hagrees : Agrees s turn.render stage stage.engine.cache fun _ _ => True :=
    agrees_render hhidden h h hroot
  exact hagrees.onward

/-- Renderings leave fresh stages and spare directives, whatever is done to the engine between. -/
theorem Fresh.renderAll (h : stage.Fresh s) (history : List (Care × Turn))
    (hroots : ∀ m ∈ history, stage.document.Plain s m.2.root) :
    (stage.renderAll history).Fresh s ∧
      stage.document.Spares s (stage.renderAll history).document := by
  induction history generalizing stage with
  | nil => exact ⟨h, Std.Refl.refl _⟩
  | cons m rest ih =>
    rw [List.forall_mem_cons] at hroots
    obtain ⟨hfresh, hspares, -⟩ := (h.tend m.1).onward hhidden hroots.1 (h.tend m.1)
    obtain ⟨hfresh', hspares'⟩ := ih hfresh fun m' hm' => hspares.plain (hroots.2 m' hm')
    exact ⟨hfresh', IsTrans.trans _ _ _ hspares hspares'⟩

/-- A rendering comes out alike, and leaves the stages alike. -/
theorem Alike.render (h : Alike s a b) {turn : Turn} (hroot : a.document.Plain s turn.root) :
    Pass.outcome turn.render b = Pass.outcome turn.render a ∧
      Alike s (Pass.after turn.render a) (Pass.after turn.render b) := by
  have hcache : b = a.withCache b.engine.cache := h.quiet.eq_withCache h.quiet' h.document
  have hagrees : Agrees s turn.render a b.engine.cache fun _ _ => True :=
    agrees_render hhidden h.fresh (hcache ▸ h.fresh') hroot
  have houtcome : Pass.outcome turn.render b = Pass.outcome turn.render a := by
    rw [hcache]
    exact hagrees.outcome_eq
  have hsecluded := Secluded.render (s := s) turn.root turn.model turn.scope
  refine ⟨houtcome, (hsecluded.after h.quiet.twins).1.left, (hsecluded.after h.quiet'.twins).1.left,
    (h.fresh.onward hhidden hroot h.fresh).1,
    (h.fresh'.onward hhidden (h.document ▸ hroot) h.fresh').1, ?_⟩
  rw [← outcome_document, ← outcome_document, houtcome]

theorem Alike.renderAll (h : Alike s a b) {history : List ((Care × Care) × Turn)}
    (hroots : ∀ m ∈ history, a.document.Plain s m.2.root) :
    Alike s (a.renderAll (history.map fun m => (m.1.1, m.2)))
      (b.renderAll (history.map fun m => (m.1.2, m.2))) := by
  induction history generalizing a b with
  | nil => exact h
  | cons m rest ih =>
    rw [List.forall_mem_cons] at hroots
    have htend := h.tend m.1.1 m.1.2
    obtain ⟨-, hspares, -⟩ := htend.fresh.onward hhidden hroots.1 htend.fresh
    exact ih (htend.render hhidden hroots.1).2 fun m' hm' => hspares.plain (hroots.2 m' hm')

end

end Stage

/-- Of usable settings: to hide a directive leaves its template as it is, if and only if the mark is
none of the attributes that templates are read off. Then all directives that are left by renderings
keep their templates; and in documents without recursive templates the renderings are the same,
whether the cache is kept, or cleared, or the engine is a new one. -/
theorem Engine.hiding_iff {engine : Engine} (hcreate : Engine.create s = .ok engine) :
    ((∀ (d d' : Document) (x : NodeId), d.Reachable → (d.directive? s x).isSome = true →
        d.setAttribute x s.hiddenAttribute "" = .ok d' → d'.template? s x = d.template? s x) ↔
      s.hiddenAttribute ∉ Document.directiveAttributes) ∧
    (s.hiddenAttribute ∉ Document.directiveAttributes → ∀ d : Document, d.Reachable →
      (∀ history : List (Care × Turn), (∀ m ∈ history, d.Plain s m.2.root) →
        let d' := (Stage.renderAll ⟨engine, d⟩ history).document
        ∀ x, (d'.directive? s x).isSome = true →
          d'.directive? s x = d.directive? s x ∧ d'.template? s x = d.template? s x) ∧
      ((∀ x, d.directive? s x ≠ some .recursive) →
        ∀ history : List ((Care × Care) × Turn), (∀ m ∈ history, d.Plain s m.2.root) →
          let a := Stage.renderAll ⟨engine, d⟩ (history.map fun m => (m.1.1, m.2))
          let b := Stage.renderAll ⟨engine, d⟩ (history.map fun m => (m.1.2, m.2))
          b.document = a.document ∧
            ∀ (care care' : Care) (turn : Turn), d.Plain s turn.root →
              Pass.outcome turn.render (b.tend care') = Pass.outcome turn.render (a.tend care))) := by
  obtain ⟨hfault, rfl⟩ := Engine.create_eq_ok hcreate
  refine ⟨⟨fun h hname => ?_, fun hname d d' x hd hdirective => ?_⟩, fun hname d hd => ?_⟩
  · obtain ⟨d, d', x, hd, hdirective, hset, hne⟩ := Document.exists_template?_ne hfault hname
    exact hne (h d d' x hd hdirective hset)
  · exact Document.template?_setAttribute hd.sound hname hdirective
  · have hfresh : Stage.Fresh s ⟨.ofSettings s, d⟩ := ⟨⟨rfl, hd.sound, nofun, nofun⟩, nofun⟩
    refine ⟨fun history hroots => (hfresh.renderAll hname history hroots).2.same,
      fun hnone history hroots => ?_⟩
    have hquiet : Stage.Quiet s ⟨.ofSettings s, d⟩ := ⟨rfl, ⟨hd.sound, hnone⟩, nofun⟩
    have halike : Stage.Alike s ⟨.ofSettings s, d⟩ ⟨.ofSettings s, d⟩ :=
      ⟨hquiet, hquiet, hfresh, hfresh, rfl⟩
    have hend := halike.renderAll hname hroots
    refine ⟨hend.document, fun care care' turn hroot => ?_⟩
    have hspares := (hfresh.renderAll hname (history.map fun m => (m.1.1, m.2))
      (List.forall_mem_map.2 hroots)).2
    exact ((hend.tend care care').render hname (hspares.plain hroot)).1

/-- A condition under the default settings: rendered, rendered again with the cache cleared, and
rendered once more by a new engine. -/
theorem Engine.hiding_iff_condition :
    let turn : Turn := ⟨.root, .map [("x", .bool true)], .empty⟩
    ∃ d, Document.read ⟨0⟩ "<if test=\"x\"><b/></if>" = .ok d ∧ d.Reachable ∧
      Engine.create .default = .ok (.ofSettings .default) ∧
      Settings.default.hiddenAttribute ∉ Document.directiveAttributes ∧
      d.Plain .default .root ∧ (∀ x, d.directive? .default x ≠ some .recursive) ∧
      (Stage.renderAll ⟨.ofSettings .default, d⟩
        [(.keep, turn), (.clear, turn), (.renew, turn)]).document.markup =
          "<b data-generated=\"true\"/><if test=\"x\" hidden=\"\"><b/></if>" := by
  intro turn
  have hrun : Option.any (fun d => decide (Tree.NonrecursiveAll .default d.content) &&
        (Stage.renderAll ⟨.ofSettings .default, d⟩
          [(.keep, turn), (.keep, turn), (.keep, turn)]).document.markup ==
          "<b data-generated=\"true\"/><if test=\"x\" hidden=\"\"><b/></if>")
      (Document.read ⟨0⟩ "<if test=\"x\"><b/></if>").toOption = true := by
    decide +kernel
  obtain ⟨d, hread, hrun⟩ := exists_of_toOption_any hrun
  simp only [Bool.and_eq_true, beq_iff_eq, decide_eq_true_eq] at hrun
  obtain ⟨hcontent, hmarkup⟩ := hrun
  have hd := Document.Reachable.of_read hread
  have hquiet := (Document.rooted_of_read hread).quiet hd.sound hcontent
  have hcreate : Engine.create .default = .ok (.ofSettings .default) := rfl
  have hname : Settings.default.hiddenAttribute ∉ Document.directiveAttributes := by decide
  have hroot := Document.plain_root (s := .default) hd.sound
  refine ⟨d, hread, hd, hcreate, hname, hroot, hquiet.nonrecursive, ?_⟩
  have hsame := ((Engine.hiding_iff hcreate).2 hname d hd).2 hquiet.nonrecursive
    [((.keep, .keep), turn), ((.keep, .clear), turn), ((.keep, .renew), turn)]
    (by simpa using hroot)
  exact (congrArg Document.markup hsame.1).trans hmarkup

/-- Hidden by a mark that is read as its condition, and compiled anew, a condition is never met. -/
theorem Engine.not_hiding_unseen : ¬ ∀ (s : Settings) (engine : Engine) (d : Document),
    Engine.create s = .ok engine → d.Reachable → (∀ x, d.directive? s x ≠ some .recursive) →
    ∀ turn : Turn, turn.root = .root →
      (Stage.renderAll ⟨engine, d⟩ [(.keep, turn), (.clear, turn)]).document =
        (Stage.renderAll ⟨engine, d⟩ [(.keep, turn), (.keep, turn)]).document := fun h => by
  obtain ⟨s, hs⟩ : ∃ s, s = { Settings.default with hiddenAttribute := "test" } := ⟨_, rfl⟩
  obtain ⟨turn, hturn⟩ : ∃ turn : Turn, turn = ⟨.root, .map [("x", .bool true)], .empty⟩ :=
    ⟨_, rfl⟩
  have hrun : Option.any (fun d => decide (Tree.NonrecursiveAll s d.content) &&
        (Stage.renderAll ⟨.ofSettings s, d⟩ [(.keep, turn), (.clear, turn)]).document.markup !=
          (Stage.renderAll ⟨.ofSettings s, d⟩ [(.keep, turn), (.keep, turn)]).document.markup)
      (Document.read ⟨0⟩ "<if test=\"x\"><b/></if>").toOption = true := by
    rw [hs, hturn]
    decide +kernel
  obtain ⟨d, hread, hrun⟩ := exists_of_toOption_any hrun
  simp only [Bool.and_eq_true, bne_iff_ne, decide_eq_true_eq] at hrun
  obtain ⟨hcontent, hne⟩ := hrun
  have hd := Document.Reachable.of_read hread
  have hquiet := (Document.rooted_of_read hread).quiet hd.sound hcontent
  have hcreate : Engine.create s = .ok (.ofSettings s) := by
    rw [hs]
    rfl
  have hroot : turn.root = .root := by rw [hturn]
  exact hne (congrArg Document.markup (h s _ d hcreate hd hquiet.nonrecursive turn hroot))

end LiveMarkup
