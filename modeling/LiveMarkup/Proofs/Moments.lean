import LiveMarkup.Proofs.Composition
import LiveMarkup.Proofs.Passing
import LiveMarkup.Proofs.Visits

/-! The moments of renderings, at each of which one template is about to be expanded. All that a
rendering defines it defines at one of them. -/
namespace LiveMarkup

/-- A template that is about to be expanded. -/
structure Moment where
  template : Template
  scope : Scope
  stage : Stage

/-- A row of templates that is about to be expanded, with room for so many uses of recursive
templates inside each other. -/
structure Opening where
  room : Nat
  fragment : Fragment
  scope : Scope
  stage : Stage

namespace Expansion

/-- The rows that the expansion of a directive comes to: the children of the directive, once for
each item of a repetition, or the fragment that a recursive template uses. -/
inductive Opens (model : Value) (scope : Scope) (stage : Stage) : Nat → Template → Opening → Prop
  | repetition {room : Nat} {source : Source} {binding : Option String} {path name : String}
    {earlier later : List Value} {item : Value} {children : Fragment} {nodes : List NodeId}
    {stage₁ : Stage} (hpath : sourcePath? stage.engine.registry scope source = some path)
    (hname : name = binding.getD stage.engine.settings.defaultBinding)
    (hitems : itemsAt path model scope = earlier ++ item :: later)
    (hearlier : Pass.gather (fun item => expandAll (openWithin model room) model children
      (scope.child.bind name item)) earlier stage = .ok nodes stage₁) :
    Opens model scope stage room (.repetition source binding children)
      ⟨room, children, scope.child.bind name item, stage₁⟩
  | conditional {room : Nat} {test : Option String} {children : Fragment}
    (hholds : holds test model scope = true) :
    Opens model scope stage room (.conditional test children) ⟨room, children, scope, stage⟩
  | definition {room : Nat} {name : String} {target source : Option String} {children : Fragment} :
    Opens model scope stage room (.recursive (some name) target source children)
      ⟨room, children, sourceFrame scope name source, { stage with engine.registry :=
        (stage.engine.registry.register name ⟨source, children⟩).2 }⟩
  | use {room : Nat} {name : String} {source : Option String} {children : Fragment}
    {definition : Definition}
    (hfound : stage.engine.registry.instance? name source = some definition)
    (hdepth : stage.engine.depth < stage.engine.settings.maxDepth) :
    Opens model scope stage (room + 1) (.recursive none (some name) source children)
      ⟨room, definition.fragment, sourceFrame scope name definition.source,
        { stage with engine.depth := stage.engine.depth + 1 }⟩
  | group {room : Nat} {source : Option String} {children : Fragment} :
    Opens model scope stage room (.recursive none none source children)
      ⟨room, children, scope, stage⟩

/-- The moments of the expansion of a template: its own, and those of the templates that it comes
to, each after what stands before it in its row has been expanded. -/
inductive Meets (model : Value) : Nat → Template → Scope → Stage → Moment → Prop
  | here {room : Nat} {t : Template} {scope : Scope} {stage : Stage} :
    Meets model room t scope stage ⟨t, scope, stage⟩
  | child {room : Nat} {tag text : String} {attributes : List (String × String)}
    {before after : Fragment} {t : Template} {scope : Scope} {node : NodeId}
    {stage stage₁ stage₂ : Stage} {m : Moment}
    (hmake : makeElement tag attributes text model scope stage = .ok node stage₁)
    (hbefore : expandInto (openWithin model room) model node before scope stage₁ = .ok ⟨⟩ stage₂)
    (h : Meets model room t scope stage₂ m) :
    Meets model room (.element tag attributes text (before ++ t :: after)) scope stage m
  | opened {room : Nat} {t u : Template} {scope : Scope} {o : Opening} {before after : Fragment}
    {nodes : List NodeId} {stage stage₁ : Stage} {m : Moment}
    (hopens : Opens model scope stage room t o) (hfragment : o.fragment = before ++ u :: after)
    (hbefore : expandAll (openWithin model o.room) model before o.scope o.stage = .ok nodes stage₁)
    (h : Meets model o.room u o.scope stage₁ m) : Meets model room t scope stage m

end Expansion

namespace Rendering

/-- A rendering of what is below a node comes to a child that was not generated, after it has
visited what stands before the child. -/
def ComesTo (model : Value) (scope : Scope) (fuel : Nat) (parent child : NodeId)
    (stage stage' : Stage) : Prop :=
  ∃ before after visits, stage.document.childElements parent = before ++ child :: after ∧
    Pass.visitAll (Pass.visitChild model scope (Pass.visitChildren model scope fuel) parent) before
      stage = .ok visits stage' ∧
    stage'.document.isGenerated stage'.engine.settings child = false

/-- The moments of a rendering of what is below a node: those of the expansions of the anchors that
it comes to. -/
inductive Meets (model : Value) (scope : Scope) : Nat → NodeId → Stage → Moment → Prop
  | anchor {fuel swept : Nat} {parent child : NodeId} {t : Template} {stage stage₁ stage₂ : Stage}
    {m : Moment} (hcomes : ComesTo model scope fuel parent child stage stage₁)
    (hdirective : (stage₁.document.directive? stage₁.engine.settings child).isSome = true)
    (hsweep : Pass.sweep child stage₁ = .ok swept stage₂)
    (htemplate : (stage₂.lookUp child).1 = some t)
    (h : Expansion.Meets model (stage₂.engine.settings.maxDepth - stage₂.engine.depth) t scope
      (stage₂.withCache (stage₂.lookUp child).2) m) : Meets model scope (fuel + 1) parent stage m
  | inside {fuel : Nat} {parent child : NodeId} {stage stage₁ stage₂ : Stage} {m : Moment}
    (hcomes : ComesTo model scope fuel parent child stage stage₁)
    (hplain : stage₁.document.directive? stage₁.engine.settings child = none)
    (hfill : Pass.edit (Document.fill child model scope) stage₁ = .ok ⟨⟩ stage₂)
    (h : Meets model scope fuel child stage₂ m) : Meets model scope (fuel + 1) parent stage m

end Rendering

/-- The moments of a rendering of the whole document. -/
def Stage.Meets (stage : Stage) (model : Value) (scope : Scope) (m : Moment) : Prop :=
  Rendering.Meets model scope stage.document.slots.size .root { stage with engine.depth := 0 } m

/-- The registries of the stages are related. -/
def Stage.Registers (R : Registry → Registry → Prop) (stage stage' : Stage) : Prop :=
  R stage.engine.registry stage'.engine.registry

/-- Wherever the work starts, it changes the registry by the relation. -/
def Pass.Registers {α : Type} (R : Registry → Registry → Prop) (work : Pass α) : Prop :=
  ∀ stage, Moves (Stage.Registers R) work stage fun _ _ => True

section

variable {α β : Type} {R : Registry → Registry → Prop} [Std.Refl R] [IsTrans Registry R]
  {model : Value} {scope : Scope} {stage : Stage}

instance : Std.Refl (Stage.Registers R) := ⟨fun stage => Std.Refl.refl stage.engine.registry⟩

instance : IsTrans Stage (Stage.Registers R) :=
  ⟨fun a b c => IsTrans.trans a.engine.registry b.engine.registry c.engine.registry⟩

namespace Pass.Registers

omit [IsTrans Registry R] in
theorem edit (change : Edit α) : Registers R (Pass.edit change) :=
  Pass.KeepsTo.edit (fun stage _ => Std.Refl.refl stage.engine.registry) change

/-- Edits leave the registry alone. -/
theorem closed {Good : Template → Prop}
    (hgood : ∀ {t u : Template}, Good t → u ∈ t.children → Good u) :
    Pass.Closed Good (Registers R) :=
  Pass.KeepsTo.closed (fun stage _ => Std.Refl.refl stage.engine.registry) hgood

end Pass.Registers

omit [Std.Refl R] [IsTrans Registry R] in
theorem Pass.moves_inner_registers {work : Pass α}
    (h : Moves (Stage.Registers R) work { stage with engine.depth := stage.engine.depth + 1 }
      fun _ _ => True) : Moves (Stage.Registers R) (Pass.inner work) stage fun _ _ => True :=
  Pass.moves_inner_of h (fun _ => id) fun _ _ => id

section

variable {S : Stage → Stage → Prop} [Std.Refl S] [IsTrans Stage S] {l : List β}

theorem Pass.moves_gather {make : β → Pass (List NodeId)}
    (h : ∀ before b after nodes t, l = before ++ b :: after →
      gather make before stage = .ok nodes t → Moves S (make b) t fun _ _ => True) :
    Moves S (gather make l) stage fun _ _ => True := by
  induction l generalizing stage with
  | nil => exact .pure trivial
  | cons b rest ih =>
    refine (h [] b rest [] stage rfl rfl).bind_run fun nodes t hb _ => ?_
    refine (ih fun before c after others u hrest hrun => ?_).bind fun _ _ _ _ => .pure trivial
    refine h (b :: before) c after (nodes ++ others) u (by rw [hrest, List.cons_append]) ?_
    rw [gather, bind_eq_of_ok hb, bind_eq_of_ok hrun]
    rfl

theorem Pass.moves_visitAll {work : β → Pass (List Visit)}
    (h : ∀ before b after visits t, l = before ++ b :: after →
      visitAll work before stage = .ok visits t → S stage t →
      Moves S (work b) t fun _ _ => True) :
    Moves S (visitAll work l) stage fun _ _ => True := by
  induction l generalizing stage with
  | nil => exact .pure trivial
  | cons b rest ih =>
    have hfirst := h [] b rest [] stage rfl rfl (Std.Refl.refl stage)
    refine hfirst.bind_run fun visits t hb _ => ?_
    have hS := (hfirst.of_run hb).1
    refine (ih fun before c after others u hrest hrun hS' => ?_).bind
      fun _ _ _ _ => .pure trivial
    refine h (b :: before) c after (visits ++ others) u (by rw [hrest, List.cons_append]) ?_
      (IsTrans.trans _ _ _ hS hS')
    rw [visitAll, bind_eq_of_ok hb, bind_eq_of_ok hrun]
    rfl

end

/-- What is defined at the moments changes the registry by the relation. -/
def DefinesBy (R : Registry → Registry → Prop) (moments : Moment → Prop) : Prop :=
  ∀ m, moments m → ∀ name target source children,
    m.template = .recursive (some name) target source children →
    R m.stage.engine.registry (m.stage.engine.registry.register name ⟨source, children⟩).2

namespace Expansion

variable {room : Nat} {t : Template} {fragment : Fragment} {opener : Opener}

theorem moves_expandInto {node : NodeId}
    (h : ∀ before t after stage', fragment = before ++ t :: after →
      expandInto opener model node before scope stage = .ok ⟨⟩ stage' →
      Moves (Stage.Registers R) (expand opener model t scope) stage' fun _ _ => True) :
    Moves (Stage.Registers R) (expandInto opener model node fragment scope) stage
      fun _ _ => True := by
  have hclosed : Pass.Closed (fun _ => True) (Pass.Registers R) :=
    Pass.Registers.closed fun _ _ => trivial
  induction fragment generalizing stage with
  | nil =>
    rw [expandInto]
    exact .pure trivial
  | cons t rest ih =>
    rw [expandInto]
    have hfirst := h [] t rest stage rfl (by rw [expandInto]; rfl)
    refine hfirst.bind_run fun outputs stage₁ ht _ => ?_
    have happend : Pass.Registers R (outputs.forM fun output =>
        Pass.apply (·.append node output)) :=
      hclosed.forM fun output _ => hclosed.append node output
    refine (happend stage₁).bind_run fun _ stage₂ hloop _ => ?_
    refine ih fun before u after stage₃ hrest hrun => h (t :: before) u after stage₃ ?_ ?_
    · rw [hrest, List.cons_append]
    · rw [expandInto, bind_eq_of_ok ht, bind_eq_of_ok hloop, hrun]

/-- What the expansion of a directive comes to, given what the templates in it do. -/
theorem Opens.moves {o : Opening} (h : Opens model scope stage room t o)
    (hmoments : DefinesBy R (Meets model room t scope stage))
    (ih : ∀ u ∈ o.fragment, ∀ stage, DefinesBy R (Meets model o.room u o.scope stage) →
      Moves (Stage.Registers R) (expand (openWithin model o.room) model u o.scope) stage
        fun _ _ => True) :
    Moves (Stage.Registers R) (expandAll (openWithin model o.room) model o.fragment o.scope) o.stage
      fun _ _ => True := by
  rw [Pass.expandAll_eq_gather]
  refine Pass.moves_gather fun before u after nodes stage' hfragment hrun => ?_
  rw [← Pass.expandAll_eq_gather] at hrun
  exact ih u (by simp [hfragment]) stage' fun m hm => hmoments m (.opened h hfragment hrun hm)

theorem moves_expand_of_opener
    (hopener : ∀ k, room = k + 1 → ∀ t scope stage, DefinesBy R (Meets model k t scope stage) →
      Moves (Stage.Registers R) (expand (openWithin model k) model t scope) stage fun _ _ => True)
    (hmoments : DefinesBy R (Meets model room t scope stage)) :
    Moves (Stage.Registers R) (expand (openWithin model room) model t scope) stage
      fun _ _ => True := by
  have hclosed : Pass.Closed (fun _ => True) (Pass.Registers R) :=
    Pass.Registers.closed fun _ _ => trivial
  induction t using Template.induction generalizing scope stage with
  | element tag attributes text children ih =>
    have hmade : Pass.Registers R (makeElement tag attributes text model scope) :=
      @Pass.Closed.makeElement _ _ hclosed model tag attributes text children trivial scope
    rw [expand]
    refine (hmade stage).bind_run fun node stage₁ hmake _ => ?_
    refine (moves_expandInto fun before u after stage₂ hchildren hrun => ?_).bind
      fun _ _ _ _ => .pure trivial
    subst hchildren
    exact ih u (by simp) fun m hm => hmoments m (.child hmake hrun hm)
  | repetition source binding children ih =>
    rw [expand]
    refine .get ?_
    dsimp only
    split
    · exact .pure trivial
    · next path hpath =>
      refine Pass.moves_gather fun earlier item later nodes stage' hitems hrun => ?_
      exact (Opens.repetition hpath rfl hitems hrun).moves hmoments fun u hu _ => ih u hu
  | conditional test children ih =>
    rw [expand]
    split
    · next hholds => exact (Opens.conditional hholds).moves hmoments fun u hu _ => ih u hu
    · exact .pure trivial
  | recursive name target source children ih =>
    cases name with
    | some name =>
      rw [expand]
      have hdefine : Moves (Stage.Registers R) (Pass.modifyEngine fun e =>
          { e with registry := (e.registry.register name ⟨source, children⟩).2 }) stage
          fun _ t => t = { stage with engine.registry :=
            (stage.engine.registry.register name ⟨source, children⟩).2 } :=
        ⟨hmoments _ .here name target source children rfl, rfl⟩
      refine hdefine.bind fun _ t _ ht => ?_
      subst ht
      exact Opens.definition.moves hmoments fun u hu _ => ih u hu
    | none =>
      cases target with
      | none =>
        rw [expand]
        exact Opens.group.moves hmoments fun u hu _ => ih u hu
      | some target =>
        rw [expand]
        refine .get ?_
        split
        · exact .pure trivial
        · next definition hfound =>
          split
          · exact .pure trivial
          · next hdepth =>
            refine Pass.moves_inner_registers ?_
            cases room with
            | zero => exact .pure trivial
            | succ k =>
              exact (Opens.use hfound (Nat.lt_of_not_le hdepth)).moves hmoments
                fun u _ => hopener k rfl u _

/-- What holds of the definitions that are made at the moments of an expansion holds of it all. -/
theorem moves_expand (room : Nat) (t : Template) (scope : Scope) (stage : Stage)
    (hmoments : DefinesBy R (Meets model room t scope stage)) :
    Moves (Stage.Registers R) (expand (openWithin model room) model t scope) stage
      fun _ _ => True := by
  induction room generalizing t scope stage with
  | zero => exact moves_expand_of_opener nofun hmoments
  | succ room ih =>
    refine moves_expand_of_opener (fun k hk => ?_) hmoments
    obtain rfl : room = k := Nat.succ.inj hk
    exact ih

end Expansion

/-- The same of a rendering. -/
theorem Rendering.moves_visitChildren {fuel : Nat} {parent : NodeId}
    (hmoments : DefinesBy R (Rendering.Meets model scope fuel parent stage)) :
    Moves (Stage.Registers R) (Pass.visitChildren model scope fuel parent) stage
      fun _ _ => True := by
  have hclosed : Pass.Closed (fun _ => True) (Pass.Registers R) :=
    Pass.Registers.closed fun _ _ => trivial
  induction fuel generalizing parent stage with
  | zero => exact .pure trivial
  | succ fuel ih =>
    refine .get (Pass.moves_visitAll fun before child after visits stage₁ hrow hrun _ => .get ?_)
    dsimp only
    split
    · exact .pure trivial
    next hauthored =>
    have hcomes : ComesTo model scope fuel parent child stage stage₁ :=
      ⟨before, after, visits, hrow, hrun, by simpa using hauthored⟩
    split
    · next hdirective =>
      refine (hclosed.sweep child stage₁).bind_run fun swept stage₂ hsweep _ => ?_
      have hexpand : Moves (Stage.Registers R) (Pass.expandNode child model scope) stage₂
          fun _ _ => True := by
        refine .later (Pass.expandNode_eq ..) (Std.Refl.refl stage₂.engine.registry) ?_
        cases htemplate : (stage₂.lookUp child).1 with
        | none => exact .pure trivial
        | some t =>
          exact Expansion.moves_expand _ t scope _ fun m hm =>
            hmoments m (.anchor hcomes hdirective hsweep htemplate hm)
      refine hexpand.bind fun nodes stage₃ _ _ => ?_
      have hput : Pass.Registers R (nodes.forM fun node =>
          Pass.apply (·.insertBefore parent node child)) :=
        hclosed.forM fun node _ => hclosed.insertBefore parent node child
      refine (hput stage₃).bind fun _ stage₄ _ _ => .get ?_
      exact (hclosed.setAttribute _ _ _ stage₄).bind fun _ _ _ _ => .pure trivial
    · next hdirective =>
      refine (hclosed.fill child model scope stage₁).bind_run fun _ stage₂ hfill _ => ?_
      exact ih fun m hm => hmoments m (.inside hcomes (by simpa using hdirective) hfill hm)

end

/-- What a rendering of the whole document newly defines, failing as it may, it defines at one of
its moments. -/
theorem Stage.exists_defining {name : String} {model : Value} {scope : Scope} {stage : Stage}
    (hbefore : Entries.get? name stage.engine.registry = none)
    (hafter : Entries.get? name
      (Pass.after (Pass.render .root model scope) stage).engine.registry ≠ none) :
    ∃ m, stage.Meets model scope m ∧ ∃ target source children,
      m.template = .recursive (some name) target source children := by
  by_contra hnone
  obtain ⟨R, hR⟩ : ∃ R : Registry → Registry → Prop, R = fun r r' =>
    Entries.get? name r = none → Entries.get? name r' = none := ⟨_, rfl⟩
  have : Std.Refl R := ⟨fun r => by rw [hR]; exact id⟩
  have : IsTrans Registry R := ⟨fun a b c => by rw [hR]; exact fun h h' ha => h' (h ha)⟩
  have hmoments : DefinesBy R (stage.Meets model scope) := by
    intro m hm own target source children htemplate
    rw [hR]
    intro habsent
    rw [Registry.register, Entries.get?_put, if_neg, habsent]
    rintro rfl
    exact hnone ⟨m, hm, target, source, children, htemplate⟩
  have hmoves : Moves (Stage.Registers R) (Pass.render .root model scope) stage
      fun _ _ => True := by
    rw [Pass.render_eq_map, ← bind_pure_comp]
    have hvisits : Moves (Stage.Registers R) (Pass.visits .root model scope) stage
        fun _ _ => True :=
      .later rfl (Std.Refl.refl stage.engine.registry) (Rendering.moves_visitChildren hmoments)
    exact hvisits.bind fun _ _ _ _ => .pure trivial
  have hend := hmoves.after
  rw [Stage.Registers, hR] at hend
  exact hafter (hend hbefore)

end LiveMarkup
