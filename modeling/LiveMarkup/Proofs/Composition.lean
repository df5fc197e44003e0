import LiveMarkup.Proofs.Denotation
import LiveMarkup.Proofs.Moves
import LiveMarkup.Render

/-! What passes have of their parts. A property that passes on from the parts of a pass to the whole
holds of every expansion and every rendering, as soon as the single edits have it. -/
namespace LiveMarkup

variable {α β : Type}

/-- One use of a recursive template further in. -/
def Stage.enter (stage : Stage) : Stage :=
  { stage with engine.depth := stage.engine.depth + 1 }

def Stage.leave (stage : Stage) : Stage :=
  { stage with engine.depth := stage.engine.depth - 1 }

def Stage.withCache (stage : Stage) (cache : Cache) : Stage :=
  { stage with engine.cache := cache }

/-- The template of a node, from the cache or compiled, and the cache with it. -/
def Stage.lookUp (stage : Stage) (id : NodeId) : Option Template × Cache :=
  stage.engine.cache.getOrCompile stage.document.tree id fun _ =>
    stage.document.template? stage.engine.settings id

theorem Stage.get?_lookUp (stage : Stage) (id : NodeId) (key : TreeId × NodeId) :
    Entries.get? key (stage.lookUp id).2.entries =
      if key = (stage.document.tree, id) then (stage.lookUp id).1
      else Entries.get? key stage.engine.cache.entries :=
  Cache.get?_getOrCompile ..

namespace Pass

theorem expandNode_eq (id : NodeId) (model : Value) (scope : Scope) (stage : Stage) :
    expandNode id model scope stage =
      ((stage.lookUp id).1.elim (pure []) fun t => expand t model scope)
        (stage.withCache (stage.lookUp id).2) := by
  refine (get_bind _ stage).trans ?_
  generalize hlooked : stage.lookUp id = looked
  rw [Stage.lookUp] at hlooked
  dsimp only
  rw [hlooked]
  cases looked.1 <;> rfl

theorem inner_eq (work : Pass α) (stage : Stage) :
    Pass.inner work stage = match work stage.enter with
      | .ok a stage' => .ok a stage'.leave
      | .error e stage' => .error e stage'.leave := rfl

/-- Work one use further in leads to where the work itself leads, seen from outside. -/
theorem moves_inner_of {R Q : Stage → Stage → Prop} {work : Pass α} {stage : Stage}
    {post post' : α → Stage → Prop} (h : Moves Q work stage.enter post)
    (hleave : ∀ t, Q stage.enter t → R stage t.leave)
    (hpost : ∀ a t, post a t → post' a t.leave) : Moves R (Pass.inner work) stage post' := by
  rw [Moves] at h ⊢
  rw [inner_eq]
  cases hrun : work stage.enter with
  | ok a t =>
    rw [hrun] at h
    exact ⟨hleave t h.1, hpost a t h.2⟩
  | error e t =>
    rw [hrun] at h
    exact hleave t h

theorem expandAll_eq_gather {opener : Opener} {model : Value} (fragment : Fragment)
    (scope : Scope) : Expansion.expandAll opener model fragment scope =
      gather (fun t => Expansion.expand opener model t scope) fragment := by
  induction fragment with
  | nil => rw [Expansion.expandAll, gather]
  | cons t rest ih => rw [Expansion.expandAll, ih, gather]

/-- A property of passes that the single edits have, those among them that make elements for good
templates only, and that passes on to what is made of passes one after another. Between them a pass
may look at the stage, but not at the cache. -/
structure Closed (Good : Template → Prop) (P : {α : Type} → Pass α → Prop) : Prop where
  good_of_mem : ∀ {t u : Template}, Good t → u ∈ t.children → Good u
  pure : ∀ {α : Type} (a : α), P (pure a)
  bind : ∀ {α β : Type} {work : Pass α} {next : α → Pass β}, P work → (∀ a, P (next a)) →
    P (work >>= next)
  look : ∀ {α : Type} {next : Stage → Pass α}, (∀ stage, P (next stage)) →
    (∀ stage cache, next (stage.withCache cache) = next stage) → P (get >>= next)
  createElement : ∀ {tag attributes text children}, Good (.element tag attributes text children) →
    P (edit (Edit.create (·.createElement tag)))
  setDirectText : ∀ id content, P (edit (Document.setDirectText id content))
  setNote : ∀ id key value, P (apply (·.setNote id key value))
  setAttribute : ∀ id name value, P (apply (·.setAttribute id name value))
  fill : ∀ id model scope, P (edit (Document.fill id model scope))
  append : ∀ parent child, P (apply (·.append parent child))
  insertBefore : ∀ parent child reference, P (apply (·.insertBefore parent child reference))
  remove : ∀ id, P (apply (·.remove id))

namespace Closed

variable {Good : Template → Prop} {P : {α : Type} → Pass α → Prop} (hP : Closed Good P)
include hP

theorem forM {l : List α} {step : α → Pass PUnit} (h : ∀ a ∈ l, P (step a)) : P (l.forM step) := by
  induction l with
  | nil => exact hP.pure _
  | cons a l ih =>
    rw [List.forall_mem_cons] at h
    exact hP.bind h.1 fun _ => ih h.2

theorem join {first second : Pass (List NodeId)} (h : P first) (h' : P second) : P (do
    let nodes ← first
    let others ← second
    Pure.pure (nodes ++ others)) :=
  hP.bind h fun _ => hP.bind h' fun _ => hP.pure _

theorem gather {make : α → Pass (List NodeId)} {l : List α} (h : ∀ a ∈ l, P (make a)) :
    P (Pass.gather make l) := by
  induction l with
  | nil => exact hP.pure _
  | cons a l ih =>
    rw [List.forall_mem_cons] at h
    exact hP.join h.1 (ih h.2)

variable {opener : Opener} {model : Value} {scope : Scope} {fragment : Fragment}

theorem makeElement {tag : String} {attributes : List (String × String)} {text : String}
    {children : Fragment} (ht : Good (.element tag attributes text children)) (scope : Scope) :
    P (Expansion.makeElement tag attributes text model scope) := by
  refine hP.look (fun stage => hP.bind (hP.createElement ht) fun node => ?_) fun _ _ => rfl
  have hfinish : P (do
      attributes.forM fun a => apply (·.setAttribute node a.1 a.2)
      apply (·.setAttribute node stage.engine.settings.generatedAttribute "true")
      edit (Document.fill node model scope)
      Pure.pure node : Pass NodeId) :=
    hP.bind (hP.forM fun _ _ => hP.setAttribute ..) fun _ => hP.bind (hP.setAttribute ..) fun _ =>
      hP.bind (hP.fill ..) fun _ => hP.pure _
  split
  · exact hP.bind (hP.setDirectText ..) fun _ => hP.bind (hP.setNote ..) fun _ => hfinish
  · exact hfinish

theorem expandAll (h : ∀ t ∈ fragment, ∀ scope, P (Expansion.expand opener model t scope))
    (scope : Scope) : P (Expansion.expandAll opener model fragment scope) := by
  induction fragment with
  | nil =>
    rw [Expansion.expandAll]
    exact hP.pure _
  | cons t rest ih =>
    rw [List.forall_mem_cons] at h
    rw [Expansion.expandAll]
    exact hP.join (h.1 scope) (ih h.2)

theorem expandInto (h : ∀ t ∈ fragment, ∀ scope, P (Expansion.expand opener model t scope))
    (node : NodeId) (scope : Scope) :
    P (Expansion.expandInto opener model node fragment scope) := by
  induction fragment with
  | nil =>
    rw [Expansion.expandInto]
    exact hP.pure _
  | cons t rest ih =>
    rw [List.forall_mem_cons] at h
    rw [Expansion.expandInto]
    exact hP.bind (h.1 scope) fun _ => hP.bind (hP.forM fun _ _ => hP.append ..) fun _ => ih h.2

/-- Expanding a good template, given what there is to say of recursive ones. -/
theorem expand (hrecursive : ∀ {name target source children},
      Good (.recursive name target source children) →
      (∀ scope, P (Expansion.expandAll opener model children scope)) →
      ∀ scope, P (Expansion.expand opener model (.recursive name target source children) scope))
    {t : Template} (ht : Good t) (scope : Scope) : P (Expansion.expand opener model t scope) := by
  induction t using Template.induction generalizing scope with
  | element tag attributes text children ih =>
    rw [Expansion.expand]
    refine hP.bind (hP.makeElement ht scope) fun node => ?_
    exact hP.bind (hP.expandInto (fun u hu => ih u hu (hP.good_of_mem ht hu)) node scope) fun _ =>
      hP.pure _
  | repetition source binding children ih =>
    rw [Expansion.expand]
    refine hP.look (fun stage => ?_) fun _ _ => rfl
    split
    · exact hP.pure _
    · exact hP.gather fun _ _ => hP.expandAll (fun u hu => ih u hu (hP.good_of_mem ht hu)) _
  | conditional test children ih =>
    rw [Expansion.expand]
    split
    · exact hP.expandAll (fun u hu => ih u hu (hP.good_of_mem ht hu)) scope
    · exact hP.pure _
  | recursive name target source children ih =>
    exact hrecursive ht (hP.expandAll fun u hu => ih u hu (hP.good_of_mem ht hu)) scope

theorem sweep (anchor : NodeId) : P (Pass.sweep anchor) :=
  hP.look (fun _ => hP.bind (hP.forM fun _ _ => hP.remove _) fun _ => hP.pure _) fun _ _ => rfl

theorem sum {work : α → Pass Counts} {l : List α} (h : ∀ a ∈ l, P (work a)) :
    P (Pass.sum work l) := by
  induction l with
  | nil => exact hP.pure _
  | cons a l ih =>
    rw [List.forall_mem_cons] at h
    exact hP.bind h.1 fun _ => hP.bind (ih h.2) fun _ => hP.pure _

variable (hnode : ∀ id, P (Pass.expandNode id model scope))
include hnode

theorem renderAnchor (parent anchor : NodeId) : P (Pass.renderAnchor parent anchor model scope) :=
  hP.bind (hP.sweep anchor) fun _ => hP.bind (hnode anchor) fun _ =>
    hP.bind (hP.forM fun _ _ => hP.insertBefore ..) fun _ =>
      hP.look (fun _ => hP.bind (hP.setAttribute ..) fun _ => hP.pure _) fun _ _ => rfl

theorem renderChildren (fuel : Nat) (parent : NodeId) :
    P (Pass.renderChildren model scope fuel parent) := by
  induction fuel generalizing parent with
  | zero => exact hP.pure _
  | succ fuel ih =>
    refine hP.look (fun _ => hP.sum fun child _ => hP.look (fun _ => ?_) fun _ _ => rfl)
      fun _ _ => rfl
    dsimp only
    split
    · exact hP.pure _
    · split
      · exact hP.renderAnchor hnode parent child
      · exact hP.bind (hP.fill ..) fun _ => ih child

/-- Rendering, given that to start at depth zero and to expand nodes have the property. -/
theorem render (hstart : P (modifyEngine fun e => { e with depth := 0 })) (root : NodeId) :
    P (Pass.render root model scope) :=
  hP.bind hstart fun _ => hP.look (fun _ => hP.renderChildren hnode _ root) fun _ _ => rfl

end Closed

/-- A property that definitions have, and work one use further in. It holds of the expansion of
every template, whatever has been defined. -/
structure Pervasive (P : {α : Type} → Pass α → Prop) : Prop extends Closed (fun _ => True) P where
  inner : ∀ {work : Pass (List NodeId)}, P work → P (Pass.inner work)
  register : ∀ name definition,
    P (modifyEngine fun e => { e with registry := (e.registry.register name definition).2 })

namespace Pervasive

variable {P : {α : Type} → Pass α → Prop} (hP : Pervasive P) {opener : Opener} {model : Value}
include hP

theorem use (hopener : ∀ fragment scope, P (opener fragment scope)) (name : String)
    (source : Option String) (scope : Scope) : P (Expansion.use opener name source scope) := by
  refine hP.look (fun stage => ?_) fun _ _ => rfl
  split
  · exact hP.pure _
  · split
    · exact hP.pure _
    · exact hP.inner (hopener _ _)

theorem expand (hopener : ∀ fragment scope, P (opener fragment scope)) (t : Template)
    (scope : Scope) : P (Expansion.expand opener model t scope) := by
  refine hP.toClosed.expand (fun {name target source children} _ hchildren scope => ?_)
    (trivial : (fun _ => True) t) scope
  cases name with
  | some name =>
    rw [Expansion.expand]
    exact hP.bind (hP.register ..) fun _ => hchildren _
  | none =>
    cases target with
    | some target =>
      rw [Expansion.expand]
      exact hP.use hopener target source scope
    | none =>
      rw [Expansion.expand]
      exact hchildren scope

theorem openWithin (room : Nat) (fragment : Fragment) (scope : Scope) :
    P (Expansion.openWithin model room fragment scope) := by
  induction room generalizing fragment scope with
  | zero => exact hP.pure _
  | succ room ih => exact hP.toClosed.expandAll (fun t _ => hP.expand ih t) scope

theorem expandPass (t : Template) (model : Value) (scope : Scope) :
    P (Pass.expand t model scope) :=
  hP.look (fun _ => hP.expand (hP.openWithin _) t scope) fun _ _ => rfl

theorem usePass (name : String) (source : Option String) (model : Value) (scope : Scope) :
    P (Pass.use name source model scope) :=
  hP.look (fun _ => hP.use (hP.openWithin _) name source scope) fun _ _ => rfl

end Pervasive

/-- Wherever the work starts, it leads to related stages only. -/
def KeepsTo (R : Stage → Stage → Prop) (work : Pass α) : Prop :=
  ∀ stage, Moves R work stage fun _ _ => True

namespace KeepsTo

variable {R : Stage → Stage → Prop} [Std.Refl R] [IsTrans Stage R]

omit [Std.Refl R] [IsTrans Stage R] in
theorem edit (hR : ∀ stage d, R stage { stage with document := d }) (change : Edit α) :
    KeepsTo R (Pass.edit change) := fun stage => by
  rw [Moves, Pass.edit]
  cases change stage.document with
  | ok a d => exact ⟨hR stage d, trivial⟩
  | error e d => exact hR stage d

/-- A relation that does not look at documents is kept by all that is made of edits. -/
theorem closed {Good : Template → Prop} (hR : ∀ stage d, R stage { stage with document := d })
    (hgood : ∀ {t u : Template}, Good t → u ∈ t.children → Good u) :
    Closed Good (KeepsTo R) where
  good_of_mem := hgood
  pure _ _ := .pure trivial
  bind h hnext stage := (h stage).bind fun a t _ _ => hnext a t
  look h _ stage := .get (h stage stage)
  createElement _ := edit hR _
  setDirectText _ _ := edit hR _
  setNote _ _ _ := edit hR _
  setAttribute _ _ _ := edit hR _
  fill _ _ _ := edit hR _
  append _ _ := edit hR _
  insertBefore _ _ _ := edit hR _
  remove _ := edit hR _

end KeepsTo
end Pass
end LiveMarkup
