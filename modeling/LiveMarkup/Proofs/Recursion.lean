import Mathlib.Computability.StateTransition
import LiveMarkup.Proofs.Composition
import LiveMarkup.Proofs.Engines

/-! How deep uses of recursive templates go. Expansion is taken apart into the steps of a machine,
which keeps the work that waits on a stack and has no bound but the one that the settings give. It
comes to an end, with what expansion gives, and at every moment the depth of the engine is the
number of uses that are being expanded. -/
namespace LiveMarkup

open StateTransition (Reaches eval mem_eval)

/-- The same settings and the same depth. -/
structure Stage.Level (stage stage' : Stage) : Prop where
  settings : stage'.engine.settings = stage.engine.settings
  depth : stage'.engine.depth = stage.engine.depth

instance : Std.Refl Stage.Level := ⟨fun _ => ⟨rfl, rfl⟩⟩

instance : IsTrans Stage Stage.Level :=
  ⟨fun _ _ _ h h' => ⟨h'.settings.trans h.settings, h'.depth.trans h.depth⟩⟩

/-- How many uses may still be opened inside each other. -/
def Stage.room (stage : Stage) : Nat := stage.engine.settings.maxDepth - stage.engine.depth

theorem Stage.Level.room_eq {stage stage' : Stage} (h : stage.Level stage') :
    stage'.room = stage.room := by
  rw [room, room, h.settings, h.depth]

theorem Stage.Level.leave {stage stage' : Stage} (h : stage.enter.Level stage') :
    stage.Level stage'.leave :=
  ⟨h.settings, (congrArg (· - 1) h.depth).trans (Nat.add_sub_cancel ..)⟩

namespace Pass

theorem pervasive_level : Pervasive (KeepsTo Stage.Level) where
  toClosed := KeepsTo.closed (fun _ _ => ⟨rfl, rfl⟩) fun _ _ => trivial
  inner h stage := moves_inner_of (h stage.enter) (fun _ => Stage.Level.leave) fun _ _ => id
  register _ _ _ := ⟨⟨rfl, rfl⟩, trivial⟩

variable {model : Value} {scope : Scope}

end Pass

namespace Expansion

/-- What is to be done now, or what has come of it. -/
inductive Control where
  | expand (t : Template) (scope : Scope)
  | use (name : String) (source : Option String) (scope : Scope)
  | gave (nodes : List NodeId)
  | failed (e : TreeError)

/-- What waits until what is being done has given its nodes. -/
inductive Pending where
  /-- The rest of a row of templates, after the nodes that were made so far. -/
  | row (made : List NodeId) (rest : Fragment) (scope : Scope)
  /-- The rest of a repetition. -/
  | items (made : List NodeId) (rest : List Value) (name : String) (children : Fragment)
    (scope : Scope)
  /-- The rest of the children of an element. -/
  | inside (node : NodeId) (rest : Fragment) (scope : Scope)
  /-- A use that is being expanded. -/
  | active

def Pending.isActive : Pending → Bool
  | active => true
  | _ => false

structure State where
  control : Control
  pending : List Pending
  stage : Stage

namespace State

/-- How many uses are being expanded. -/
def active (state : State) : Nat := state.pending.countP Pending.isActive

/-- How a pass that makes nodes came out. -/
def ofResult (pending : List Pending) : EStateM.Result TreeError Stage (List NodeId) → State
  | .ok nodes stage => ⟨.gave nodes, pending, stage⟩
  | .error e stage => ⟨.failed e, pending, stage⟩

/-- Begins a template. -/
def begin (model : Value) (pending : List Pending) (stage : Stage) : Template → Scope → State
  | .element tag attributes text children, scope =>
    match makeElement tag attributes text model scope stage with
    | .ok node stage' => ⟨.gave [], .inside node children scope :: pending, stage'⟩
    | .error e stage' => ⟨.failed e, pending, stage'⟩
  | .repetition source binding children, scope =>
    match sourcePath? stage.engine.registry scope source with
    | none => ⟨.gave [], pending, stage⟩
    | some path => ⟨.gave [], .items [] (itemsAt path model scope)
        (binding.getD stage.engine.settings.defaultBinding) children scope :: pending, stage⟩
  | .conditional test children, scope =>
    if holds test model scope then ⟨.gave [], .row [] children scope :: pending, stage⟩
    else ⟨.gave [], pending, stage⟩
  | .recursive name target source children, scope =>
    match name, target with
    | some name, _ => ⟨.gave [], .row [] children (sourceFrame scope name source) :: pending,
        { stage with engine.registry :=
          (stage.engine.registry.register name ⟨source, children⟩).2 }⟩
    | none, some target => ⟨.use target source scope, pending, stage⟩
    | none, none => ⟨.gave [], .row [] children scope :: pending, stage⟩

/-- Begins a use: it is active from now on, unless the name is not defined or the bound is met. -/
def beginUse (pending : List Pending) (stage : Stage) (name : String) (source : Option String)
    (scope : Scope) : State :=
  match stage.engine.registry.instance? name source with
  | none => ⟨.gave [], pending, stage⟩
  | some definition =>
    if stage.engine.settings.maxDepth ≤ stage.engine.depth then ⟨.gave [], pending, stage⟩
    else ⟨.gave [], .row [] definition.fragment (sourceFrame scope name definition.source) ::
      .active :: pending, stage.enter⟩

/-- Puts nodes at the end of an element. -/
def appendAll (node : NodeId) (nodes : List NodeId) : Pass Unit :=
  nodes.forM fun output => Pass.apply (·.append node output)

/-- Goes on with what waited for nodes. -/
def resume (pending : List Pending) (stage : Stage) (nodes : List NodeId) : Pending → State
  | .row made [] _ => ⟨.gave (made ++ nodes), pending, stage⟩
  | .row made (t :: rest) scope =>
    ⟨.expand t scope, .row (made ++ nodes) rest scope :: pending, stage⟩
  | .items made [] _ _ _ => ⟨.gave (made ++ nodes), pending, stage⟩
  | .items made (item :: rest) name children scope =>
    ⟨.gave [], .row [] children (scope.child.bind name item) ::
      .items (made ++ nodes) rest name children scope :: pending, stage⟩
  | .inside node rest scope =>
    match appendAll node nodes stage with
    | .error e stage' => ⟨.failed e, pending, stage'⟩
    | .ok _ stage' =>
      match rest with
      | [] => ⟨.gave [node], pending, stage'⟩
      | t :: rest => ⟨.expand t scope, .inside node rest scope :: pending, stage'⟩
  | .active => ⟨.gave nodes, pending, stage.leave⟩

/-- Gives up what waited for nodes. -/
def abandon (pending : List Pending) (stage : Stage) (e : TreeError) : Pending → State
  | .active => ⟨.failed e, pending, stage.leave⟩
  | _ => ⟨.failed e, pending, stage⟩

end State

/-- One step; there is none where nothing waits any more. -/
def step (model : Value) : State → Option State
  | ⟨.expand t scope, pending, stage⟩ => some (.begin model pending stage t scope)
  | ⟨.use name source scope, pending, stage⟩ => some (.beginUse pending stage name source scope)
  | ⟨.gave _, [], _⟩ => none
  | ⟨.gave nodes, waiting :: pending, stage⟩ => some (.resume pending stage nodes waiting)
  | ⟨.failed _, [], _⟩ => none
  | ⟨.failed e, waiting :: pending, stage⟩ => some (.abandon pending stage e waiting)

theorem level_makeElement (tag : String) (attributes : List (String × String)) (text : String)
    (model : Value) (scope : Scope) :
    Pass.KeepsTo Stage.Level (makeElement tag attributes text model scope) :=
  @Pass.Closed.makeElement _ _ Pass.pervasive_level.toClosed model tag attributes text [] trivial
    scope

theorem level_expand (model : Value) (room : Nat) (t : Template) (scope : Scope) :
    Pass.KeepsTo Stage.Level (expand (openWithin model room) model t scope) :=
  Pass.pervasive_level.expand (Pass.pervasive_level.openWithin room) t scope

theorem level_appendAll (node : NodeId) (nodes : List NodeId) :
    Pass.KeepsTo Stage.Level (State.appendAll node nodes) :=
  Pass.pervasive_level.toClosed.forM fun output _ => Pass.pervasive_level.append node output

/-- The depth is the number of active uses, above the one at the start, and within the bound. -/
structure State.Balanced (s : Settings) (base : Nat) (state : State) : Prop where
  settings : state.stage.engine.settings = s
  depth : state.stage.engine.depth = base + state.active
  bound : state.stage.engine.depth ≤ max base s.maxDepth

namespace State.Balanced

variable {s : Settings} {base : Nat} {model : Value} {c c' : Control} {state state' : State}
  {pending pending' : List Pending} {stage stage' : Stage}

theorem of_level (h : Balanced s base ⟨c, pending, stage⟩) (hlevel : stage.Level stage')
    (hactive : pending'.countP Pending.isActive = pending.countP Pending.isActive) :
    Balanced s base ⟨c', pending', stage'⟩ where
  settings := hlevel.settings.trans h.settings
  depth := by
    have hdepth := h.depth
    rw [active] at hdepth ⊢
    rw [hactive, ← hdepth]
    exact hlevel.depth
  bound := hlevel.depth.trans_le h.bound

theorem of_active (h : Balanced s base ⟨c, .active :: pending, stage⟩) :
    Balanced s base ⟨c', pending, stage.leave⟩ where
  settings := h.settings
  depth := by
    have hdepth := h.depth
    rw [active, List.countP_cons_of_pos rfl, ← Nat.add_assoc] at hdepth
    exact (congrArg (· - 1) hdepth).trans (Nat.add_sub_cancel ..)
  bound := (Nat.sub_le ..).trans h.bound

theorem begin (h : Balanced s base ⟨c, pending, stage⟩) (t : Template) (scope : Scope) :
    Balanced s base (.begin model pending stage t scope) := by
  cases t with
  | element tag attributes text children =>
    have hmake := level_makeElement tag attributes text model scope
    rw [State.begin]
    split
    · next hrun => exact h.of_level ((hmake stage).of_run hrun).1 rfl
    · next hrun => exact h.of_level ((hmake stage).of_failure hrun) rfl
  | repetition source binding children =>
    rw [State.begin]
    split
    · exact h.of_level (Std.Refl.refl stage) rfl
    · exact h.of_level (Std.Refl.refl stage) rfl
  | conditional test children =>
    rw [State.begin]
    split
    · exact h.of_level (Std.Refl.refl stage) rfl
    · exact h.of_level (Std.Refl.refl stage) rfl
  | recursive name target source children =>
    cases name with
    | some name => exact h.of_level ⟨rfl, rfl⟩ rfl
    | none => cases target <;> exact h.of_level (Std.Refl.refl stage) rfl

theorem beginUse (h : Balanced s base ⟨c, pending, stage⟩) (name : String)
    (source : Option String) (scope : Scope) :
    Balanced s base (.beginUse pending stage name source scope) := by
  rw [State.beginUse]
  split
  · exact h.of_level (Std.Refl.refl stage) rfl
  · split
    · exact h.of_level (Std.Refl.refl stage) rfl
    · next hbelow =>
      have hdepth := h.depth
      refine ⟨h.settings, ?_, ?_⟩
      · rw [active] at hdepth ⊢
        rw [List.countP_cons_of_neg (by simp [Pending.isActive]), List.countP_cons_of_pos rfl,
          ← Nat.add_assoc, ← hdepth]
        rfl
      · rw [h.settings, Nat.not_le] at hbelow
        exact Nat.le_trans hbelow (Nat.le_max_right ..)

theorem resume {waiting : Pending} (h : Balanced s base ⟨c, waiting :: pending, stage⟩)
    (nodes : List NodeId) : Balanced s base (.resume pending stage nodes waiting) := by
  cases waiting with
  | row made rest scope =>
    cases rest <;> exact h.of_level (Std.Refl.refl stage) rfl
  | items made rest name children scope =>
    cases rest <;> exact h.of_level (Std.Refl.refl stage) rfl
  | inside node rest scope =>
    rw [State.resume]
    split
    · next hrun => exact h.of_level ((level_appendAll node nodes stage).of_failure hrun) rfl
    · next hrun =>
      have hlevel := ((level_appendAll node nodes stage).of_run hrun).1
      cases rest <;> exact h.of_level hlevel rfl
  | active => exact h.of_active

theorem abandon {waiting : Pending} (h : Balanced s base ⟨c, waiting :: pending, stage⟩)
    (e : TreeError) : Balanced s base (.abandon pending stage e waiting) := by
  cases waiting with
  | row made rest scope => exact h.of_level (Std.Refl.refl stage) rfl
  | items made rest name children scope => exact h.of_level (Std.Refl.refl stage) rfl
  | inside node rest scope => exact h.of_level (Std.Refl.refl stage) rfl
  | active => exact h.of_active

theorem step (h : state.Balanced s base) (hstep : Expansion.step model state = some state') :
    state'.Balanced s base := by
  obtain ⟨control, pending, stage⟩ := state
  cases control with
  | expand t scope =>
    cases hstep
    exact h.begin t scope
  | use name source scope =>
    cases hstep
    exact h.beginUse name source scope
  | gave nodes =>
    cases pending with
    | nil => cases hstep
    | cons waiting pending =>
      cases hstep
      exact h.resume nodes
  | failed e =>
    cases pending with
    | nil => cases hstep
    | cons waiting pending =>
      cases hstep
      exact h.abandon e

theorem reaches (h : state.Balanced s base) (hrun : Reaches (Expansion.step model) state state') :
    state'.Balanced s base := by
  induction hrun with
  | refl => exact h
  | tail _ hstep ih => exact ih.step hstep

end State.Balanced

section Bound

variable {stage : Stage}

theorem State.beginUse_of_bound (h : stage.engine.settings.maxDepth ≤ stage.engine.depth)
    (pending : List Pending) (name : String) (source : Option String) (scope : Scope) :
    State.beginUse pending stage name source scope = ⟨.gave [], pending, stage⟩ := by
  rw [State.beginUse]
  cases stage.engine.registry.instance? name source with
  | none => rfl
  | some definition => exact if_pos h

end Bound

section Adequacy

variable {model : Value} {room : Nat} {stage stage' : Stage} {pending : List Pending}
  {fragment : Fragment}

/-- What is to be done comes out as the pass does, wherever there is just so much room. -/
def Performs (model : Value) (room : Nat) (c : Control) (work : Pass (List NodeId)) : Prop :=
  ∀ pending stage, stage.room = room →
    Reaches (step model) ⟨c, pending, stage⟩ (.ofResult pending (work stage))

/-- The templates of a row perform as they are expanded. -/
def PerformsAll (model : Value) (room : Nat) (fragment : Fragment) : Prop :=
  ∀ t ∈ fragment, ∀ scope,
    Performs model room (.expand t scope) (expand (openWithin model room) model t scope)

theorem reaches_of_step {a b c : State} (hstep : step model a = some b)
    (h : Reaches (step model) b c) : Reaches (step model) a c :=
  Relation.ReflTransGen.head hstep h

/-- A failure goes through what waits, but for uses. -/
theorem reaches_failed {waiting : Pending} (h : waiting.isActive = false) (e : TreeError) :
    Reaches (step model) ⟨.failed e, waiting :: pending, stage⟩ ⟨.failed e, pending, stage⟩ := by
  have hstep : step model ⟨.failed e, waiting :: pending, stage⟩ =
      some ⟨.failed e, pending, stage⟩ := by
    cases waiting with
    | active => cases h
    | row => rfl
    | items => rfl
    | inside => rfl
  exact reaches_of_step hstep .refl

/-- A loop that makes nodes, one element of a list after the other. -/
theorem reaches_loop {α : Type} (make : α → Pass (List NodeId))
    (wait : List NodeId → List α → Pending) {l : List α}
    (hinactive : ∀ made l, (wait made l).isActive = false)
    (hend : ∀ made nodes pending stage, step model ⟨.gave nodes, wait made [] :: pending, stage⟩ =
      some ⟨.gave (made ++ nodes), pending, stage⟩)
    (hnext : ∀ a ∈ l, ∀ made nodes rest pending stage, stage.room = room →
      Reaches (step model) ⟨.gave nodes, wait made (a :: rest) :: pending, stage⟩
        (.ofResult (wait (made ++ nodes) rest :: pending) (make a stage)))
    (hlevel : ∀ a, Pass.KeepsTo Stage.Level (make a)) (made nodes : List NodeId)
    (pending : List Pending) (hroom : stage.room = room) :
    Reaches (step model) ⟨.gave nodes, wait made l :: pending, stage⟩
      (.ofResult pending ((do
        let others ← Pass.gather make l
        pure (made ++ nodes ++ others) : Pass (List NodeId)) stage)) := by
  induction l generalizing made nodes stage with
  | nil =>
    refine reaches_of_step (hend made nodes pending stage) ?_
    change Reaches (step model) _ ⟨.gave (made ++ nodes ++ []), pending, stage⟩
    rw [List.append_nil]
    exact .refl
  | cons a rest ih =>
    rw [List.forall_mem_cons] at hnext
    refine (hnext.1 made nodes rest pending stage hroom).trans ?_
    rw [Pass.gather, bind_assoc]
    cases hrun : make a stage with
    | ok outputs stage' =>
      rw [bind_eq_of_ok hrun]
      simp only [bind_assoc, pure_bind, ← List.append_assoc]
      have hroom' := ((hlevel a stage).of_run hrun).1.room_eq.trans hroom
      exact ih hnext.2 (made ++ nodes) outputs hroom'
    | error e stage' =>
      rw [bind_eq_of_error hrun]
      exact reaches_failed (hinactive _ _) e

namespace PerformsAll

theorem row (h : PerformsAll model room fragment) (scope : Scope) (pending : List Pending)
    (hroom : stage.room = room) :
    Reaches (step model) ⟨.gave [], .row [] fragment scope :: pending, stage⟩
      (.ofResult pending (expandAll (openWithin model room) model fragment scope stage)) := by
  have hnext : ∀ t ∈ fragment, ∀ made nodes rest pending stage, stage.room = room →
      Reaches (step model) ⟨.gave nodes, .row made (t :: rest) scope :: pending, stage⟩
        (.ofResult (.row (made ++ nodes) rest scope :: pending)
          (expand (openWithin model room) model t scope stage)) :=
    fun t ht _ _ _ _ stage hroom => reaches_of_step rfl (h t ht scope _ stage hroom)
  have hloop := reaches_loop _ (fun made rest => .row made rest scope) (fun _ _ => rfl)
    (fun _ _ _ _ => rfl) hnext
    (fun t => level_expand model room t scope) [] [] pending hroom
  simpa only [Pass.expandAll_eq_gather, List.nil_append, bind_pure] using hloop

theorem items (h : PerformsAll model room fragment) (name : String) (scope : Scope)
    (items : List Value) (pending : List Pending) (hroom : stage.room = room) :
    Reaches (step model) ⟨.gave [], .items [] items name fragment scope :: pending, stage⟩
      (.ofResult pending (Pass.gather (fun item =>
        expandAll (openWithin model room) model fragment (scope.child.bind name item)) items
          stage)) := by
  have hnext : ∀ item ∈ items, ∀ made nodes rest pending stage, stage.room = room →
      Reaches (step model) ⟨.gave nodes, .items made (item :: rest) name fragment scope :: pending,
          stage⟩
        (.ofResult (.items (made ++ nodes) rest name fragment scope :: pending)
          (expandAll (openWithin model room) model fragment (scope.child.bind name item) stage)) :=
    fun item _ _ _ _ _ _ hroom => reaches_of_step rfl (h.row (scope.child.bind name item) _ hroom)
  have hloop := reaches_loop _ (fun made rest => .items made rest name fragment scope)
    (fun _ _ => rfl) (fun _ _ _ _ => rfl) hnext
    (fun _ => Pass.pervasive_level.toClosed.expandAll (fun t _ => level_expand model room t) _)
    [] [] pending hroom
  simpa only [List.nil_append, bind_pure] using hloop

/-- The children of an element are expanded, after what came before has been put into it. -/
theorem inside (h : PerformsAll model room fragment) (node : NodeId) (scope : Scope)
    (nodes : List NodeId) (pending : List Pending) (hroom : stage.room = room) :
    Reaches (step model) ⟨.gave nodes, .inside node fragment scope :: pending, stage⟩
      (.ofResult pending ((do
        State.appendAll node nodes
        expandInto (openWithin model room) model node fragment scope
        pure [node] : Pass (List NodeId)) stage)) := by
  induction fragment generalizing nodes stage with
  | nil =>
    refine reaches_of_step ?_ .refl
    rw [step, State.resume, expandInto]
    cases happend : State.appendAll node nodes stage with
    | ok _ stage' =>
      rw [bind_eq_of_ok happend]
      rfl
    | error e stage' =>
      rw [bind_eq_of_error happend]
      rfl
  | cons t rest ih =>
    rw [PerformsAll, List.forall_mem_cons] at h
    cases happend : State.appendAll node nodes stage with
    | error e stage' =>
      refine reaches_of_step ?_ .refl
      rw [step, State.resume, happend, bind_eq_of_error happend]
      rfl
    | ok _ stage' =>
      have hroom' := ((level_appendAll node nodes stage).of_run happend).1.room_eq.trans hroom
      have hstep : step model ⟨.gave nodes, .inside node (t :: rest) scope :: pending, stage⟩ =
          some ⟨.expand t scope, .inside node rest scope :: pending, stage'⟩ := by
        rw [step, State.resume, happend]
      refine (reaches_of_step hstep (h.1 scope _ stage' hroom')).trans ?_
      rw [bind_eq_of_ok happend, expandInto, bind_assoc]
      cases hrun : expand (openWithin model room) model t scope stage' with
      | ok outputs stage'' =>
        have hlevel := ((level_expand model room t scope stage').of_run hrun).1
        rw [bind_eq_of_ok hrun, bind_assoc]
        exact ih h.2 outputs (hlevel.room_eq.trans hroom')
      | error e stage'' =>
        rw [bind_eq_of_error hrun]
        exact reaches_failed rfl e

end PerformsAll

end Adequacy

/-- What is to be done comes to an end, as the pass does. At every moment until then the depth tells
how many uses are active, these are within the bound, and a use that is met at the bound gives
nothing and changes nothing. -/
structure Bounded (model : Value) (stage : Stage) (c : Control) (work : Pass (List NodeId)) :
    Prop where
  ends : .ofResult [] (work stage) ∈ eval (step model) ⟨c, [], stage⟩
  balanced : ∀ state, Reaches (step model) ⟨c, [], stage⟩ state →
    state.stage.engine.depth = stage.engine.depth + state.active
  bounded : stage.engine.depth = 0 → ∀ state, Reaches (step model) ⟨c, [], stage⟩ state →
    state.active ≤ stage.engine.settings.maxDepth
  met : ∀ pending stage' name source scope,
    Reaches (step model) ⟨c, [], stage⟩ ⟨.use name source scope, pending, stage'⟩ →
    stage.engine.settings.maxDepth ≤ stage'.engine.depth →
    step model ⟨.use name source scope, pending, stage'⟩ = some ⟨.gave [], pending, stage'⟩

theorem step_ofResult (model : Value) (r : EStateM.Result TreeError Stage (List NodeId)) :
    step model (.ofResult [] r) = none := by
  cases r <;> rfl

theorem Performs.bounded {model : Value} {stage : Stage} {c : Control}
    {work pass : Pass (List NodeId)} (h : Performs model stage.room c work)
    (hpass : pass stage = work stage) : Bounded model stage c pass := by
  have hstart : State.Balanced stage.engine.settings stage.engine.depth ⟨c, [], stage⟩ :=
    ⟨rfl, rfl, Nat.le_max_left ..⟩
  refine ⟨mem_eval.2 ⟨hpass ▸ h [] stage rfl, step_ofResult model _⟩, fun state hrun =>
    (hstart.reaches hrun).depth, fun hzero state hrun => ?_, ?_⟩
  · have hbalanced := hstart.reaches hrun
    have hbound := hbalanced.bound
    rwa [hbalanced.depth, hzero, Nat.zero_add, Nat.zero_max] at hbound
  · intro pending stage' name source scope hrun hmet
    rw [← (hstart.reaches hrun).settings] at hmet
    exact congrArg some (State.beginUse_of_bound hmet pending name source scope)

end Expansion

open Expansion

end LiveMarkup
