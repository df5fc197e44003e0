import LiveMarkup.Proofs.Moments

/-! Names that stay undefined through expansions: nothing that is expanded, be it a template or a
fragment that is known, defines them. -/
namespace LiveMarkup

/-- Nothing in the template defines the name. -/
inductive Template.Avoids (name : String) : Template → Prop
  | element {tag text : String} {attributes : List (String × String)} {children : Fragment}
    (h : ∀ t ∈ children, Avoids name t) : Avoids name (.element tag attributes text children)
  | repetition {source : Source} {binding : Option String} {children : Fragment}
    (h : ∀ t ∈ children, Avoids name t) : Avoids name (.repetition source binding children)
  | conditional {test : Option String} {children : Fragment}
    (h : ∀ t ∈ children, Avoids name t) : Avoids name (.conditional test children)
  | recursive {own target source : Option String} {children : Fragment} (hown : own ≠ some name)
    (h : ∀ t ∈ children, Avoids name t) : Avoids name (.recursive own target source children)

/-- The name is not defined, and no fragment that is known defines it. -/
structure Registry.Lacks (name : String) (r : Registry) : Prop where
  absent : Entries.get? name r = none
  fragments : ∀ other definition, Entries.get? other r = some definition →
    ∀ t ∈ definition.fragment, t.Avoids name

variable {α : Type} {name : String} {model : Value} {scope : Scope} {fragment : Fragment}
  {stage stage' : Stage}

theorem Template.Avoids.of_mem {t u : Template} (ht : t.Avoids name) (hu : u ∈ t.children) :
    u.Avoids name := by
  cases ht <;> exact ‹∀ t ∈ _, _› u hu

theorem Registry.Lacks.empty (name : String) : Lacks name [] := ⟨rfl, nofun⟩

theorem Registry.Lacks.register {r : Registry} {own : String} {source : Option String}
    (h : r.Lacks name) (hown : own ≠ name) (hfragment : ∀ t ∈ fragment, t.Avoids name) :
    (r.register own ⟨source, fragment⟩).2.Lacks name := by
  refine ⟨?_, fun other definition hfound => ?_⟩
  · rw [Registry.register, Entries.get?_put, if_neg hown, h.absent]
  · rw [Registry.register, Entries.get?_put] at hfound
    split at hfound
    · cases hfound
      exact hfragment
    · exact h.fragments other definition hfound

theorem Registry.Lacks.instance {r : Registry} {other : String} {source : Option String}
    {definition : Definition} (h : r.Lacks name)
    (hfound : r.instance? other source = some definition) :
    ∀ t ∈ definition.fragment, t.Avoids name := by
  obtain ⟨found, hget, rfl⟩ := Option.map_eq_some_iff.1 hfound
  exact h.fragments other found hget

/-- A name that was undefined is undefined. -/
def Registry.Lacking (name : String) (r r' : Registry) : Prop := r.Lacks name → r'.Lacks name

instance : Std.Refl (Registry.Lacking name) := ⟨fun _ h => h⟩

instance : IsTrans Registry (Registry.Lacking name) := ⟨fun _ _ _ h h' hr => h' (h hr)⟩

/-- Work that does not define the name, wherever it is undefined. -/
def KeepsOut (name : String) (work : Pass α) : Prop := Pass.Registers (Registry.Lacking name) work

namespace KeepsOut

/-- Where the name is defined there is nothing to show. -/
theorem of_lacks {work : Pass α} (h : ∀ stage : Stage, stage.engine.registry.Lacks name →
    Moves (Stage.Registers (Registry.Lacking name)) work stage fun _ _ => True) :
    KeepsOut name work := by
  intro stage
  by_cases hstage : stage.engine.registry.Lacks name
  · exact h stage hstage
  · rw [Moves]
    split
    · exact ⟨fun h => absurd h hstage, trivial⟩
    · exact fun h => absurd h hstage

theorem of_ok {work : Pass α} {a : α} (h : KeepsOut name work)
    (hstage : stage.engine.registry.Lacks name) (hok : work stage = .ok a stage') :
    stage'.engine.registry.Lacks name :=
  ((h stage).of_run hok).1 hstage

theorem edit (change : Edit α) : KeepsOut name (Pass.edit change) := Pass.Registers.edit change

/-- No edit defines anything. -/
theorem closed (name : String) : Pass.Closed (Template.Avoids name) (KeepsOut name) :=
  Pass.Registers.closed Template.Avoids.of_mem

end KeepsOut

namespace Expansion

variable {opener : Opener} {room : Nat} {t : Template} {m : Moment}

theorem keepsOut_use (hopener : ∀ fragment scope, (∀ t ∈ fragment, t.Avoids name) →
      KeepsOut name (opener fragment scope)) (other : String) (source : Option String)
    (scope : Scope) : KeepsOut name (use opener other source scope) := by
  refine .of_lacks fun stage hstage => .get ?_
  split
  · exact .pure trivial
  · next definition hfound =>
    split
    · exact .pure trivial
    · exact Pass.moves_inner_registers (hopener _ _ (hstage.instance hfound) _)

theorem keepsOut_expand (hopener : ∀ fragment scope, (∀ t ∈ fragment, t.Avoids name) →
      KeepsOut name (opener fragment scope)) (ht : t.Avoids name) (scope : Scope) :
    KeepsOut name (expand opener model t scope) := by
  refine (KeepsOut.closed name).expand
    (fun {own target source children} hgood hchildren scope => ?_) ht scope
  cases hgood with
  | recursive hown hfragment =>
    cases own with
    | some own =>
      rw [expand]
      refine (KeepsOut.closed name).bind (fun stage => ?_) fun _ => hchildren _
      exact ⟨fun hstage => hstage.register (mt (congrArg some) hown) hfragment, trivial⟩
    | none =>
      cases target with
      | some target =>
        rw [expand]
        exact keepsOut_use hopener target source scope
      | none =>
        rw [expand]
        exact hchildren scope

theorem keepsOut_openWithin (room : Nat) (fragment : Fragment) (scope : Scope)
    (hfragment : ∀ t ∈ fragment, t.Avoids name) :
    KeepsOut name (openWithin model room fragment scope) := by
  induction room generalizing fragment scope with
  | zero => exact fun _ => .pure trivial
  | succ room ih =>
    exact (KeepsOut.closed name).expandAll (fun t ht => keepsOut_expand ih (hfragment t ht)) scope

theorem keepsOut_row (hfragment : ∀ t ∈ fragment, t.Avoids name) (room : Nat) (scope : Scope) :
    KeepsOut name (expandAll (openWithin model room) model fragment scope) :=
  keepsOut_openWithin (room + 1) fragment scope hfragment

theorem Opens.lacks {o : Opening} (h : Opens model scope stage room t o) (ht : t.Avoids name)
    (hstage : stage.engine.registry.Lacks name) :
    o.stage.engine.registry.Lacks name ∧ ∀ u ∈ o.fragment, u.Avoids name := by
  cases h with
  | repetition _ _ _ hearlier =>
    refine ⟨?_, fun u => ht.of_mem⟩
    exact ((KeepsOut.closed name).gather fun _ _ => keepsOut_row (fun u => ht.of_mem) _ _).of_ok
      hstage hearlier
  | conditional _ => exact ⟨hstage, fun u => ht.of_mem⟩
  | definition =>
    cases ht with
    | recursive hown hchildren =>
      exact ⟨hstage.register (mt (congrArg some) hown) hchildren, hchildren⟩
  | use hfound _ => exact ⟨hstage, hstage.instance hfound⟩
  | group => exact ⟨hstage, fun u => ht.of_mem⟩

/-- At each moment of the expansion of a template that does not define the name, on a stage where
the name is undefined, it is undefined, and what is about to be expanded does not define it. -/
theorem Meets.lacks (h : Meets model room t scope stage m) (ht : t.Avoids name)
    (hstage : stage.engine.registry.Lacks name) :
    m.stage.engine.registry.Lacks name ∧ m.template.Avoids name := by
  induction h with
  | here => exact ⟨hstage, ht⟩
  | child hmake hbefore _ ih =>
    have hchildren := fun u => ht.of_mem (u := u)
    have hmade := ((KeepsOut.closed name).makeElement ht _).of_ok hstage hmake
    refine ih (hchildren _ (by simp [Template.children])) ?_
    refine ((KeepsOut.closed name).expandInto (fun u hu => ?_) _ _).of_ok hmade hbefore
    exact keepsOut_expand (keepsOut_openWithin _) (hchildren u (by simp [Template.children, hu]))
  | opened hopens hfragment hbefore _ ih =>
    obtain ⟨hopened, hrow⟩ := hopens.lacks ht hstage
    rw [hfragment] at hrow
    rw [List.forall_mem_append, List.forall_mem_cons] at hrow
    exact ih hrow.2.1 ((keepsOut_row hrow.1 _ _).of_ok hopened hbefore)

/-- A name that is undefined has nothing to show where it is used. -/
theorem expand_use_of_absent (h : Entries.get? name stage.engine.registry = none) (opener : Opener)
    (model : Value) (source : Option String) (children : Fragment) (scope : Scope) :
    expand opener model (.recursive none (some name) source children) scope stage =
      .ok [] stage := by
  have hnone : stage.engine.registry.instance? name source = none := by
    rw [Registry.instance?, h, Option.map_none]
  have hget : (get : Pass Stage) stage = .ok stage stage := rfl
  rw [expand, use, bind_eq_of_ok hget, hnone]
  rfl

end Expansion

theorem Pass.keepsOut_expand {t : Template} (ht : t.Avoids name) :
    KeepsOut name (Pass.expand t model scope) :=
  (KeepsOut.closed name).look
    (fun _ => Expansion.keepsOut_expand (Expansion.keepsOut_openWithin _) ht scope) fun _ _ => rfl

end LiveMarkup
