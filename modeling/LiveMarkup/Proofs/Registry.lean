import LiveMarkup.Proofs.Authored

/-! What meanings have to do with the registry: only its entries count for them, not their order,
and without recursive templates they leave it as it is. -/
namespace LiveMarkup

/-- Every name has the same definition in both. -/
def Registry.Same (r r' : Registry) : Prop := ∀ name, Entries.get? name r = Entries.get? name r'

theorem Registry.Same.register {r r' : Registry} (h : r.Same r') (name : String)
    (definition : Definition) :
    Registry.Same (r.register name definition).2 (r'.register name definition).2 := fun key => by
  rw [Registry.register, Registry.register, Entries.get?_put, Entries.get?_put, h key]

/-- From registries with the same entries, a meaning gives the same trees and again registries with
the same entries. -/
def Meaning.Steady (meaning : Meaning) : Prop :=
  ∀ r r', Registry.Same r r' → (meaning r).1 = (meaning r').1 ∧
    Registry.Same (meaning r).2 (meaning r').2

theorem Meaning.closed_steady : Closed Steady where
  nothing _ _ h := ⟨rfl, h⟩
  join h h' r r' hsame := by
    obtain ⟨htrees, hfirst⟩ := h r r' hsame
    obtain ⟨hothers, hsecond⟩ := h' _ _ hfirst
    exact ⟨congrArg₂ (· ++ ·) htrees hothers, hsecond⟩

theorem Expansion.sourcePath?_of_same {r r' : Registry} (h : r.Same r') (scope : Scope)
    (source : Source) : sourcePath? r scope source = sourcePath? r' scope source := by
  cases source with
  | path path => rfl
  | recursive name => rw [sourcePath?, sourcePath?, h name]
  | missing => rfl

namespace Template

variable {s : Settings} {model : Value} {uses : Fragment → Scope → Meaning} {fragment : Fragment}
  {scope : Scope}

theorem denote_steady (huses : ∀ fragment scope, (uses fragment scope).Steady) (t : Template)
    (scope : Scope) : (denote s model uses t scope).Steady := by
  have hP := Meaning.closed_steady
  induction t using Template.induction generalizing scope with
  | element tag attributes text children ih =>
    intro r r' hsame
    obtain ⟨htrees, hregistry⟩ := hP.denoteAll ih scope r r' hsame
    rw [denote]
    refine ⟨?_, hregistry⟩
    exact congrArg (fun inner => [Tree.element tag (generatedAttributes s attributes model scope)
      (Tree.textTrees (Placeholder.filled text model scope) ++ inner)]) htrees
  | repetition source binding children ih =>
    intro r r' hsame
    rw [denote]
    dsimp only
    rw [Expansion.sourcePath?_of_same hsame]
    cases Expansion.sourcePath? r' scope source with
    | none => exact ⟨rfl, hsame⟩
    | some path => exact hP.gather (fun _ _ => hP.denoteAll ih _) r r' hsame
  | conditional test children ih =>
    rw [denote]
    split
    · exact hP.denoteAll ih scope
    · exact hP.nothing
  | recursive name target source children ih =>
    intro r r' hsame
    rw [denote]
    cases name with
    | some name => exact hP.denoteAll ih _ _ _ (hsame.register name _)
    | none =>
      cases target with
      | some target =>
        have hinstance : r.instance? target source = r'.instance? target source := by
          rw [Registry.instance?, Registry.instance?, hsame target]
        dsimp only
        rw [hinstance]
        cases r'.instance? target source with
        | none => exact ⟨rfl, hsame⟩
        | some definition => exact huses _ _ r r' hsame
      | none => exact hP.denoteAll ih _ r r' hsame

theorem meaning_steady (depth : Nat) (t : Template) (scope : Scope) :
    (t.meaning s depth model scope).Steady :=
  Meaning.closed_steady.meaning (fun _ => denote_steady) depth t scope

end Template

namespace Outline

variable {s : Settings} {model : Value} {scope : Scope} {ls : List Outline} {r r' : Registry}

theorem renderAll_of_same_of_forall
    (h : ∀ l ∈ ls, ∀ {r r' : Registry}, r.Same r' →
      (render s model scope l r).1 = (render s model scope l r').1 ∧
        Registry.Same (render s model scope l r).2 (render s model scope l r').2)
    (hsame : r.Same r') : (renderAll s model scope ls r).1 = (renderAll s model scope ls r').1 ∧
      Registry.Same (renderAll s model scope ls r).2 (renderAll s model scope ls r').2 := by
  induction ls generalizing r r' with
  | nil => exact ⟨rfl, hsame⟩
  | cons l rest ih =>
    rw [List.forall_mem_cons] at h
    obtain ⟨hhead, hsame₁⟩ := h.1 hsame
    obtain ⟨htail, hsame₂⟩ := ih h.2 hsame₁
    exact ⟨congrArg₂ List.cons hhead htail, hsame₂⟩

theorem render_of_same (l : Outline) (hsame : r.Same r') :
    (render s model scope l r).1 = (render s model scope l r').1 ∧
      Registry.Same (render s model scope l r).2 (render s model scope l r').2 := by
  induction l generalizing r r' with
  | text content => exact ⟨rfl, hsame⟩
  | plain tag attributes sources source inner ih =>
    obtain ⟨hinner, hsame'⟩ := renderAll_of_same_of_forall
      (fun l hl _ _ => ih l hl) hsame
    rw [render_plain, render_plain]
    exact ⟨by rw [hinner], hsame'⟩
  | anchor tag attributes template inside run =>
    have hmeaning : (template.meaning s 0 model scope).Steady := template.meaning_steady 0 scope
    obtain ⟨hrun, hsame'⟩ := hmeaning r r' hsame
    rw [render_anchor, render_anchor]
    exact ⟨by rw [hrun], hsame'⟩

/-- For what is shown only the entries of the registry count. -/
theorem renderAll_of_same (ls : List Outline) (hsame : r.Same r') :
    (renderAll s model scope ls r).1 = (renderAll s model scope ls r').1 :=
  (renderAll_of_same_of_forall (fun l _ _ _ => render_of_same l) hsame).1

end Outline

mutual

/-- No element asks for a recursive template. -/
def Tree.Nonrecursive (s : Settings) : Tree → Prop
  | .text _ => True
  | .element tag _ children =>
    s.directive? tag ≠ some .recursive ∧ Tree.NonrecursiveAll s children

def Tree.NonrecursiveAll (s : Settings) : List Tree → Prop
  | [] => True
  | t :: rest => t.Nonrecursive s ∧ Tree.NonrecursiveAll s rest

end

theorem Tree.nonrecursiveAll_append {s : Settings} {left right : List Tree} :
    NonrecursiveAll s (left ++ right) ↔ NonrecursiveAll s left ∧ NonrecursiveAll s right := by
  induction left with
  | nil => simp [NonrecursiveAll]
  | cons t rest ih => simp [NonrecursiveAll, ih, and_assoc]

mutual

def Tree.decideNonrecursive (s : Settings) : (t : Tree) → Decidable (t.Nonrecursive s)
  | .text _ => .isTrue trivial
  | .element tag _ children =>
    have := Tree.decideNonrecursiveAll s children
    inferInstanceAs (Decidable
      (s.directive? tag ≠ some .recursive ∧ Tree.NonrecursiveAll s children))

def Tree.decideNonrecursiveAll (s : Settings) :
    (ts : List Tree) → Decidable (Tree.NonrecursiveAll s ts)
  | [] => .isTrue trivial
  | t :: rest =>
    have := Tree.decideNonrecursive s t
    have := Tree.decideNonrecursiveAll s rest
    inferInstanceAs (Decidable (t.Nonrecursive s ∧ Tree.NonrecursiveAll s rest))

end

instance (s : Settings) : DecidablePred (Tree.NonrecursiveAll s) := Tree.decideNonrecursiveAll s

namespace Template

mutual

def Nonrecursive : Template → Prop
  | element _ _ _ children => NonrecursiveAll children
  | repetition _ _ children => NonrecursiveAll children
  | conditional _ children => NonrecursiveAll children
  | recursive _ _ _ _ => False

def NonrecursiveAll : Fragment → Prop
  | [] => True
  | t :: rest => t.Nonrecursive ∧ NonrecursiveAll rest

end

theorem nonrecursiveAll_iff {fragment : Fragment} :
    NonrecursiveAll fragment ↔ ∀ t ∈ fragment, t.Nonrecursive := by
  induction fragment with
  | nil => simp [NonrecursiveAll]
  | cons t rest ih => simp [NonrecursiveAll, ih]

theorem Nonrecursive.of_mem {t u : Template} (ht : t.Nonrecursive) (hu : u ∈ t.children) :
    u.Nonrecursive := by
  cases t with
  | element tag attributes text children => exact nonrecursiveAll_iff.1 ht u hu
  | repetition source binding children => exact nonrecursiveAll_iff.1 ht u hu
  | conditional test children => exact nonrecursiveAll_iff.1 ht u hu
  | recursive name target source children => cases ht

theorem nonrecursive_ofDirective {directive : Directive} (h : directive ≠ .recursive)
    (attributes : List (String × String)) {children : Fragment}
    (hchildren : NonrecursiveAll children) :
    (ofDirective directive attributes children).Nonrecursive := by
  cases directive with
  | repetition => exact hchildren
  | conditional => exact hchildren
  | recursive => exact absurd rfl h

mutual

theorem nonrecursive_compile (s : Settings) :
    ∀ t : Tree, t.Nonrecursive s → NonrecursiveAll (compile s t)
  | .text _, _ => trivial
  | .element tag attributes children, h => by
    have hchildren := nonrecursiveAll_compileAll s children h.2
    have htag := h.1
    rw [compile]
    split
    · next directive hdirective =>
      rw [hdirective] at htag
      exact ⟨nonrecursive_ofDirective (fun h => htag (congrArg some h)) attributes hchildren,
        trivial⟩
    · exact ⟨hchildren, trivial⟩

theorem nonrecursiveAll_compileAll (s : Settings) :
    ∀ ts : List Tree, Tree.NonrecursiveAll s ts → NonrecursiveAll (compileAll s ts)
  | [], _ => trivial
  | t :: rest, h => by
    rw [compileAll, nonrecursiveAll_iff]
    exact List.forall_mem_append.2 ⟨nonrecursiveAll_iff.1 (nonrecursive_compile s t h.1),
      nonrecursiveAll_iff.1 (nonrecursiveAll_compileAll s rest h.2)⟩

end

end Template

/-- A meaning leaves every registry as it is. -/
def Meaning.Keeps (meaning : Meaning) : Prop := ∀ registry, (meaning registry).2 = registry

theorem Meaning.closed_keeps : Closed Keeps where
  nothing _ := rfl
  join h h' registry := (h' _).trans (h registry)

namespace Template

variable {s : Settings} {model : Value} {uses : Fragment → Scope → Meaning}

theorem denote_keeps {t : Template} (ht : t.Nonrecursive) (scope : Scope) :
    (denote s model uses t scope).Keeps := by
  have hP := Meaning.closed_keeps
  induction t using Template.induction generalizing scope with
  | element tag attributes text children ih =>
    intro registry
    rw [denote]
    exact hP.denoteAll (fun t h => ih t h (nonrecursiveAll_iff.1 ht t h)) scope registry
  | repetition source binding children ih =>
    intro registry
    rw [denote]
    dsimp only
    split
    · rfl
    · exact hP.gather (fun _ _ =>
        hP.denoteAll (fun t h => ih t h (nonrecursiveAll_iff.1 ht t h)) _) registry
  | conditional test children ih =>
    rw [denote]
    split
    · exact hP.denoteAll (fun t h => ih t h (nonrecursiveAll_iff.1 ht t h)) scope
    · exact hP.nothing
  | recursive name target source children ih => cases ht

end Template

namespace Outline

mutual

/-- No anchor is expanded from a template with recursive ones. -/
def Nonrecursive : Outline → Prop
  | text _ => True
  | plain _ _ _ _ inner => NonrecursiveAll inner
  | anchor _ _ template _ _ => template.Nonrecursive

def NonrecursiveAll : List Outline → Prop
  | [] => True
  | l :: rest => l.Nonrecursive ∧ NonrecursiveAll rest

end

variable {s : Settings} {model : Value} {scope : Scope} {l : Outline} {ls : List Outline}
  {registry : Registry}

theorem nonrecursiveAll_iff : NonrecursiveAll ls ↔ ∀ l ∈ ls, l.Nonrecursive := by
  induction ls with
  | nil => simp [NonrecursiveAll]
  | cons l rest ih => simp [NonrecursiveAll, ih]

mutual

theorem nonrecursive_ofTree (s : Settings) :
    ∀ t : Tree, t.Nonrecursive s → (ofTree s t).Nonrecursive
  | .text _, _ => trivial
  | .element tag attributes children, h => by
    have htag := h.1
    rw [ofTree]
    split
    · next directive hdirective =>
      rw [hdirective] at htag
      exact Template.nonrecursive_ofDirective (fun h => htag (congrArg some h)) attributes
        (Template.nonrecursiveAll_compileAll s children h.2)
    · exact nonrecursiveAll_ofTrees s children h.2

theorem nonrecursiveAll_ofTrees (s : Settings) :
    ∀ ts : List Tree, Tree.NonrecursiveAll s ts → NonrecursiveAll (ofTrees s ts)
  | [], _ => trivial
  | t :: rest, h => ⟨nonrecursive_ofTree s t h.1, nonrecursiveAll_ofTrees s rest h.2⟩

end

theorem NonrecursiveAll.placeText (h : NonrecursiveAll ls) (source : String) :
    NonrecursiveAll (placeText source model scope ls) := by
  refine nonrecursiveAll_iff.2 fun l hl => ?_
  rcases isText_or_mem_of_mem_placeText hl with htext | hl
  · obtain ⟨content, rfl⟩ := exists_of_isText htext
    trivial
  · exact nonrecursiveAll_iff.1 h l hl

theorem renderAll_keeps_of_forall (h : ∀ l ∈ ls, (render s model scope l registry).2 = registry) :
    renderAll s model scope ls registry =
      (ls.map fun l => (render s model scope l registry).1, registry) := by
  induction ls with
  | nil => rfl
  | cons l rest ih =>
    rw [List.forall_mem_cons] at h
    rw [renderAll_cons, h.1, ih h.2, List.map_cons]

theorem render_keeps (h : l.Nonrecursive) (registry : Registry) :
    (render s model scope l registry).2 = registry ∧
      (render s model scope l registry).1.Nonrecursive := by
  induction l generalizing registry with
  | text content => exact ⟨rfl, trivial⟩
  | plain tag attributes sources source inner ih =>
    have hinner := renderAll_keeps_of_forall fun l hl =>
      (ih l hl (nonrecursiveAll_iff.1 h l hl) registry).1
    rw [render_plain, hinner]
    refine ⟨rfl, NonrecursiveAll.placeText (nonrecursiveAll_iff.2 fun l hl => ?_) source⟩
    obtain ⟨m, hm, rfl⟩ := List.mem_map.1 hl
    exact (ih m hm (nonrecursiveAll_iff.1 h m hm) registry).2
  | anchor tag attributes template inside run =>
    rw [render_anchor]
    exact ⟨Template.denote_keeps h scope registry, h⟩

/-- Without recursive templates each outline of a row is rendered for itself, and the registry
stays. -/
theorem renderAll_keeps (h : NonrecursiveAll ls) (registry : Registry) :
    renderAll s model scope ls registry =
      (ls.map fun l => (render s model scope l registry).1, registry) :=
  renderAll_keeps_of_forall fun l hl => (render_keeps (nonrecursiveAll_iff.1 h l hl) registry).1

theorem NonrecursiveAll.renderAll (h : NonrecursiveAll ls) (registry : Registry) :
    NonrecursiveAll (Outline.renderAll s model scope ls registry).1 := by
  rw [renderAll_keeps h]
  refine nonrecursiveAll_iff.2 fun l hl => ?_
  obtain ⟨m, hm, rfl⟩ := List.mem_map.1 hl
  exact (render_keeps (nonrecursiveAll_iff.1 h m hm) registry).2

theorem NonrecursiveAll.renderEach (h : NonrecursiveAll ls) (history : List (Value × Scope))
    (registry : Registry) : NonrecursiveAll (Outline.renderEach s history ls registry).1 := by
  induction history generalizing ls registry with
  | nil => exact h
  | cons m rest ih => exact ih (h.renderAll registry) _

end Outline
end LiveMarkup
