import LiveMarkup.Expansion
import LiveMarkup.Proofs.Filling

/-! What templates stand for: trees, and the registry that their definitions leave, without any
document. -/
namespace LiveMarkup

/-- Trees, and a registry, made of a registry. -/
abbrev Meaning := Registry → List Tree × Registry

namespace Meaning

def nothing : Meaning := fun registry => ([], registry)

/-- One after the other, in one row. -/
def join (first second : Meaning) : Meaning := fun registry =>
  let (trees, registry) := first registry
  let (others, registry) := second registry
  (trees ++ others, registry)

def gather {α : Type} (meaning : α → Meaning) : List α → Meaning
  | [] => nothing
  | a :: rest => (meaning a).join (gather meaning rest)

end Meaning

/-- A text of its own for anything but the empty text. -/
def Tree.textTrees (content : String) : List Tree :=
  if content = "" then [] else [.text content]

/-- The attributes of a generated element: filled, with the mark among them. -/
def generatedAttributes (s : Settings) (attributes : List (String × String)) (model : Value)
    (scope : Scope) : List (String × String) :=
  (Entries.put s.generatedAttribute "true" attributes).map fun a =>
    (a.1, Placeholder.filled a.2 model scope)

namespace Template

mutual

/-- What a template stands for, given what uses of recursive templates do. -/
def denote (s : Settings) (model : Value) (uses : Fragment → Scope → Meaning) :
    Template → Scope → Meaning
  | element tag attributes text children, scope => fun registry =>
    let (inner, registry) := denoteAll s model uses children scope registry
    ([.element tag (generatedAttributes s attributes model scope)
      (Tree.textTrees (Placeholder.filled text model scope) ++ inner)], registry)
  | repetition source binding children, scope => fun registry =>
    match Expansion.sourcePath? registry scope source with
    | none => ([], registry)
    | some path =>
      Meaning.gather (fun item =>
          denoteAll s model uses children (scope.child.bind (binding.getD s.defaultBinding) item))
        (Expansion.itemsAt path model scope) registry
  | conditional test children, scope =>
    if Expansion.holds test model scope then denoteAll s model uses children scope
    else Meaning.nothing
  | recursive name target source children, scope => fun registry =>
    match name, target with
    | some name, _ =>
      denoteAll s model uses children (Expansion.sourceFrame scope name source)
        (registry.register name ⟨source, children⟩).2
    | none, some target =>
      match registry.instance? target source with
      | none => ([], registry)
      | some definition =>
        uses definition.fragment (Expansion.sourceFrame scope target definition.source) registry
    | none, none => denoteAll s model uses children scope registry

def denoteAll (s : Settings) (model : Value) (uses : Fragment → Scope → Meaning) :
    Fragment → Scope → Meaning
  | [], _ => Meaning.nothing
  | template :: rest, scope =>
    (denote s model uses template scope).join (denoteAll s model uses rest scope)

end

/-- Uses with at most `room` of them inside each other. -/
def usesWithin (s : Settings) (model : Value) : (room : Nat) → Fragment → Scope → Meaning
  | 0 => fun _ _ => Meaning.nothing
  | room + 1 => fun fragment scope => denoteAll s model (usesWithin s model room) fragment scope

/-- What a template stands for at a depth. -/
def meaning (s : Settings) (depth : Nat) (t : Template) (model : Value) (scope : Scope) : Meaning :=
  t.denote s model (usesWithin s model (s.maxDepth - depth)) scope

/-- Induction on the directives and elements of a template. -/
@[elab_as_elim]
theorem induction {motive : Template → Prop}
    (element : ∀ tag attributes text children, (∀ t ∈ children, motive t) →
      motive (element tag attributes text children))
    (repetition : ∀ source binding children, (∀ t ∈ children, motive t) →
      motive (repetition source binding children))
    (conditional : ∀ test children, (∀ t ∈ children, motive t) →
      motive (conditional test children))
    (recursive : ∀ name target source children, (∀ t ∈ children, motive t) →
      motive (recursive name target source children)) : ∀ t, motive t := by
  refine @Template.rec motive (fun ts => ∀ t ∈ ts, motive t) element repetition conditional
    recursive (fun t ht => ?_) fun t rest ht hrest u hu => ?_
  · cases ht
  · rcases List.mem_cons.1 hu with rfl | hu
    · exact ht
    · exact hrest u hu

end Template

/-- A property that meanings have which are put together from meanings that have it. -/
structure Meaning.Closed (P : Meaning → Prop) : Prop where
  nothing : P Meaning.nothing
  join : ∀ {first second}, P first → P second → P (first.join second)

namespace Meaning.Closed

variable {P : Meaning → Prop} {s : Settings} {model : Value}

theorem gather {α : Type} {meaning : α → Meaning} {l : List α} (hP : Closed P)
    (h : ∀ a ∈ l, P (meaning a)) : P (Meaning.gather meaning l) := by
  induction l with
  | nil => exact hP.nothing
  | cons a rest ih =>
    exact hP.join (h a (List.mem_cons_self ..)) (ih fun b hb => h b (List.mem_cons_of_mem _ hb))

theorem denoteAll {uses : Fragment → Scope → Meaning} {fragment : Fragment} (hP : Closed P)
    (h : ∀ t ∈ fragment, ∀ scope, P (Template.denote s model uses t scope)) (scope : Scope) :
    P (Template.denoteAll s model uses fragment scope) := by
  induction fragment with
  | nil =>
    rw [Template.denoteAll]
    exact hP.nothing
  | cons t rest ih =>
    rw [Template.denoteAll]
    exact hP.join (h t (List.mem_cons_self ..) scope)
      (ih fun u hu => h u (List.mem_cons_of_mem _ hu))

/-- What good templates mean has the property, once it passes from what uses of good fragments do to
good templates. -/
theorem meaning_of {Good : Template → Prop} (hP : Closed P)
    (h : ∀ uses, (∀ fragment, (∀ t ∈ fragment, Good t) → ∀ scope, P (uses fragment scope)) →
      ∀ t, Good t → ∀ scope, P (Template.denote s model uses t scope))
    (depth : Nat) {t : Template} (ht : Good t) (scope : Scope) :
    P (t.meaning s depth model scope) := by
  have huses : ∀ room fragment, (∀ t ∈ fragment, Good t) → ∀ scope,
      P (Template.usesWithin s model room fragment scope) := by
    intro room
    induction room with
    | zero => exact fun _ _ _ => hP.nothing
    | succ room ih => exact fun _ hgood => hP.denoteAll fun t ht => h _ ih t (hgood t ht)
  exact h _ (huses _) t ht scope

/-- What all templates mean has the property, once it passes from what uses do to templates. -/
theorem meaning (hP : Closed P)
    (h : ∀ uses, (∀ fragment scope, P (uses fragment scope)) → ∀ t scope,
      P (Template.denote s model uses t scope)) (depth : Nat) (t : Template) (scope : Scope) :
    P (t.meaning s depth model scope) :=
  hP.meaning_of (fun _ huses t _ => h _ (fun fragment => huses fragment fun _ _ => trivial) t)
    depth (trivial : (fun _ => True) t) scope

end Meaning.Closed

/-- Whether a tree is an element that carries the mark of generated ones. -/
def Tree.isMarked (s : Settings) : Tree → Bool
  | .element _ attributes _ => Entries.get? s.generatedAttribute attributes == some "true"
  | .text _ => false

/-- All that a meaning gives is marked. -/
def Meaning.Marked (s : Settings) (meaning : Meaning) : Prop :=
  ∀ registry, ∀ t ∈ (meaning registry).1, t.isMarked s = true

theorem Meaning.closed_marked (s : Settings) : Closed (Marked s) where
  nothing _ _ ht := by cases ht
  join h h' registry t ht := (List.mem_append.1 ht).elim (h registry t) (h' _ t)

namespace Template

variable {s : Settings} {model : Value} {uses : Fragment → Scope → Meaning}

theorem filled_true (model : Value) (scope : Scope) :
    Placeholder.filled "true" model scope = "true" := by
  have h : Placeholder.appearsIn "true" = false := by decide
  rw [Placeholder.filled, h]
  rfl

theorem get?_generatedAttributes (attributes : List (String × String)) (scope : Scope) :
    Entries.get? s.generatedAttribute (generatedAttributes s attributes model scope) =
      some "true" := by
  rw [generatedAttributes,
    Entries.get?_map_value fun _ value => Placeholder.filled value model scope,
    Entries.get?_put, if_pos rfl, Option.map_some, filled_true]

/-- A template makes nothing but marked elements. -/
theorem denote_marked (huses : ∀ fragment scope, (uses fragment scope).Marked s) (t : Template)
    (scope : Scope) : (denote s model uses t scope).Marked s := by
  have hP := Meaning.closed_marked s
  induction t using Template.induction generalizing scope with
  | element tag attributes text children _ =>
    intro registry u hu
    rw [denote, List.mem_singleton] at hu
    rw [hu, Tree.isMarked, get?_generatedAttributes]
    rfl
  | repetition source binding children ih =>
    intro registry u hu
    rw [denote] at hu
    dsimp only at hu
    split at hu
    · cases hu
    · exact hP.gather (fun _ _ => hP.denoteAll ih _) registry u hu
  | conditional test children ih =>
    rw [denote]
    split
    · exact hP.denoteAll ih scope
    · exact hP.nothing
  | recursive name target source children ih =>
    intro registry u hu
    rw [denote] at hu
    dsimp only at hu
    split at hu
    · exact hP.denoteAll ih _ _ u hu
    · split at hu
      · cases hu
      · exact huses _ _ registry u hu
    · exact hP.denoteAll ih _ registry u hu

theorem meaning_marked (depth : Nat) (t : Template) (scope : Scope) :
    (t.meaning s depth model scope).Marked s :=
  (Meaning.closed_marked s).meaning (fun _ => denote_marked) depth t scope

end Template
end LiveMarkup
