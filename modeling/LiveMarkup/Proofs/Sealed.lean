import LiveMarkup.Proofs.Authored
import LiveMarkup.Proofs.Cached

/-! Generated trees are marked through and through and hold no directive: templates are made of
elements that are no directives, and expansion marks each of them. Whatever renderings make of an
authored document, the runs before its anchors consist of such trees. -/
namespace LiveMarkup

mutual

/-- Every element of a tree carries the mark of generated ones and is no directive. -/
def Tree.Sealed (s : Settings) : Tree → Prop
  | .text _ => True
  | .element tag attributes children =>
    Entries.get? s.generatedAttribute attributes = some "true" ∧ s.directive? tag = none ∧
      Tree.SealedAll s children

def Tree.SealedAll (s : Settings) : List Tree → Prop
  | [] => True
  | t :: rest => t.Sealed s ∧ Tree.SealedAll s rest

end

variable {s : Settings} {model : Value} {scope : Scope} {registry : Registry} {trees : List Tree}

theorem Tree.sealedAll_iff : Tree.SealedAll s trees ↔ ∀ t ∈ trees, t.Sealed s := by
  induction trees with
  | nil => simp [SealedAll]
  | cons t rest ih => simp [SealedAll, ih]

/-- All definitions have plain templates. -/
def Registry.Plain (s : Settings) (registry : Registry) : Prop :=
  ∀ name definition, Entries.get? name registry = some definition →
    ∀ t ∈ definition.fragment, t.Plain s

theorem Registry.Plain.register (h : registry.Plain s) (name : String) {definition : Definition}
    (hplain : ∀ t ∈ definition.fragment, t.Plain s) :
    Registry.Plain s (registry.register name definition).2 := by
  intro key found hfound
  rw [Registry.register, Entries.get?_put] at hfound
  split at hfound
  · cases hfound
    exact hplain
  · exact h key found hfound

/-- From plain definitions, only sealed trees and plain definitions come. -/
def Meaning.Sealed (s : Settings) (meaning : Meaning) : Prop :=
  ∀ registry : Registry, registry.Plain s →
    (∀ t ∈ (meaning registry).1, t.Sealed s) ∧ Registry.Plain s (meaning registry).2

theorem Meaning.closed_sealed (s : Settings) : Closed (Sealed s) where
  nothing _ h := ⟨nofun, h⟩
  join h h' registry hplain := by
    obtain ⟨hfirst, hplain₁⟩ := h registry hplain
    obtain ⟨hsecond, hplain₂⟩ := h' _ hplain₁
    exact ⟨List.forall_mem_append.2 ⟨hfirst, hsecond⟩, hplain₂⟩

namespace Template

variable {uses : Fragment → Scope → Meaning} {t : Template}

theorem sealed_textTrees (content : String) : ∀ t ∈ Tree.textTrees content, t.Sealed s := by
  intro t ht
  rw [Tree.textTrees] at ht
  split at ht
  · cases ht
  · rw [List.mem_singleton.1 ht]
    trivial

theorem denote_sealed (huses : ∀ fragment, (∀ t ∈ fragment, t.Plain s) →
      ∀ scope, (uses fragment scope).Sealed s) (ht : t.Plain s) (scope : Scope) :
    (denote s model uses t scope).Sealed s := by
  have hP := Meaning.closed_sealed s
  induction t using Template.induction generalizing scope with
  | element tag attributes text children ih =>
    cases ht with
    | element htag hchildren =>
      intro registry hplain
      obtain ⟨htrees, hplain'⟩ :=
        hP.denoteAll (fun t ht => ih t ht (hchildren t ht)) scope registry hplain
      rw [denote]
      refine ⟨List.forall_mem_singleton.2 ⟨get?_generatedAttributes attributes scope, htag,
        Tree.sealedAll_iff.2 ?_⟩, hplain'⟩
      exact List.forall_mem_append.2 ⟨sealed_textTrees _, htrees⟩
  | repetition source binding children ih =>
    cases ht with
    | repetition hchildren =>
      intro registry hplain
      rw [denote]
      dsimp only
      split
      · exact hP.nothing registry hplain
      · exact hP.gather (fun _ _ => hP.denoteAll (fun t ht => ih t ht (hchildren t ht)) _) registry
          hplain
  | conditional test children ih =>
    cases ht with
    | conditional hchildren =>
      rw [denote]
      split
      · exact hP.denoteAll (fun t ht => ih t ht (hchildren t ht)) scope
      · exact hP.nothing
  | recursive name target source children ih =>
    cases ht with
    | recursive hchildren =>
      have hall : ∀ scope, (denoteAll s model uses children scope).Sealed s :=
        hP.denoteAll fun t ht => ih t ht (hchildren t ht)
      intro registry hplain
      rw [denote]
      dsimp only
      split
      · exact hall _ _ (hplain.register _ hchildren)
      · split
        · exact hP.nothing registry hplain
        · next definition hfound =>
          rw [Registry.instance?, Option.map_eq_some_iff] at hfound
          obtain ⟨found, hentry, rfl⟩ := hfound
          exact huses found.fragment (hplain _ _ hentry) _ registry hplain
      · exact hall scope registry hplain

/-- A plain template stands for sealed trees. -/
theorem meaning_sealed (depth : Nat) (ht : t.Plain s) (model : Value) (scope : Scope) :
    (t.meaning s depth model scope).Sealed s :=
  (Meaning.closed_sealed s).meaning_of (fun _ huses _ ht => denote_sealed huses ht) depth ht scope

end Template

namespace Outline

mutual

/-- The anchors have plain templates, and the runs before them are sealed. -/
def Sealed (s : Settings) : Outline → Prop
  | text _ => True
  | plain _ _ _ _ inner => SealedAll s inner
  | anchor _ _ template _ run => template.Plain s ∧ ∀ t ∈ run, t.Sealed s

def SealedAll (s : Settings) : List Outline → Prop
  | [] => True
  | l :: rest => l.Sealed s ∧ SealedAll s rest

end

variable {l : Outline} {ls : List Outline}

theorem sealedAll_iff : SealedAll s ls ↔ ∀ l ∈ ls, l.Sealed s := by
  induction ls with
  | nil => simp [SealedAll]
  | cons l rest ih => simp [SealedAll, ih]

theorem sealedAll_placeText {source : String} (h : SealedAll s ls) :
    SealedAll s (placeText source model scope ls) := by
  refine sealedAll_iff.2 fun l hl => ?_
  rcases isText_or_mem_of_mem_placeText hl with htext | hl
  · obtain ⟨content, rfl⟩ := exists_of_isText htext
    trivial
  · exact sealedAll_iff.1 h l hl

theorem sealedAll_renderAll_of_forall (model : Value) (scope : Scope) (hplain : registry.Plain s)
    (h : ∀ l ∈ ls, ∀ registry : Registry, registry.Plain s →
      (render s model scope l registry).1.Sealed s ∧
        Registry.Plain s (render s model scope l registry).2) :
    SealedAll s (renderAll s model scope ls registry).1 ∧
      Registry.Plain s (renderAll s model scope ls registry).2 := by
  induction ls generalizing registry with
  | nil => exact ⟨trivial, hplain⟩
  | cons l rest ih =>
    rw [List.forall_mem_cons] at h
    rw [renderAll_cons]
    obtain ⟨hl, hplain₁⟩ := h.1 registry hplain
    obtain ⟨hrest, hplain₂⟩ := ih hplain₁ h.2
    exact ⟨⟨hl, hrest⟩, hplain₂⟩

theorem sealed_render (model : Value) (scope : Scope) (hl : l.Sealed s) (hplain : registry.Plain s) :
    (render s model scope l registry).1.Sealed s ∧
      Registry.Plain s (render s model scope l registry).2 := by
  induction l generalizing registry with
  | text content => exact ⟨trivial, hplain⟩
  | plain tag attributes sources source inner ih =>
    rw [render_plain]
    obtain ⟨hinner, hplain'⟩ := sealedAll_renderAll_of_forall model scope hplain
      fun l hl' _ => ih l hl' (sealedAll_iff.1 hl l hl')
    exact ⟨sealedAll_placeText hinner, hplain'⟩
  | anchor tag attributes template inside run =>
    rw [render_anchor]
    obtain ⟨hrun, hplain'⟩ := Template.meaning_sealed 0 hl.1 model scope registry hplain
    exact ⟨⟨hl.1, hrun⟩, hplain'⟩

/-- Rendering keeps runs sealed and definitions plain. -/
theorem sealedAll_renderAll (model : Value) (scope : Scope) (hls : SealedAll s ls) (hplain : registry.Plain s) :
    SealedAll s (renderAll s model scope ls registry).1 ∧
      Registry.Plain s (renderAll s model scope ls registry).2 :=
  sealedAll_renderAll_of_forall model scope hplain fun l hl _ =>
    sealed_render model scope (sealedAll_iff.1 hls l hl)

mutual

theorem sealed_ofTree (s : Settings) : ∀ t : Tree, (ofTree s t).Sealed s
  | .text _ => trivial
  | .element tag attributes children => by
    rw [ofTree]
    split
    · exact ⟨Template.plain_ofDirective _ _ (Template.plain_compileAll s children), nofun⟩
    · exact sealedAll_ofTrees s children

/-- Authored outlines have no runs yet. -/
theorem sealedAll_ofTrees (s : Settings) : ∀ trees : List Tree, SealedAll s (ofTrees s trees)
  | [] => trivial
  | t :: rest => ⟨sealed_ofTree s t, sealedAll_ofTrees s rest⟩

end

end Outline
end LiveMarkup
