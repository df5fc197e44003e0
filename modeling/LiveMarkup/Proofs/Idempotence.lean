import LiveMarkup.Proofs.Registry

/-! Rendering once more with the same model and scope. Whatever was rendered before, the second of
two such renderings finds the run of each anchor as it is going to make it, and each text and
attribute already showing its source, so it shows nothing new. -/
namespace LiveMarkup

namespace Outline

variable {s : Settings} {model : Value} {scope : Scope} {ls : List Outline}

theorem placeText_placeText (source : String) (inner : List Outline) :
    placeText source model scope (placeText source model scope inner) =
      placeText source model scope inner := by
  by_cases happears : Placeholder.appearsIn source = true
  · simp only [placeText, if_pos happears]
    exact replaceWhere_replaceWhere (fun l hl => isText_of_mem_oneText hl) inner
  · simp only [placeText, if_neg happears]

theorem renderAll_again_of_forall (h : ∀ l ∈ ls, ∀ registry,
    render s model scope (render s model scope l registry).1 registry =
      render s model scope l registry) (registry : Registry) :
    renderAll s model scope (renderAll s model scope ls registry).1 registry =
      renderAll s model scope ls registry := by
  induction ls generalizing registry with
  | nil => rfl
  | cons l rest ih =>
    rw [List.forall_mem_cons] at h
    rw [renderAll_cons, renderAll_cons, h.1, ih h.2]

theorem render_again (l : Outline) (registry : Registry) :
    render s model scope (render s model scope l registry).1 registry =
      render s model scope l registry := by
  induction l generalizing registry with
  | text content => rfl
  | plain tag attributes sources source inner ih =>
    rw [render_plain, render_plain, renderAll_placeText, renderAll_again_of_forall ih,
      placeText_placeText]
  | anchor tag attributes template inside run => rw [render_anchor, render_anchor, Entries.put_put]

/-- From the registry that it started from, a rendering makes the same of what it made. -/
theorem renderAll_again (ls : List Outline) (registry : Registry) :
    renderAll s model scope (renderAll s model scope ls registry).1 registry =
      renderAll s model scope ls registry :=
  renderAll_again_of_forall (fun l _ => render_again l) registry

end Outline

namespace Pass

/-- A document that was read and rendered any number of times shows the same after two renderings
with one model and scope as after the first of them, as long as both find the same definitions. The
second one can only fail where every slot is in use. -/
theorem render_twice {tree : TreeId} {text : String} {d : Document} {s : Settings} {engine : Engine}
    {history : List (Value × Scope)} {first second : Stage} {model : Value} {scope : Scope}
    {counts : Counts} (hread : Document.read tree text = .ok d)
    (hcreate : Engine.create s = .ok engine) (hmarks : Tree.UnmarkedAll s d.content)
    (hhistory : renderEach history ⟨engine, d⟩ = .ok () first)
    (hrender : render .root model scope first = .ok counts second) :
    (Tree.NonrecursiveAll s d.content → second.engine.registry = first.engine.registry) ∧
    (Registry.Same second.engine.registry first.engine.registry →
      (∃ counts third, render .root model scope second = .ok counts third ∧
        third.document.markup = second.document.markup) ∨
      ∃ third, render .root model scope second = .error .outOfSlots third ∧
        ¬ third.document.HasRoom) := by
  have hshows := Stage.showsAll_of_read hread hcreate hmarks
  obtain ⟨-, rfl⟩ := Engine.create_eq_ok hcreate
  obtain ⟨hshows₁, hregistry₁, hsettings₁⟩ := (runs_renderEach hshows history).ok hhistory
  obtain ⟨hshows₂, hregistry₂, hsettings₂⟩ := (runs_render hshows₁ model scope).ok hrender
  rw [hsettings₁] at hshows₂ hregistry₂ hsettings₂
  constructor
  · intro hnone
    have hkept := Outline.NonrecursiveAll.renderEach (s := s)
      (Outline.nonrecursiveAll_ofTrees s d.content hnone) history []
    exact hregistry₂.trans (congrArg Prod.snd (Outline.renderAll_keeps hkept _))
  · intro hsame
    have hthird : Runs (render .root model scope) second fun _ third =>
        third.document.markup = second.document.markup := by
      refine (runs_render hshows₂ model scope).mono ?_
      rintro - third ⟨hshows₃, -, -⟩
      rw [hsettings₂, Outline.renderAll_of_same _ hsame, Outline.renderAll_again] at hshows₃
      rw [hshows₃.markup_eq, hshows₂.markup_eq]
    obtain ⟨counts, third, hok, hmarkup⟩ | hfull := hthird.cases
    · exact Or.inl ⟨counts, third, hok, hmarkup⟩
    · exact Or.inr hfull

/-- A condition that did not hold at first and then does. -/
theorem render_twice_conditional : ∃ d engine first counts second,
    Document.read ⟨0⟩ "<p a=\"{{x}}\"><if test=\"x\"><b/></if></p>" = .ok d ∧
    Engine.create .default = .ok engine ∧ Tree.UnmarkedAll .default d.content ∧
    renderEach [(.empty, .empty)] ⟨engine, d⟩ = .ok () first ∧
    render .root (.map [("x", .bool true)]) .empty first = .ok counts second ∧
    Registry.Same second.engine.registry first.engine.registry ∧
    ((∃ counts third, render .root (.map [("x", .bool true)]) .empty second = .ok counts third ∧
        third.document.markup = second.document.markup) ∨
      ∃ third, render .root (.map [("x", .bool true)]) .empty second =
        .error .outOfSlots third ∧ ¬ third.document.HasRoom) := by
  have hrun : (match Document.read ⟨0⟩ "<p a=\"{{x}}\"><if test=\"x\"><b/></if></p>" with
      | .ok d => decide (Tree.UnmarkedAll .default d.content) &&
        match renderEach [(.empty, .empty)] ⟨.ofSettings .default, d⟩ with
        | .ok _ first =>
          match render .root (.map [("x", .bool true)]) .empty first with
          | .ok _ second => first.engine.registry.isEmpty && second.engine.registry.isEmpty
          | .error _ _ => false
        | .error _ _ => false
      | .error _ => false) = true := by
    decide +kernel
  have hcreate : Engine.create .default = .ok (.ofSettings .default) := rfl
  split at hrun
  · next d hread =>
    rw [Bool.and_eq_true] at hrun
    obtain ⟨hmarks, hrun⟩ := hrun
    split at hrun
    · next first hfirst =>
      split at hrun
      · next counts second hsecond =>
        rw [Bool.and_eq_true, List.isEmpty_iff, List.isEmpty_iff] at hrun
        have hsame : Registry.Same second.engine.registry first.engine.registry := by
          rw [hrun.1, hrun.2]
          exact fun _ => rfl
        exact ⟨d, _, first, counts, second, hread, hcreate, of_decide_eq_true hmarks, hfirst,
          hsecond, hsame, (render_twice hread hcreate (of_decide_eq_true hmarks) hfirst hsecond).2
            hsame⟩
      · cases hrun
    · cases hrun
  · cases hrun

end Pass
end LiveMarkup
