import LiveMarkup.Proofs.Cached
import LiveMarkup.Proofs.Document.Ages
import LiveMarkup.Proofs.Engines

/-! Runs that render a document again and again, clear the cache and edit the document in between.
As long as edits leave the anchors alone that the cache has templates for, each rendering does what
it would do with an empty cache. -/
namespace LiveMarkup

variable {s : Settings} {d d' : Document} {x : NodeId} {engine : Engine} {start stage : Stage}
  {ops more : List Operation} {model : Value} {scope : Scope}

/-- The stages that a run comes to, with the calls that have been made on the document. A call may
remove an anchor that the cache has a template for, or move it, but not change what it shows. -/
inductive Stage.Run (start : Stage) : List Operation → Stage → Prop
  | start : Run start [] start
  | clearCache {ops : List Operation} {engine : Engine} {d : Document}
    (h : Run start ops ⟨engine, d⟩) : Run start ops ⟨engine.clearCache, d⟩
  | render {ops more : List Operation} {stage : Stage} (h : Run start ops stage) (model : Value)
    (scope : Scope) (hcalls : Operation.performFrom stage.document more =
      (Pass.after (Pass.render .root model scope) stage).document) :
    Run start (ops ++ more) (Pass.after (Pass.render .root model scope) stage)
  | edit {ops : List Operation} {engine : Engine} {d : Document} (h : Run start ops ⟨engine, d⟩)
    (o : Operation) (hanchors : ∀ x, engine.cache.contains d.tree x = true →
      d.contains x = true → (o.perform d).contains x = true →
      (o.perform d).elementTree? x = d.elementTree? x) :
    Run start (ops ++ [o]) ⟨engine, o.perform d⟩

/-- The directive of an element, told from its tree. -/
def Tree.directive? (s : Settings) : Tree → Option Directive
  | .element tag _ _ => s.directive? tag
  | .text _ => none

namespace Document

theorem Sound.directive?_eq_bind (hd : d.Sound) (x : NodeId) :
    d.directive? s x = (d.elementTree? x).bind (Tree.directive? s) := by
  cases hx : d.node? x with
  | none => rw [directive?, elementTree?, tagName?, hx]; rfl
  | some n =>
    obtain ⟨⟨id, kind, notes, kids⟩, rfl, hw⟩ := hd.exists_shape (contains_iff.2 ⟨n, hx⟩)
    cases kind with
    | element tag attributes => rw [Shape.id_mk, hd.elementTree?_eq hw, directive?_eq hw]; rfl
    | root => rw [directive?, elementTree?, tagName?, Shape.id_mk, hw.1]; rfl
    | text content => rw [directive?, elementTree?, tagName?, Shape.id_mk, hw.1]; rfl

theorem Sound.directive?_eq_of_elementTree? (hd : d.Sound) (hd' : d'.Sound)
    (h : d'.elementTree? x = d.elementTree? x) : d'.directive? s x = d.directive? s x := by
  rw [hd'.directive?_eq_bind, hd.directive?_eq_bind, h]

theorem perform_tree (d : Document) (o : Operation) : (o.perform d).tree = d.tree := by
  have hsteps : StepsKeep fun d d' => d'.tree = d.tree := {
    refl := fun _ => rfl
    trans := fun h h' => h'.trans h
    update := fun _ _ _ => rfl
    vacate := fun _ => rfl
    allocate := allocate_tree }
  exact hsteps.perform d o

end Document

namespace Stage

/-- Nothing in the cache is stale, and no address of its entries can come to find another node as
long as the generations of its slot have not gone round. -/
structure Tended (s : Settings) (d : Document) (ops : List Operation) (stage : Stage) : Prop where
  calls : Operation.performFrom d ops = stage.document
  fresh : stage.Fresh s
  aged : ∀ x, (Entries.get? (stage.document.tree, x) stage.engine.cache.entries).isSome = true →
    ∃ count ≤ Operation.releasesAll x.slot ops d, stage.document.Aged x count

theorem Tended.clearCache (h : stage.Tended s d ops) :
    Tended s d ops { stage with engine := stage.engine.clearCache } where
  calls := h.calls
  fresh := ⟨⟨h.fresh.fit.settings, h.fresh.fit.document, h.fresh.fit.registry, nofun⟩, nofun⟩
  aged := nofun

theorem Tended.render (h : stage.Tended s d ops)
    (hhidden : s.hiddenAttribute ∉ Document.directiveAttributes)
    (hcalls : Operation.performFrom stage.document more =
      (Pass.after (Pass.render .root model scope) stage).document) :
    (Pass.after (Pass.render .root model scope) stage).Tended s d (ops ++ more) := by
  have hroot : stage.document.Plain s .root := Document.plain_root h.fresh.fit.document
  have hself : (stage.withCache stage.engine.cache).Fresh s := h.fresh
  obtain ⟨hfresh, hspares, hkeys⟩ :=
    (agrees_render hhidden h.fresh hself hroot).onward h.fresh
  refine ⟨?_, hfresh, fun x hx => ?_⟩
  · rw [Operation.performFrom, List.foldl_append]
    exact (congrArg (fun d => Operation.performFrom d more) h.calls).trans hcalls
  · rw [← hcalls, Operation.releasesAll_append, h.calls]
    rcases hkeys _ hx with hold | ⟨id, hid, hdirective⟩
    · rw [hspares.tree] at hold
      obtain ⟨count, hcount, haged⟩ := h.aged x hold
      exact ⟨_, by omega, haged.performFrom more⟩
    · obtain rfl : x = id := (Prod.mk.injEq .. ▸ hid).2
      have haged := Document.Aged.of_contains (Document.contains_of_directive? hdirective)
      exact ⟨_, by omega, haged.performFrom more⟩

theorem Tended.edit (h : stage.Tended s d ops) {o : Operation}
    (hreleases : ∀ slot, Operation.releasesAll slot (ops ++ [o]) d < 2 ^ 32)
    (hanchors : ∀ x, stage.engine.cache.contains stage.document.tree x = true →
      stage.document.contains x = true → (o.perform stage.document).contains x = true →
      (o.perform stage.document).elementTree? x = stage.document.elementTree? x) :
    Tended s d (ops ++ [o]) { stage with document := o.perform stage.document } := by
  have hd := h.fresh.fit.document
  have hcount : ∀ slot, Operation.releasesAll slot (ops ++ [o]) d =
      Operation.releasesAll slot ops d + o.releases stage.document slot := fun slot => by
    rw [Operation.releasesAll_append, h.calls]
    rfl
  refine ⟨?_, ⟨⟨h.fresh.fit.settings, hd.perform o, h.fresh.fit.registry, h.fresh.fit.cache⟩,
    fun id t ht hid => ?_⟩, fun x hx => ?_⟩
  · rw [Operation.performFrom, List.foldl_append]
    exact congrArg o.perform h.calls
  · dsimp only at ht hid ⊢
    rw [Document.perform_tree] at ht
    have hlive := Document.contains_of_directive? hid
    cases hold : stage.document.contains id with
    | true =>
      have hcached : stage.engine.cache.contains stage.document.tree id = true := by
        rw [Cache.contains, Entries.contains, ht]
        rfl
      have htree := hanchors id hcached hold hlive
      rw [hd.directive?_eq_of_elementTree? (hd.perform o) htree] at hid
      rw [Document.template?, htree]
      exact h.fresh.entry id t ht hid
    | false =>
      obtain ⟨count, hle, haged⟩ := h.aged id (by rw [ht]; rfl)
      have hlt := hreleases id.slot
      rw [hcount] at hlt
      rw [haged.contains_perform_eq_false hold o (by omega)] at hlive
      cases hlive
  · dsimp only at hx ⊢
    rw [Document.perform_tree] at hx
    obtain ⟨count, hle, haged⟩ := h.aged x hx
    exact ⟨_, by rw [hcount]; omega, haged.perform o⟩

theorem Run.reachable (h : start.Run ops stage) (hengine : start.engine.Reachable)
    (hd : start.document.Reachable) : stage.engine.Reachable ∧ stage.document.Reachable := by
  induction h with
  | start => exact ⟨hengine, hd⟩
  | clearCache _ ih => exact ⟨ih.1.clearCache, ih.2⟩
  | render _ model scope hcalls ih =>
    exact ⟨ih.1.render ih.2 .root model scope, ih.2.of_derives ⟨_, hcalls⟩⟩
  | edit _ o _ ih => exact ⟨ih.1, ih.2.perform o⟩

/-- Calls that make what a rendering makes can always be told, so a run can go on with any. -/
theorem Run.exists_render (h : start.Run ops stage) (hengine : start.engine.Reachable)
    (hd : start.document.Reachable) (model : Value) (scope : Scope) : ∃ more,
      start.Run (ops ++ more) (Pass.after (Pass.render .root model scope) stage) := by
  obtain ⟨hengine', hd'⟩ := h.reachable hengine hd
  obtain ⟨more, hmore⟩ := (hengine'.usable.render hd'.sound .root model scope).2
  exact ⟨more, .render h model scope hmore⟩

theorem Run.tended (h : start.Run ops stage) (hstart : start.Tended s start.document [])
    (hhidden : s.hiddenAttribute ∉ Document.directiveAttributes)
    (hreleases : ∀ slot, Operation.releasesAll slot ops start.document < 2 ^ 32) :
    stage.Tended s start.document ops := by
  have hbefore : ∀ {ops more : List Operation} {n : Nat}, (∀ slot,
      Operation.releasesAll slot (ops ++ more) start.document < n) →
      ∀ slot, Operation.releasesAll slot ops start.document < n := fun h slot => by
    have := h slot
    rw [Operation.releasesAll_append] at this
    omega
  induction h with
  | start => exact hstart
  | clearCache _ ih => exact (ih hreleases).clearCache
  | render _ model scope hcalls ih => exact (ih (hbefore hreleases)).render hhidden hcalls
  | edit _ o hanchors ih => exact (ih (hbefore hreleases)).edit hreleases hanchors

end Stage

/-- In a run that starts with a new engine, every rendering gives and leaves what it would with an
empty cache; and a run can always go on with a rendering. -/
theorem Pass.render_as_uncached (hcreate : Engine.create s = .ok engine) (hd : d.Reachable)
    (hhidden : s.hiddenAttribute ∉ Document.directiveAttributes)
    (hrun : Stage.Run ⟨engine, d⟩ ops stage)
    (hreleases : ∀ slot, Operation.releasesAll slot ops d < 2 ^ 32) (model : Value)
    (scope : Scope) :
    Pass.outcome (Pass.render .root model scope) stage =
      Pass.outcome (Pass.render .root model scope)
        ⟨{ Engine.ofSettings s with registry := stage.engine.registry }, stage.document⟩ ∧
    ∃ more, Stage.Run ⟨engine, d⟩ (ops ++ more)
      (Pass.after (Pass.render .root model scope) stage) := by
  refine ⟨?_, hrun.exists_render (.create hcreate) hd model scope⟩
  obtain ⟨-, rfl⟩ := Engine.create_eq_ok hcreate
  have hstart : Stage.Tended s d [] ⟨.ofSettings s, d⟩ :=
    ⟨rfl, ⟨⟨rfl, hd.sound, nofun, nofun⟩, nofun⟩, nofun⟩
  have hfresh := (hrun.tended hstart hhidden hreleases).fresh
  have hroot := Document.plain_root (s := s) hfresh.fit.document
  have hempty : (stage.withCache .empty).Fresh s :=
    ⟨⟨hfresh.fit.settings, hfresh.fit.document, hfresh.fit.registry, nofun⟩, nofun⟩
  have hsame : Pass.outcome (Pass.render .root model scope) (stage.withCache .empty) =
      Pass.outcome (Pass.render .root model scope) stage :=
    (agrees_render hhidden hfresh hempty hroot).outcome_eq
  refine hsame.symm.trans ?_
  obtain ⟨⟨settings, registry, cache, depth⟩, d'⟩ := stage
  obtain rfl : settings = s := hfresh.fit.settings
  rfl

/-- An anchor is removed after it was rendered, and its slot is taken by another directive. -/
theorem Pass.render_as_uncached_reused_slot :
    let d := Operation.performFrom (.empty ⟨0⟩) [.createElement "if",
      .setAttribute ⟨1, 0⟩ "test" "x", .createElement "b", .append ⟨1, 0⟩ ⟨2, 0⟩,
      .append .root ⟨1, 0⟩]
    let model : Value := .map [("x", .list [.bool true])]
    let first := Pass.after (Pass.render .root model .empty) ⟨.ofSettings .default, d⟩
    let last : Stage := { first with
      document := Operation.performFrom first.document [.remove ⟨1, 0⟩, .createElement "i",
        .createElement "each", .setAttribute ⟨1, 1⟩ "of" "x", .append ⟨1, 1⟩ ⟨2, 1⟩,
        .append .root ⟨1, 1⟩] }
    first.engine.cache.contains ⟨0⟩ ⟨1, 0⟩ = true ∧
    last.document.tagName? ⟨1, 1⟩ = some "each" ∧
    Pass.outcome (Pass.render .root model .empty) last =
      Pass.outcome (Pass.render .root model .empty)
        ⟨{ Engine.ofSettings .default with registry := last.engine.registry }, last.document⟩ := by
  intro d model first last
  have hd : d.Reachable := Document.Reachable.of_derives (.empty ⟨0⟩) ⟨_, rfl⟩
  have hcalls : Operation.performFrom d [.createElement "b",
      .setAttribute ⟨3, 0⟩ "data-generated" "true", .insertBefore .root ⟨3, 0⟩ ⟨1, 0⟩,
      .setAttribute ⟨1, 0⟩ "hidden" ""] = first.document := by
    decide +kernel
  have hkeys : Entries.keys first.engine.cache.entries = [(⟨0⟩, ⟨1, 0⟩)] := by decide +kernel
  have hcached : ∀ tree x, first.engine.cache.contains tree x = true → x = ⟨1, 0⟩ := by
    intro tree x hx
    have hmem : (tree, x) ∈ Entries.keys first.engine.cache.entries := by
      by_contra hnot
      rw [Cache.contains, Entries.contains, (Entries.get?_eq_none_iff _ _).2 hnot] at hx
      cases hx
    rw [hkeys, List.mem_singleton] at hmem
    exact congrArg Prod.snd hmem
  have hfirst : Stage.Run ⟨.ofSettings .default, d⟩ _ first := .render .start model .empty hcalls
  have hdead : ((List.range 5).all fun k => !(Operation.performFrom first.document
      ([.remove ⟨1, 0⟩, .createElement "i", .createElement "each", .setAttribute ⟨1, 1⟩ "of" "x",
        .append ⟨1, 1⟩ ⟨2, 1⟩].take (k + 1))).contains ⟨1, 0⟩) = true := by
    decide +kernel
  have hshown : first.engine.cache.contains ⟨0⟩ ⟨1, 0⟩ = true ∧
      last.document.tagName? ⟨1, 1⟩ = some "each" := ⟨by decide +kernel, by decide +kernel⟩
  refine ⟨hshown.1, hshown.2, ?_⟩
  clear_value first
  simp only [List.range, List.range.loop, List.all_cons, List.all_nil, Bool.and_true,
    Bool.and_eq_true, Bool.not_eq_true', List.take] at hdead
  obtain ⟨h₁, h₂, h₃, h₄, h₅⟩ := hdead
  have hvacuous : ∀ {d' d'' : Document}, d'.contains ⟨1, 0⟩ = false → ∀ x,
      first.engine.cache.contains d'.tree x = true → d'.contains x = true →
      d''.contains x = true → d''.elementTree? x = d'.elementTree? x := by
    intro d' d'' hd' x hx hlive
    rw [hcached _ x hx, hd'] at hlive
    cases hlive
  have hrun := (((((hfirst.edit (.remove ⟨1, 0⟩) fun x hx _ hafter => by
    rw [hcached _ x hx] at hafter
    cases h₁.symm.trans hafter).edit (.createElement "i") (hvacuous h₁)).edit
    (.createElement "each") (hvacuous h₂)).edit (.setAttribute ⟨1, 1⟩ "of" "x")
    (hvacuous h₃)).edit (.append ⟨1, 1⟩ ⟨2, 1⟩) (hvacuous h₄)).edit (.append .root ⟨1, 1⟩)
    (hvacuous h₅)
  have hcreate : Engine.create .default = .ok (.ofSettings .default) := rfl
  have hhidden : Settings.default.hiddenAttribute ∉ Document.directiveAttributes := by decide
  have hsame := Pass.render_as_uncached hcreate hd hhidden hrun (fun slot =>
    lt_of_le_of_lt (Operation.releasesAll_le slot _ d) (by decide)) model .empty
  simpa only [last, Operation.performFrom, List.foldl_cons, List.foldl_nil] using hsame.1

end LiveMarkup
