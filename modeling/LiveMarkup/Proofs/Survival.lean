import LiveMarkup.Proofs.Authored
import LiveMarkup.Proofs.Cached
import LiveMarkup.Proofs.Extending

/-! Histories of renderings. Whatever the models and the scopes, and even where a rendering fails,
what lasts of a document keeps its place. -/
namespace LiveMarkup

variable {s : Settings} {runs : List (Value × Scope)} {d₀ d d' : Document} {id p c r x y : NodeId}
  {model : Value} {scope : Scope}

namespace Document

/-- The run before an anchor, with what stands around it. -/
theorem Sound.exists_of_mem_generatedRun {anchor : NodeId} (hd : d.Sound)
    (hx : x ∈ d.generatedRun s anchor) : ∃ q before between after, d.parent? anchor = some q ∧
      d.children q = before ++ x :: (between ++ anchor :: after) ∧
      ∀ y ∈ x :: between, d.isGenerated s y = true := by
  rw [generatedRun] at hx
  obtain ⟨-, hnone⟩ | ⟨q, left, after, hparent, hrow, hleft⟩ := hd.precedingSiblings_cases anchor
  · rw [hnone] at hx
    cases hx
  rw [hleft] at hx
  obtain ⟨nearer, farther, hrun⟩ := List.append_of_mem hx
  obtain ⟨before, rfl⟩ : ∃ before, left = before ++ x :: nearer.reverse := by
    have hsplit := congrArg List.reverse
      (List.takeWhile_append_dropWhile (p := d.isGenerated s) (l := left.reverse))
    rw [hrun] at hsplit
    exact ⟨(left.reverse.dropWhile (d.isGenerated s)).reverse ++ farther.reverse,
      by simpa using hsplit.symm⟩
  refine ⟨q, before, nearer.reverse, after, hparent, ?_, fun y hy => ?_⟩
  · rw [hrow, List.append_assoc, List.cons_append]
  · refine List.mem_takeWhile_imp (l := (before ++ x :: nearer.reverse).reverse) ?_
    rw [hrun]
    rcases List.mem_cons.1 hy with rfl | hy
    · simp
    · simp [List.mem_reverse.1 hy]

open scoped Classical in
/-- What would be swept does not last: it looks generated, and in the old document, too, nothing
else stands between it and the anchor. -/
theorem Retains.not_lasts_of_run {anchor : NodeId} (h : d₀.Retains s runs d)
    (hexposed : d₀.Lasts s runs anchor → d₀.Exposed s anchor)
    (hdirective : (d.directive? s anchor).isSome = true) (hx : x ∈ d.generatedRun s anchor) :
    ¬ d₀.Lasts s runs x := fun hlasts => by
  obtain ⟨q, before, between, after, hparent, hchildren, hmarked⟩ :=
    h.sound.exists_of_mem_generatedRun hx
  have hmem : x ∈ d.children q := by simp [hchildren]
  have hq := h.parent hlasts (h.sound.mem_children_iff.1 hmem)
  have hanchor : d₀.Lasts s runs anchor := by
    by_contra hnot
    rw [(h.stray q anchor hq (h.sound.mem_children_iff.2 hparent) hnot).1] at hdirective
    cases hdirective
  have hplain : d₀.Plain s q :=
    plain_of_parent (hexposed hanchor) h.origin ((h.held anchor hanchor).parent ▸ hparent)
  have hfeigns : ∀ y, d₀.Lasts s runs y → y ∈ x :: between → d₀.Feigns s runs y :=
    fun y hy hmem => (h.held y hy).mark (hmarked y hmem)
  have hrow := (h.held q hq).row
  rw [hchildren, List.filter_append, List.filter_cons_of_pos (by simpa using hlasts),
    List.filter_append, List.filter_cons_of_pos (by simpa using hanchor)] at hrow
  obtain ⟨before', between', after', hold, hbetween⟩ := exists_of_filter_eq hrow.symm
  refine hlasts.safe x .refl ⟨q, before', between', anchor, after', hplain, hold, ?_,
    hfeigns x hlasts (List.mem_cons_self ..), fun y hy => ?_⟩
  · rwa [← h.directive? hanchor]
  · by_cases hlasting : d₀.Lasts s runs y
    · have hpicked : y ∈ between'.filter (d₀.Lasts s runs ·) :=
        List.mem_filter.2 ⟨hy, by simpa using hlasting⟩
      rw [hbetween] at hpicked
      exact Or.inl (hfeigns y hlasting (List.mem_cons_of_mem _ (List.mem_filter.1 hpicked).1))
    · exact hq.child h.origin (by simp [hold, hy]) hlasting

/-- What lasts is retained, if it was so far. -/
def Follows (s : Settings) (runs : List (Value × Scope)) (d₀ d d' : Document) : Prop :=
  d₀.Retains s runs d → d₀.Retains s runs d'

instance : Std.Refl (Follows s runs d₀) := ⟨fun _ h => h⟩

instance : IsTrans Document (Follows s runs d₀) where
  trans _ _ _ h h' hd := h' (h hd)

/-- Renderings retain what lasts, and their expansions keep all tags, too. -/
theorem renderingKeeps_retains (hrun : (model, scope) ∈ runs) :
    RenderingKeeps s model scope (Follows s runs d₀) (Extends s runs d₀) (Retains s runs d₀)
      (fun _ x => x ≠ .root ∧ (d₀.Lasts s runs x → d₀.Exposed s x))
      (fun _ x => d₀.Lasts s runs x → d₀.Plain s x)
      (fun d x => ¬ d₀.Lasts s runs x ∧ ∃ tag, d.tagName? x = some tag ∧ s.directive? tag = none)
      (Template.Plain s) where
  inv hE hd := hE.retains hd
  new hE := by
    rintro ⟨hx, tag, htag, hdirective⟩
    exact ⟨hx, tag, hE.tags _ tag htag, hdirective⟩
  good_of_mem ht hu := by cases ht <;> exact ‹∀ t ∈ _, _› _ hu
  good_of_compiled _ := Template.plain_of_template?
  createElement hd hgood h := by
    cases hgood with
    | element htag _ =>
      obtain ⟨hextends, hnot, htold⟩ := hd.createElement h
      exact ⟨hextends, hnot, _, htold, htag⟩
  setNote _ hx h :=
    ⟨fun hd => hd.setNote h fun hlasts => absurd hlasts hx.1, keepsTags_setNote h⟩
  setDirectText hd hx content := hd.setDirectText (fun hlasts => absurd hlasts hx.1) content
  setAttribute _ hx h :=
    ⟨fun hd => hd.setAttribute h fun hlasts => absurd hlasts hx.1, keepsTags_setAttribute h⟩
  append hd hp hc h := hd.append hp.1 hc.1 h
  of_expansion hE hd := hE.retains hd
  keep h hd := h hd
  loose _ hx := hx
  free _ hx := hx
  free_of_loose hd hx hdirective hlasts := ⟨hx.2 hlasts, hd.directive? hlasts ▸ hdirective⟩
  loose_of_child hd hp hx := by
    have hparent := hd.sound.mem_children_iff.1 hx
    refine ⟨?_, fun hlasts => ?_⟩
    · rintro rfl
      rw [hd.sound.parent?_root] at hparent
      cases hparent
    · exact exposed_of_child (hp (hd.parent hlasts hparent))
        ((hd.held _ hlasts).parent ▸ hparent)
  fill hd hid hdirective :=
    (hd.fill hrun hid.1 fun hlasts => hd.directive? hlasts ▸ hdirective).mono
      (fun _ hextends => hextends.retains) fun _ _ h => h
  sweep hd hanchor hdirective hx _ h hd₁ :=
    hd₁.remove (hd.not_lasts_of_run hanchor.2 hdirective hx) h
  insertBefore hd _ := by
    rintro ⟨hc, tag, htag, hdirective⟩ h
    exact hd.insertBefore hc htag hdirective h
  hide hd _ hdirective _ h hd₁ := by
    refine hd₁.setAttribute h fun hlasts _ => ⟨nofun, fun hnone => ?_⟩
    rw [hd.directive? hlasts, hnone] at hdirective
    cases hdirective

end Document

namespace Pass

/-- The stage after renderings one after the other, failing ones included. -/
def afterEach (history : List (Value × Scope)) (stage : Stage) : Stage :=
  history.foldl (fun stage run => after (render .root run.1 run.2) stage) stage

variable {stage : Stage} {history : List (Value × Scope)}

theorem fit_after_render (hrun : (model, scope) ∈ runs)
    (hfit : stage.Fit s (Document.Retains s runs d₀) (Template.Plain s)) :
    (after (render .root model scope) stage).Fit s (Document.Retains s runs d₀)
      (Template.Plain s) :=
  (((Document.renderingKeeps_retains hrun).render hfit fun _ =>
    Document.plain_root hfit.document.origin).after hfit).1

theorem fit_afterEach (hruns : ∀ run ∈ history, run ∈ runs)
    (hfit : stage.Fit s (Document.Retains s runs d₀) (Template.Plain s)) :
    (afterEach history stage).Fit s (Document.Retains s runs d₀) (Template.Plain s) := by
  induction history generalizing stage with
  | nil => exact hfit
  | cons run rest ih =>
    rw [List.forall_mem_cons] at hruns
    exact ih hruns.2 (fit_after_render hruns.1 hfit)

end Pass

namespace Document

/-- No node carries the mark of generated ones. -/
def Unmarked (s : Settings) (d : Document) : Prop := ∀ x, d.isGenerated s x = false

theorem unmarked_iff : d.Unmarked s ↔
    ∀ i, ∀ hi : i < d.slots.size, d.isGenerated s ⟨i, d.slots[i].generation⟩ = false := by
  refine ⟨fun h i hi => h _, fun h x => ?_⟩
  cases hx : d.node? x with
  | none =>
    rw [isGenerated, attribute?, attributes, hx]
    rfl
  | some n =>
    obtain ⟨hlt, hgeneration, -⟩ := lt_size_of_node? hx
    have hslot := h x.slot hlt
    rwa [hgeneration] at hslot

instance (s : Settings) (d : Document) : Decidable (d.Unmarked s) :=
  decidable_of_iff' _ unmarked_iff

theorem Safe.lasts (h : d.Safe s runs x) (hx : (d.tagName? x).isSome = true) :
    d.Lasts s runs x := by
  obtain ⟨tag, htag⟩ := Option.isSome_iff_exists.1 hx
  refine ⟨?_, h, fun htext => ?_⟩
  · rw [tagName?, Option.bind_eq_some_iff] at htag
    obtain ⟨n, hn, -⟩ := htag
    exact contains_iff.2 ⟨n, hn⟩
  · rw [text?_eq_none_of_tagName? htag] at htext
    cases htext

open scoped Classical in
/-- Lasting elements stand below one node in their old order. -/
theorem Retains.sublist_childElements {l : List NodeId} (h : d₀.Retains s runs d)
    (hl : l.Sublist (d₀.childElements p)) (hlasts : ∀ x ∈ l, d₀.Lasts s runs x) :
    l.Sublist (d.childElements p) := by
  cases l with
  | nil => exact List.nil_sublist _
  | cons x rest =>
    have hx := hlasts x (List.mem_cons_self ..)
    have hp : d₀.Lasts s runs p := by
      have hchild := (List.mem_filter.1 (hl.subset (List.mem_cons_self ..))).1
      exact hx.parent h.origin (h.origin.mem_children_iff.1 hchild)
    have hself : (x :: rest).filter (d₀.Lasts s runs ·) = x :: rest :=
      List.filter_eq_self.2 fun y hy => by simpa using hlasts y hy
    rw [← hself]
    refine (hl.filter _).trans ?_
    rw [childElements, List.filter_comm, ← (h.held p hp).row, childElements]
    rw [List.filter_congr fun c hc => ?_, List.filter_comm]
    · exact List.filter_sublist
    · rw [(h.held c (by simpa using (List.mem_filter.1 hc).2)).tag]

end Document

namespace Pass

variable {tree : TreeId} {text : String} {engine : Engine}

/-- Whatever a document is rendered against, one after the other, and even where renderings fail:
what was read into it as an element stays where it was, and elements in one place keep their order,
unless they are endangered or inside of what is. -/
theorem authored_stay (hread : Document.read tree text = .ok d)
    (hcreate : Engine.create s = .ok engine) (hmarks : d.Unmarked s)
    (runs : List (Value × Scope)) :
    (∀ x, (d.tagName? x).isSome = true → d.Safe s runs x →
      (afterEach runs ⟨engine, d⟩).document.tagName? x = d.tagName? x ∧
      (afterEach runs ⟨engine, d⟩).document.parent? x = d.parent? x) ∧
    ∀ p (l : List NodeId), l.Sublist (d.childElements p) → (∀ x ∈ l, d.Safe s runs x) →
      l.Sublist ((afterEach runs ⟨engine, d⟩).document.childElements p) := by
  obtain ⟨-, rfl⟩ := Engine.create_eq_ok hcreate
  have hd := Document.read_unnoted hread
  have hfit : Stage.Fit s (Document.Retains s runs d) (Template.Plain s) ⟨.ofSettings s, d⟩ :=
    ⟨rfl, .refl hd.sound hd.noteless hmarks, nofun, nofun⟩
  have hretains := (fit_afterEach (fun _ hrun => hrun) hfit).document
  refine ⟨fun x hx hsafe => ?_, fun p l hl hsafe => ?_⟩
  · have hheld := hretains.held x (hsafe.lasts hx)
    exact ⟨hheld.tag, hheld.parent⟩
  · refine hretains.sublist_childElements hl fun x hx => (hsafe x hx).lasts ?_
    exact (List.mem_filter.1 (hl.subset hx)).2

/-- An element comes to look generated and stays, since another one stands between it and the
directive. A third one, right before the directive, is swept away. -/
theorem authored_stay_behind_other : ∃ d,
    Document.read ⟨0⟩ ("<i data-generated=\"{{x}}\"/><u/><p data-generated=\"{{x}}\"/>" ++
      "<if test=\"x\"><b/></if>") = .ok d ∧
    Engine.create .default = .ok (.ofSettings .default) ∧ d.Unmarked .default ∧
    let runs : List (Value × Scope) := [(.map [("x", .string "true")], .empty)]
    let d' := (afterEach runs ⟨.ofSettings .default, d⟩).document
    ((d.tagName? ⟨1, 0⟩).isSome = true ∧ d.Safe .default runs ⟨1, 0⟩ ∧
      d'.tagName? ⟨1, 0⟩ = d.tagName? ⟨1, 0⟩ ∧ d'.parent? ⟨1, 0⟩ = d.parent? ⟨1, 0⟩) ∧
    ([⟨1, 0⟩, ⟨2, 0⟩, ⟨4, 0⟩].Sublist (d.childElements .root) ∧
      (∀ x ∈ [⟨1, 0⟩, ⟨2, 0⟩, ⟨4, 0⟩], d.Safe .default runs x) ∧
      [⟨1, 0⟩, ⟨2, 0⟩, ⟨4, 0⟩].Sublist (d'.childElements .root)) ∧
    d'.isGenerated .default ⟨1, 0⟩ = true ∧ d'.contains ⟨3, 0⟩ = false := by
  have hrun : Option.any (fun d =>
        decide (d.Unmarked .default ∧ (d.tagName? ⟨1, 0⟩).isSome = true ∧
          d.children .root = [] ++ ⟨1, 0⟩ :: ⟨2, 0⟩ :: [⟨3, 0⟩, ⟨4, 0⟩] ∧
          d.childElements .root = [⟨1, 0⟩, ⟨2, 0⟩, ⟨3, 0⟩, ⟨4, 0⟩] ∧
          d.directive? .default ⟨2, 0⟩ = none ∧ d.text? ⟨2, 0⟩ = none ∧
          d.attribute? ⟨2, 0⟩ "data-generated" = none ∧
          d.directive? .default ⟨4, 0⟩ ≠ none) &&
        let d' := (afterEach [(.map [("x", .string "true")], .empty)]
          ⟨.ofSettings .default, d⟩).document
        d'.isGenerated .default ⟨1, 0⟩ && !d'.contains ⟨3, 0⟩)
      (Document.read ⟨0⟩ ("<i data-generated=\"{{x}}\"/><u/><p data-generated=\"{{x}}\"/>" ++
        "<if test=\"x\"><b/></if>")).toOption = true := by
    decide +kernel
  obtain ⟨d, hread, hrun⟩ := exists_of_toOption_any hrun
  simp only [Bool.and_eq_true, Bool.not_eq_true'] at hrun
  obtain ⟨hfacts, hmarked, hgone⟩ := hrun
  obtain ⟨hmarks, htag, hrow, helements, hplain, htext, hnone, hdirective⟩ :=
    of_decide_eq_true hfacts
  have hd := (Document.read_unnoted hread).sound
  have hsafe : ∀ {x}, x ∈ d.children .root →
      ¬ d.Endangered .default [(.map [("x", .string "true")], .empty)] x →
      d.Safe .default [(.map [("x", .string "true")], .empty)] x := fun hx hnot =>
    (Document.safe_iff_of_parent? (hd.mem_children_iff.1 hx)).2 ⟨hnot, hd.safe_root⟩
  have hother : ¬ d.Feigns .default [(.map [("x", .string "true")], .empty)] ⟨2, 0⟩ := by
    rintro ⟨-, source, hsource, -⟩
    exact absurd (hnone.symm.trans hsource) nofun
  have hfirst := hsafe (x := ⟨1, 0⟩) (by simp [hrow])
    (hd.not_endangered_of_next hrow hplain hother htext)
  have hall : ∀ x ∈ [⟨1, 0⟩, ⟨2, 0⟩, ⟨4, 0⟩],
      d.Safe .default [(.map [("x", .string "true")], .empty)] x := by
    refine List.forall_mem_cons.2 ⟨hfirst, List.forall_mem_cons.2 ⟨?_,
      List.forall_mem_singleton.2 ?_⟩⟩
    · exact hsafe (by simp [hrow]) fun h => hother h.feigns
    · exact hsafe (by simp [hrow]) fun h => hdirective h.feigns.1
  have hsub : [⟨1, 0⟩, ⟨2, 0⟩, ⟨4, 0⟩].Sublist (d.childElements .root) := by
    rw [helements]
    decide
  have hcreate : Engine.create .default = .ok (.ofSettings .default) := rfl
  obtain ⟨hplace, horder⟩ := authored_stay hread hcreate hmarks
    [(.map [("x", .string "true")], .empty)]
  exact ⟨d, hread, hcreate, hmarks, ⟨htag, hfirst, hplace _ htag hfirst⟩,
    ⟨hsub, hall, horder _ _ hsub hall⟩, hmarked, hgone⟩

/-- So not all that was read stays: right before a directive, an element that is filled so that it
looks generated is swept away. -/
theorem not_authored_kept : ¬ ∀ (tree : TreeId) (text : String) (d : Document) (engine : Engine)
    (runs : List (Value × Scope)) (x : NodeId), Document.read tree text = .ok d →
    Engine.create .default = .ok engine → d.Unmarked .default → (d.tagName? x).isSome = true →
    (afterEach runs ⟨engine, d⟩).document.contains x = true := by
  intro h
  have hrun : (Document.read ⟨0⟩
      "<p data-generated=\"{{x}}\"/><if test=\"y\"><b/></if>").toOption.any (fun d =>
        decide (d.Unmarked .default ∧ (d.tagName? ⟨1, 0⟩).isSome = true ∧
        (afterEach [(.map [("x", .string "true")], .empty)]
          ⟨.ofSettings .default, d⟩).document.contains ⟨1, 0⟩ = false)) = true := by
    decide +kernel
  obtain ⟨d, hread, hrun⟩ := exists_of_toOption_any hrun
  obtain ⟨hmarks, hx, hgone⟩ := of_decide_eq_true hrun
  rw [h ⟨0⟩ _ d _ _ ⟨1, 0⟩ hread rfl hmarks hx] at hgone
  cases hgone

end Pass

end LiveMarkup
