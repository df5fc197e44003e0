import Mathlib.Data.List.Induction
import LiveMarkup.Proofs.Engines

/-! Renderings come to their end. Below a node of any document, and with any engine that there can
be, nothing that a rendering asks of the document is refused, unless a node is asked for where no
slot is left. Neither does a rendering stop for want of fuel: more of it makes no difference. -/
namespace LiveMarkup

namespace Shape

mutual

/-- How deep elements stand inside each other below a node. -/
def height : Shape → Nat
  | ⟨_, _, _, kids⟩ => heightAll kids

def heightAll : List Shape → Nat
  | [] => 0
  | x :: rest => max (if x.isElement then x.height + 1 else 0) (heightAll rest)

end

variable {kids kids' : List Shape} {n : Nat}

theorem height_mk (q : NodeId) (kind : NodeKind) (notes : List (String × String))
    (kids : List Shape) : (mk q kind notes kids).height = heightAll kids := by
  rw [height]

theorem heightAll_le_iff : heightAll kids ≤ n ↔ ∀ x ∈ kids, x.isElement = true → x.height < n := by
  induction kids with
  | nil => simp [heightAll]
  | cons x rest ih =>
    rw [heightAll, Nat.max_le, ih, List.forall_mem_cons]
    refine and_congr_left fun _ => ?_
    split
    · next hx => exact ⟨fun h _ => h, fun h => h hx⟩
    · next hx => exact ⟨fun _ h => absurd h hx, fun _ => Nat.zero_le n⟩

/-- Elements inside each other are nodes of their own. -/
theorem height_lt (x : Shape) : x.height < x.ids.length := by
  induction x with
  | mk id kind notes kids ih =>
    rw [height, ids, List.length_cons, Nat.lt_succ_iff, heightAll_le_iff]
    exact fun c hc _ => (ih c hc).trans_le (length_ids_le hc)

theorem isElement_of_isText {x : Shape} (h : x.isText = true) : x.isElement = false := by
  obtain ⟨id, kind, notes, kids⟩ := x
  cases kind with
  | root => rfl
  | element tag attributes => cases h
  | text content => rfl

/-- Texts do not count. -/
theorem TextFilled.heightAll_le {source : String} {model : Value} {scope : Scope}
    (h : TextFilled source model scope kids kids') : heightAll kids' ≤ heightAll kids := by
  rw [TextFilled] at h
  split at h
  · obtain ⟨new, hnew, rfl⟩ := h
    refine heightAll_le_iff.2 fun x hx helement => ?_
    rcases mem_of_mem_replaceWhere hx with hx | hx
    · rw [isElement_of_isText (hnew.isText x hx)] at helement
      cases helement
    · exact heightAll_le_iff.1 (Nat.le_refl _) x hx helement
  · rw [h]

/-- A row is cut where the run of marked shapes at its end begins. -/
theorem exists_run (s : Settings) (kids : List Shape) : ∃ before run, kids = before ++ run ∧
    (∀ x ∈ run, x.isMarked s = true) ∧ ∀ x ∈ before.getLast?, x.isMarked s = false := by
  induction kids using List.reverseRecOn with
  | nil => exact ⟨[], [], rfl, nofun, nofun⟩
  | append_singleton kids x ih =>
    cases hx : x.isMarked s with
    | true =>
      obtain ⟨before, run, rfl, hrun, hlast⟩ := ih
      refine ⟨before, run ++ [x], List.append_assoc .., ?_, hlast⟩
      exact List.forall_mem_append.2 ⟨hrun, List.forall_mem_singleton.2 hx⟩
    | false =>
      refine ⟨kids ++ [x], [], (List.append_nil _).symm, nofun, fun y hy => ?_⟩
      rw [List.getLast?_concat] at hy
      cases hy
      exact hx

end Shape

section

variable {σ α β : Type} [AtDocument σ] {s : σ}

/-- Work ends as described, unless it runs out of slots, and other work does the very same. -/
def Alike (work work' : EStateM TreeError σ α) (s : σ) (post : α → σ → Prop) : Prop :=
  work s = work' s ∧ Runs work s post

namespace Alike

variable {work work' : EStateM TreeError σ α} {next next' : α → EStateM TreeError σ β}
  {post : α → σ → Prop}

theorem refl (h : Runs work s post) : Alike work work s post := ⟨rfl, h⟩

theorem mono {post' : α → σ → Prop} (h : Alike work work' s post)
    (himp : ∀ a t, post a t → post' a t) : Alike work work' s post' :=
  ⟨h.1, h.2.mono himp⟩

theorem bind {post' : β → σ → Prop} (h : Alike work work' s post)
    (hnext : ∀ a t, post a t → Alike (next a) (next' a) t post') :
    Alike (work >>= next) (work' >>= next') s post' := by
  obtain ⟨hsame, hrun⟩ := h
  refine ⟨?_, hrun.bind fun a t hpost => (hnext a t hpost).2⟩
  obtain ⟨a, t, hok, hpost⟩ | ⟨t, herror, -⟩ := hrun.cases
  · rw [bind_eq_of_ok hok, bind_eq_of_ok (hsame.symm.trans hok)]
    exact (hnext a t hpost).1
  · rw [bind_eq_of_error herror, bind_eq_of_error (hsame.symm.trans herror)]

theorem map {f : α → β} {post : β → σ → Prop}
    (h : Alike work work' s fun a t => post (f a) t) : Alike (f <$> work) (f <$> work') s post :=
  h.bind fun _ _ h => .refl (.pure h)

theorem get {next next' : σ → EStateM TreeError σ β} {post : β → σ → Prop}
    (h : Alike (next s) (next' s) s post) :
    Alike (MonadState.get >>= next) (MonadState.get >>= next') s post := h

end Alike

end

/-- A stage for renderings: what the engine knows can be used on the document. -/
structure Stage.Usable (stage : Stage) : Prop where
  engine : stage.engine.Usable
  document : stage.document.Sound

/-- A usable stage has become a usable one, and all that has changed is at a node and below it. -/
structure Stage.Becomes (stage stage' : Stage) (p : Option NodeId) (x x' : Shape) : Prop extends
    stage'.Usable where
  shape : x'.In stage'.document p
  replaces : stage.document.Replaces stage'.document x.ids x'.ids

/-- There is a template for every directive, and it can be expanded. -/
theorem Stage.Usable.exists_template {stage : Stage} {id : NodeId} {tag : String}
    {attributes notes : List (String × String)} {kids : List Shape} {p : Option NodeId}
    (h : stage.Usable)
    (hs : (⟨id, .element tag attributes, notes, kids⟩ : Shape).In stage.document p)
    (htag : (stage.engine.settings.directive? tag).isSome = true) :
    ∃ template, template.Valid ∧ stage.engine.cache.Gives stage.engine.settings
      stage.document.tree id (.element tag attributes (Shape.treesAll kids)) template := by
  cases hentry : Entries.get? (stage.document.tree, id) stage.engine.cache.entries with
  | some template => exact ⟨template, h.engine.cache _ _ hentry, Or.inl hentry⟩
  | none =>
    obtain ⟨directive, hdirective⟩ := Option.isSome_iff_exists.1 htag
    refine ⟨Template.ofDirective directive attributes
      (Template.compileAll stage.engine.settings (Shape.treesAll kids)),
      Template.valid_ofDirective _ _ ?_, Or.inr ⟨hentry, ?_⟩⟩
    · exact Template.validAll_compileAll_of_forall fun c hc =>
        h.document.validAll_compile (Shape.inAll_iff.1 hs.2 c hc)
    · rw [Template.compile, hdirective]
      rfl

namespace Pass

variable {stage : Stage} {p : Option NodeId} {q : NodeId} {kind : NodeKind}
  {notes : List (String × String)} {done todo rest : List Shape} {x : Shape} {model : Value}
  {scope : Scope} {fuel fuel' : Nat}

/-- An anchor is rendered, whatever stands before it. -/
theorem runs_visitAnchor_of_usable {id : NodeId} {tag : String}
    {attributes anotes : List (String × String)} {kids : List Shape} (h : stage.Usable)
    (hs : (⟨q, kind, notes,
      done ++ ⟨id, .element tag attributes, anotes, kids⟩ :: rest⟩ : Shape).In stage.document p)
    (htag : (stage.engine.settings.directive? tag).isSome = true) :
    Runs (visitAnchor q id model scope) stage fun _ stage' => ∃ done',
      stage.Becomes stage' p
        ⟨q, kind, notes, done ++ ⟨id, .element tag attributes, anotes, kids⟩ :: rest⟩
        ⟨q, kind, notes, done' ++ rest⟩ := by
  have hanchor := Shape.inAll_iff.1 hs.2 ⟨id, .element tag attributes, anotes, kids⟩ (by simp)
  obtain ⟨template, hvalid, hgives⟩ := h.exists_template hanchor htag
  have hhidden := (Settings.isAttributeName_of_fault? h.engine.settings).2
  have hkind : ∀ content, kind ≠ .text content := by
    rintro content rfl
    have hnone : (done ++ ⟨id, .element tag attributes, anotes, kids⟩ :: rest).map Shape.id = [] :=
      h.document.valid hs.1
    simp at hnone
  obtain ⟨before, run, rfl, hrun, hlast⟩ := Shape.exists_run stage.engine.settings done
  refine (runs_visitAnchor h.engine.ready hhidden h.document hs hkind hrun hlast hvalid hgives model
    scope).mono ?_
  rintro _ stage' ⟨cache, shapes, ⟨hentry, hothers⟩, hengine, hregistry, hd', -, -, -, hrow, hrep⟩
  refine ⟨before ++ shapes ++ [⟨id, .element tag (Entries.put
    stage.engine.settings.hiddenAttribute "" attributes), anotes, kids⟩], ⟨?_, hd'⟩, ?_, ?_⟩
  · rw [hengine]
    refine ⟨h.engine.settings, hregistry, fun key t ht => ?_⟩
    by_cases hkey : key = (stage.document.tree, id)
    · rw [hkey] at ht
      cases hentry.symm.trans ht
      exact hvalid
    · rw [hothers key hkey] at ht
      exact h.engine.cache key t ht
  · rwa [List.append_assoc, List.singleton_append]
  · rw [List.append_assoc _ [_], List.singleton_append]
    exact hrep

/-- Below nodes that are not too high, two amounts of fuel come to the same end. -/
def CompletesBelow (model : Value) (scope : Scope) (fuel fuel' : Nat) : Prop :=
  ∀ (stage : Stage) (p : Option NodeId) (x : Shape), stage.Usable → x.In stage.document p →
    x.height < fuel → x.height < fuel' →
    Alike (visitChildren model scope fuel x.id) (visitChildren model scope fuel' x.id) stage
      fun _ stage' => ∃ x' : Shape, x'.id = x.id ∧ stage.Becomes stage' p x x'

/-- One child of a node is rendered. -/
theorem alike_visitChild (hbelow : CompletesBelow model scope fuel fuel') (h : stage.Usable)
    (hs : (⟨q, kind, notes, done ++ x :: rest⟩ : Shape).In stage.document p)
    (hx : x.isElement = true) (hfuel : x.height < fuel) (hfuel' : x.height < fuel') :
    Alike (visitChild model scope (visitChildren model scope fuel) q x.id)
      (visitChild model scope (visitChildren model scope fuel') q x.id) stage
      fun _ stage' => ∃ done', stage.Becomes stage' p ⟨q, kind, notes, done ++ x :: rest⟩
        ⟨q, kind, notes, done' ++ rest⟩ := by
  have hchild := Shape.inAll_iff.1 hs.2 x (by simp)
  obtain ⟨id, xkind, xnotes, kids⟩ := x
  cases xkind with
  | root => cases hx
  | text content => cases hx
  | element tag attributes =>
    rw [Shape.id_mk]
    refine .get ?_
    dsimp only
    by_cases hgenerated : stage.document.isGenerated stage.engine.settings id = true
    · simp only [if_pos hgenerated]
      refine .refl (.pure ⟨done ++ [⟨id, .element tag attributes, xnotes, kids⟩], h, ?_, ?_⟩)
      · rwa [List.append_assoc, List.singleton_append]
      · rw [List.append_assoc, List.singleton_append]
        exact .refl _ _
    simp only [if_neg hgenerated, Document.directive?_eq hchild]
    by_cases htag : (stage.engine.settings.directive? tag).isSome = true
    · simp only [if_pos htag]
      exact .refl (runs_visitAnchor_of_usable h hs htag)
    · simp only [if_neg htag]
      obtain ⟨engine, d⟩ := stage
      have hfill : Runs (edit (Document.fill id model scope)) ⟨engine, d⟩ fun _ stage₁ =>
          ∃ x₁ : Shape, x₁.id = id ∧ x₁.height ≤ Shape.heightAll kids ∧
            Stage.Becomes ⟨engine, d⟩ stage₁ (some q)
              ⟨id, .element tag attributes, xnotes, kids⟩ x₁ := by
        refine runs_edit ((h.document.runs_fill hchild rfl model scope).mono ?_)
        rintro - d₁ ⟨hd₁, kids₁, hfilled, hs₁, hrep₁⟩
        exact ⟨_, rfl, (Shape.height_mk ..).trans_le hfilled.heightAll_le, ⟨h.engine, hd₁⟩, hs₁,
          hrep₁⟩
      refine (Alike.refl hfill).bind ?_
      rintro - stage₁ ⟨x₁, rfl, hheight, h₁⟩
      refine (hbelow stage₁ (some q) x₁ h₁.toUsable h₁.shape (hheight.trans_lt hfuel)
        (hheight.trans_lt hfuel')).mono ?_
      rintro - stage₂ ⟨x₂, hid, h₂⟩
      obtain ⟨hrow, hrep⟩ := h.document.in_of_child hs h₂.shape hid (h₁.replaces.trans h₂.replaces)
      refine ⟨done ++ [x₂], h₂.toUsable, ?_, ?_⟩
      · rwa [List.append_assoc, List.singleton_append]
      · rw [List.append_assoc, List.singleton_append]
        exact hrep

/-- The children of a node are rendered one after another. -/
theorem alike_visitGroup (hbelow : CompletesBelow model scope fuel fuel') (h : stage.Usable)
    (hs : (⟨q, kind, notes, done ++ todo⟩ : Shape).In stage.document p)
    (hfuel : Shape.heightAll todo ≤ fuel) (hfuel' : Shape.heightAll todo ≤ fuel') :
    Alike (visitGroup model scope fuel q todo) (visitGroup model scope fuel' q todo) stage
      fun _ stage' => ∃ kids', stage.Becomes stage' p ⟨q, kind, notes, done ++ todo⟩
        ⟨q, kind, notes, kids'⟩ := by
  induction todo generalizing stage done with
  | nil => exact .refl (.pure ⟨done ++ [], h, hs, .refl _ _⟩)
  | cons x rest ih =>
    rw [Shape.heightAll, Nat.max_le] at hfuel hfuel'
    rw [visitGroup, visitGroup, elementIds]
    cases hx : x.isElement with
    | false =>
      rw [List.filter_cons_of_neg (by simp [hx])]
      have hrow : (⟨q, kind, notes, (done ++ [x]) ++ rest⟩ : Shape).In stage.document p := by
        rwa [List.append_assoc, List.singleton_append]
      have hnext := ih h hrow hfuel.2 hfuel'.2
      rwa [List.append_assoc, List.singleton_append] at hnext
    | true =>
      rw [if_pos hx] at hfuel hfuel'
      rw [List.filter_cons_of_pos hx, List.map_cons]
      refine (alike_visitChild hbelow h hs hx hfuel.1 hfuel'.1).bind ?_
      rintro visits stage₁ ⟨done₁, h₁⟩
      refine (ih h₁.toUsable h₁.shape hfuel.2 hfuel'.2).bind ?_
      rintro others stage₂ ⟨kids', h₂⟩
      exact .refl (.pure ⟨kids', h₂.toUsable, h₂.shape, h₁.replaces.trans h₂.replaces⟩)

theorem completesBelow (model : Value) (scope : Scope) (fuel fuel' : Nat) :
    CompletesBelow model scope fuel fuel' := by
  induction fuel generalizing fuel' with
  | zero => exact fun _ _ _ _ _ hfuel _ => absurd hfuel (Nat.not_lt_zero _)
  | succ fuel ih =>
    cases fuel' with
    | zero => exact fun _ _ _ _ _ _ hfuel' => absurd hfuel' (Nat.not_lt_zero _)
    | succ fuel' =>
      rintro stage p ⟨q, kind, notes, kids⟩ h hs hfuel hfuel'
      refine .get ?_
      rw [Shape.id_mk, Document.childElements_eq hs]
      have hrow : (⟨q, kind, notes, [] ++ kids⟩ : Shape).In stage.document p := hs
      refine (alike_visitGroup (ih fuel') h hrow (Nat.lt_succ_iff.1 hfuel)
        (Nat.lt_succ_iff.1 hfuel')).mono ?_
      rintro - stage' ⟨kids', h'⟩
      exact ⟨_, rfl, h'⟩

theorem alike_visitChildren (h : stage.Usable) (root : NodeId)
    (hfuel : stage.document.slots.size ≤ fuel) :
    Alike (visitChildren model scope stage.document.slots.size root)
      (visitChildren model scope fuel root) stage fun _ stage' => stage'.Usable := by
  cases hroot : stage.document.contains root with
  | true =>
    obtain ⟨x, rfl, hx⟩ := h.document.exists_shape hroot
    have hsize := x.height_lt.trans_le
      (Document.length_le_size_of_nodup (h.document.nodup_ids hx) fun _ hy => hx.contains hy)
    refine (completesBelow model scope _ fuel stage _ x h hx hsize (hsize.trans_le hfuel)).mono ?_
    rintro - stage' ⟨x', -, h'⟩
    exact h'.toUsable
  | false =>
    have hnone : stage.document.childElements root = [] := by
      rw [Document.contains, Option.isSome_eq_false_iff, Option.isNone_iff_eq_none] at hroot
      rw [Document.childElements, Document.children, hroot, List.filter_nil]
    have hpure : ∀ fuel, visitChildren model scope fuel root stage = .ok [] stage := by
      intro fuel
      cases fuel with
      | zero => rfl
      | succ fuel =>
        have hget : (get : Pass Stage) stage = .ok stage stage := rfl
        refine (bind_eq_of_ok hget).trans ?_
        rw [hnone]
        rfl
    exact ⟨(hpure _).trans (hpure _).symm, .of_ok (hpure _) h⟩

/-- A rendering does what rendering below its root does, with as much fuel as there are slots for
nodes or with more. -/
theorem alike_render (h : stage.Usable) (root : NodeId)
    (hfuel : stage.document.slots.size ≤ fuel) (model : Value) (scope : Scope) :
    render root model scope stage =
        renderChildren model scope fuel root { stage with engine.depth := 0 } ∧
      Runs (render root model scope) stage fun _ stage' => stage'.Usable := by
  have hstart : Stage.Usable { stage with engine.depth := 0 } :=
    ⟨⟨h.engine.settings, h.engine.registry, h.engine.cache⟩, h.document⟩
  have halike : Alike (renderChildren model scope stage.document.slots.size root)
      (renderChildren model scope fuel root) { stage with engine.depth := 0 }
      fun _ stage' => stage'.Usable := by
    rw [renderChildren_eq_map, renderChildren_eq_map]
    exact .map (alike_visitChildren hstart root hfuel)
  exact halike

/-- With any engine that there can be, any document that calls can make is rendered, unless a node
is asked for where no slot is left. More fuel than there is makes no difference. -/
theorem render_completes {engine : Engine} {d : Document} (hengine : engine.Reachable)
    (hd : d.Reachable) (root : NodeId) (model : Value) (scope : Scope) :
    ((∃ counts stage, render root model scope ⟨engine, d⟩ = .ok counts stage) ∨
      ∃ stage, render root model scope ⟨engine, d⟩ = .error .outOfSlots stage ∧
        ¬ stage.document.HasRoom) ∧
    ∀ fuel, d.slots.size ≤ fuel → render root model scope ⟨engine, d⟩ =
      renderChildren model scope fuel root ⟨{ engine with depth := 0 }, d⟩ := by
  have h : Stage.Usable ⟨engine, d⟩ := ⟨hengine.usable, hd.sound⟩
  refine ⟨?_, fun fuel hfuel => (alike_render h root hfuel model scope).1⟩
  obtain ⟨counts, stage, hok, -⟩ | hfull :=
    (alike_render h root (Nat.le_refl _) model scope).2.cases
  · exact Or.inl ⟨counts, stage, hok⟩
  · exact Or.inr hfull

/-- A marked node that a text keeps away from the anchor stays, whoever made it. -/
theorem render_completes_after_text :
    let model : Value := .map [("xs", .list [.string "1", .string "2"])]
    let engine : Engine := .ofSettings .default
    ∃ d, Document.Reachable d ∧ Engine.Reachable engine ∧
      (∃ counts stage, render .root model .empty ⟨engine, d⟩ = .ok counts stage ∧
        stage.document.markup =
          "<u data-generated=\"true\"/>-" ++
          "<b data-generated=\"true\">1</b><b data-generated=\"true\">2</b>" ++
          "<each of=\"xs\" as=\"x\" hidden=\"\"><b>{{x}}</b></each>") ∧
      ∀ fuel, d.slots.size ≤ fuel → render .root model .empty ⟨engine, d⟩ =
        renderChildren model .empty fuel .root ⟨{ engine with depth := 0 }, d⟩ := by
  intro model engine
  have hrun : (Document.read ⟨0⟩ ("<u data-generated=\"true\"/>-" ++
        "<each of=\"xs\" as=\"x\"><b>{{x}}</b></each>")).toOption.any (fun d =>
      Succeeds (render .root model .empty) ⟨engine, d⟩ fun _ stage => stage.document.markup ==
          "<u data-generated=\"true\"/>-" ++
          "<b data-generated=\"true\">1</b><b data-generated=\"true\">2</b>" ++
          "<each of=\"xs\" as=\"x\" hidden=\"\"><b>{{x}}</b></each>") = true := by
    decide +kernel
  obtain ⟨d, hread, hrun⟩ := exists_of_toOption_any hrun
  obtain ⟨counts, stage, hok, hmarkup⟩ := exists_of_succeeds hrun
  have hd := Document.Reachable.of_read hread
  have hengine : Engine.Reachable engine := .create (s := .default) rfl
  obtain ⟨hends, hfuel⟩ := render_completes hengine hd .root model .empty
  refine ⟨d, hd, hengine, ?_, hfuel⟩
  obtain ⟨counts', stage', hok'⟩ | ⟨stage', herror, -⟩ := hends
  · cases hok.symm.trans hok'
    exact ⟨counts, stage, hok, eq_of_beq hmarkup⟩
  · cases hok.symm.trans herror

end Pass
end LiveMarkup
