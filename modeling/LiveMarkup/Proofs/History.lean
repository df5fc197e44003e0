import Mathlib.Data.List.Induction
import LiveMarkup.Proofs.Divergence
import LiveMarkup.Proofs.Document.Copy
import LiveMarkup.Proofs.Registry

/-! What earlier renderings leave behind. Without recursive templates, a rendering shows what the
last model and scope make of the document, but for one thing: a text that a rendering left empty is
gone, and the next one that is not empty comes first among its siblings. -/
namespace LiveMarkup

/-- A rendering left nothing of a source. -/
def Emptied (source : String) (earlier : List (Value × Scope)) : Prop :=
  ∃ m ∈ earlier, Placeholder.fill source m.1 m.2 = ""

instance (source : String) (earlier : List (Value × Scope)) : Decidable (Emptied source earlier) :=
  inferInstanceAs (Decidable (∃ m ∈ earlier, _))

theorem emptied_concat {source : String} {earlier : List (Value × Scope)} {last : Value × Scope} :
    Emptied source (earlier ++ [last]) ↔
      Emptied source earlier ∨ Placeholder.fill source last.1 last.2 = "" := by
  simp [Emptied, or_and_right, exists_or]

namespace Outline

/-- The text of a row after renderings: once it is gone, the next one is put first. -/
def restText (source : String) (earlier : List (Value × Scope)) (last : Value × Scope)
    (inner : List Outline) : List Outline :=
  if Placeholder.appearsIn source ∧ Emptied source earlier then
    oneText (Placeholder.fill source last.1 last.2) ++ inner.filter (!·.isText)
  else placeText source last.1 last.2 inner

mutual

/-- What an authored outline has become after renderings, the last one among them. -/
def settled (s : Settings) (earlier : List (Value × Scope)) (last : Value × Scope) :
    Outline → Outline
  | text content => text content
  | plain tag _ sources source inner =>
    plain tag (sources.map fun a => (a.1, Placeholder.filled a.2 last.1 last.2)) sources source
      (restText source earlier last (settledAll s earlier last inner))
  | anchor tag attributes template inside _ =>
    anchor tag (Entries.put s.hiddenAttribute "" attributes) template inside
      (template.meaning s 0 last.1 last.2 []).1

def settledAll (s : Settings) (earlier : List (Value × Scope)) (last : Value × Scope) :
    List Outline → List Outline
  | [] => []
  | l :: rest => settled s earlier last l :: settledAll s earlier last rest

end

variable {s : Settings} {source : String} {earlier : List (Value × Scope)} {last m : Value × Scope}
  {l : Outline} {ls inner : List Outline} {registry : Registry}

theorem settledAll_eq_map (ls : List Outline) :
    settledAll s earlier last ls = ls.map (settled s earlier last) := by
  induction ls with
  | nil => rfl
  | cons l rest ih => rw [settledAll, ih, List.map_cons]

theorem isText_settled (l : Outline) : (settled s earlier last l).isText = l.isText := by
  cases l <;> rfl

theorem settled_of_isText (h : l.isText = true) : settled s earlier last l = l := by
  obtain ⟨content, rfl⟩ := exists_of_isText h
  rfl

theorem restText_nil (inner : List Outline) :
    restText source [] last inner = placeText source last.1 last.2 inner := by
  have hnone : ¬ Emptied source [] := fun ⟨m, hm, _⟩ => absurd hm List.not_mem_nil
  exact if_neg fun h => hnone h.2

/-- One more rendering replaces the text where it is, if it is there. -/
theorem placeText_restText (inner : List Outline) :
    placeText source m.1 m.2 (restText source earlier last inner) =
      restText source (earlier ++ [last]) m inner := by
  by_cases happears : Placeholder.appearsIn source = true
  · have htexts : ∀ l ∈ oneText (Placeholder.fill source last.1 last.2), l.isText = true :=
      fun l hl => isText_of_mem_oneText hl
    have hplace : ∀ (m : Value × Scope) ls, placeText source m.1 m.2 ls =
        replaceWhere isText (oneText (Placeholder.fill source m.1 m.2)) ls := fun m ls => by
      rw [placeText, if_pos happears]
    rw [hplace, restText, restText, hplace, hplace]
    by_cases hearlier : Emptied source earlier
    · rw [if_pos ⟨happears, hearlier⟩, if_pos ⟨happears, emptied_concat.2 (Or.inl hearlier)⟩]
      exact replaceWhere_in_front htexts inner
    · rw [if_neg fun h => hearlier h.2]
      by_cases hlast : Placeholder.fill source last.1 last.2 = ""
      · have hgone : oneText (Placeholder.fill source last.1 last.2) = [] := if_pos hlast
        rw [if_pos ⟨happears, emptied_concat.2 (Or.inr hlast)⟩, hgone, replaceWhere_nil]
        exact replaceWhere_in_front (fun l hl => absurd hl List.not_mem_nil) inner
      · rw [if_neg fun h => (emptied_concat.1 h.2).elim hearlier hlast]
        refine replaceWhere_of_replaceWhere htexts ?_ inner
        rw [oneText, if_neg hlast]
        exact List.cons_ne_nil _ _
  · rw [placeText, restText, restText, if_neg happears, if_neg fun h => happears h.1,
      if_neg fun h => happears h.1, placeText, placeText, if_neg happears, if_neg happears]

theorem renderAll_restText (inner : List Outline) (registry : Registry) :
    renderAll s m.1 m.2 (restText source earlier last inner) registry =
      (restText source earlier last (renderAll s m.1 m.2 inner registry).1,
        (renderAll s m.1 m.2 inner registry).2) := by
  rw [restText, restText]
  split
  · rw [renderAll_append, renderAll_of_texts fun l hl => isText_of_mem_oneText hl, renderAll_filter]
  · exact renderAll_placeText ..

theorem renderAll_map_of_forall {f g : Outline → Outline}
    (h : ∀ l ∈ ls, render s m.1 m.2 (f l) registry = (g l, registry)) :
    renderAll s m.1 m.2 (ls.map f) registry = (ls.map g, registry) := by
  induction ls with
  | nil => rfl
  | cons l rest ih =>
    rw [List.forall_mem_cons] at h
    rw [List.map_cons, renderAll_cons, h.1, ih h.2, List.map_cons]

/-- The first rendering. -/
theorem render_authored (h : l.Nonrecursive) :
    render s m.1 m.2 l [] = (settled s [] m l, []) := by
  induction l with
  | text content => rfl
  | plain tag attributes sources source inner ih =>
    have hinner : renderAll s m.1 m.2 (inner.map id) [] = (inner.map (settled s [] m), []) :=
      renderAll_map_of_forall fun l hl => ih l hl (nonrecursiveAll_iff.1 h l hl)
    rw [List.map_id] at hinner
    rw [render_plain, hinner, settled, restText_nil, settledAll_eq_map]
  | anchor tag attributes template inside run =>
    rw [render_anchor, settled, Template.meaning, Template.denote_keeps h]

/-- One more rendering. -/
theorem render_settled (h : l.Nonrecursive) : render s m.1 m.2 (settled s earlier last l) [] =
    (settled s (earlier ++ [last]) m l, []) := by
  induction l with
  | text content => rfl
  | plain tag attributes sources source inner ih =>
    have hinner : renderAll s m.1 m.2 (inner.map (settled s earlier last)) [] =
        (inner.map (settled s (earlier ++ [last]) m), []) :=
      renderAll_map_of_forall fun l hl => ih l hl (nonrecursiveAll_iff.1 h l hl)
    rw [settled, settledAll_eq_map, render_plain, renderAll_restText, hinner, placeText_restText,
      settled, settledAll_eq_map]
  | anchor tag attributes template inside run =>
    rw [settled, render_anchor, Entries.put_put, settled, Template.meaning, Template.denote_keeps h]

theorem renderEach_concat (history : List (Value × Scope)) (ls : List Outline)
    (registry : Registry) : renderEach s (history ++ [m]) ls registry =
      renderAll s m.1 m.2 (renderEach s history ls registry).1
        (renderEach s history ls registry).2 := by
  induction history generalizing ls registry with
  | nil => rfl
  | cons n rest ih => exact ih _ _

/-- Any number of renderings. -/
theorem renderEach_settled (h : NonrecursiveAll ls) (history : List (Value × Scope)) :
    renderEach s (history ++ [last]) ls [] = (ls.map (settled s history last), []) := by
  induction history using List.reverseRecOn generalizing last with
  | nil =>
    have hall : renderAll s last.1 last.2 (ls.map id) [] = (ls.map (settled s [] last), []) :=
      renderAll_map_of_forall fun l hl => render_authored (nonrecursiveAll_iff.1 h l hl)
    rwa [List.map_id] at hall
  | append_singleton history m ih =>
    rw [renderEach_concat, ih]
    exact renderAll_map_of_forall fun l hl => render_settled (nonrecursiveAll_iff.1 h l hl)

/-- The text that the last rendering shows was never gone, or it comes first anyway. -/
def KeepsRow (source : String) (earlier : List (Value × Scope)) (last : Value × Scope)
    (inner : List Outline) : Prop :=
  Placeholder.appearsIn source = true → Emptied source earlier →
    Placeholder.fill source last.1 last.2 ≠ "" →
    (∀ l ∈ inner, l.isText = false) ∨ ∃ content rest, inner = text content :: rest

mutual

def Keeps (earlier : List (Value × Scope)) (last : Value × Scope) : Outline → Prop
  | plain _ _ _ source inner => KeepsRow source earlier last inner ∧ KeepsAll earlier last inner
  | _ => True

def KeepsAll (earlier : List (Value × Scope)) (last : Value × Scope) : List Outline → Prop
  | [] => True
  | l :: rest => l.Keeps earlier last ∧ KeepsAll earlier last rest

end

theorem keepsAll_iff : KeepsAll earlier last ls ↔ ∀ l ∈ ls, l.Keeps earlier last := by
  induction ls with
  | nil => simp [KeepsAll]
  | cons l rest ih => simp [KeepsAll, ih]

theorem keeps_of_isText (h : l.isText = true) : l.Keeps earlier last := by
  obtain ⟨content, rfl⟩ := exists_of_isText h
  trivial

theorem restText_of_keepsRow (h : KeepsRow source earlier last inner) :
    restText source earlier last inner = placeText source last.1 last.2 inner := by
  rw [restText]
  split
  · next hgone =>
    obtain ⟨happears, hemptied⟩ := hgone
    rw [placeText, if_pos happears]
    by_cases hlast : Placeholder.fill source last.1 last.2 = ""
    · have hnone : oneText (Placeholder.fill source last.1 last.2) = [] := if_pos hlast
      rw [hnone, replaceWhere_nil, List.nil_append]
    · rcases h happears hemptied hlast with hnone | ⟨content, rest, rfl⟩
      · rw [replaceWhere_of_none hnone, List.filter_eq_self.2 fun l hl => by simp [hnone l hl]]
      · change _ = replaceWhere isText _ ([] ++ text content :: rest)
        rw [replaceWhere_append_cons (fun l hl => absurd hl List.not_mem_nil) rfl,
          List.filter_cons_of_neg (by simp [isText]), List.nil_append]
  · rfl

/-- A text that comes first now, where another outline would. -/
theorem displaced_of_not_keepsRow (h : ¬ KeepsRow source earlier last inner) :
    ∃ content l left right, content ≠ "" ∧ l.isText = false ∧
      restText source earlier last inner = text content :: left ∧
      placeText source last.1 last.2 inner = l :: right := by
  rw [KeepsRow] at h
  push Not at h
  obtain ⟨happears, hemptied, hlast, ⟨m, hm, htext⟩, hfirst⟩ := h
  have honeText : oneText (Placeholder.fill source last.1 last.2) =
      [text (Placeholder.fill source last.1 last.2)] := if_neg hlast
  rcases none_or_first isText inner with hnone | ⟨before, a, rest, rfl, hbefore, ha⟩
  · exact absurd (hnone m hm) htext
  · cases before with
    | nil =>
      cases a with
      | text content => exact absurd rfl (hfirst content rest)
      | plain tag attributes sources source inner => cases ha
      | anchor tag attributes template inside run => cases ha
    | cons b before =>
      have hrest : restText source earlier last (b :: before ++ a :: rest) =
          text (Placeholder.fill source last.1 last.2) ::
            (b :: before ++ a :: rest).filter (!·.isText) := by
        rw [restText, if_pos ⟨happears, hemptied⟩, honeText]
        rfl
      have hplace : placeText source last.1 last.2 (b :: before ++ a :: rest) =
          b :: (before ++ [text (Placeholder.fill source last.1 last.2)] ++
            rest.filter (!·.isText)) := by
        rw [placeText, if_pos happears, replaceWhere_append_cons hbefore ha, honeText]
        rfl
      exact ⟨_, b, _, _, hlast, hbefore b (List.mem_cons_self ..), hrest, hplace⟩

theorem restText_map {f : Outline → Outline} (htext : ∀ l, l.isText = true → f l = l)
    (hf : ∀ l, (f l).isText = l.isText) (inner : List Outline) :
    restText source earlier last (inner.map f) = (restText source earlier last inner).map f := by
  have hone : ∀ content, (oneText content).map f = oneText content := fun content =>
    (List.map_congr_left fun l hl => htext l (isText_of_mem_oneText hl)).trans (List.map_id _)
  rw [restText, restText, placeText, placeText]
  split
  · rw [List.map_append, hone, List.filter_map]
    simp only [Function.comp_def, hf]
  split
  · rw [← replaceWhere_map f fun l _ => hf l, hone]
  · rfl

theorem restText_settled (inner : List Outline) :
    restText source earlier last (settledAll s earlier last inner) =
      (restText source earlier last inner).map (settled s earlier last) := by
  rw [settledAll_eq_map]
  exact restText_map (fun _ => settled_of_isText) isText_settled inner

theorem settled_of_keeps (h : l.Keeps earlier last) :
    settled s earlier last l = settled s [] last l := by
  induction l with
  | text content => rfl
  | plain tag attributes sources source inner ih =>
    have hinner : ∀ l ∈ placeText source last.1 last.2 inner,
        settled s earlier last l = settled s [] last l := fun l hl => by
      rcases isText_or_mem_of_mem_placeText hl with htext | hl
      · rw [settled_of_isText htext, settled_of_isText htext]
      · exact ih l hl (keepsAll_iff.1 h.2 l hl)
    rw [settled, settled, restText_settled, restText_settled, restText_of_keepsRow h.1,
      restText_nil, List.map_congr_left hinner]
  | anchor tag attributes template inside run => rfl

theorem diverges_row {f g : Outline → Outline} {P : Outline → Prop}
    (hkeep : ∀ l ∈ ls, P l → f l = g l) (hpart : ∀ l ∈ ls, ¬ P l →
      Diverges (Tree.markupAll (f l).trees) (Tree.markupAll (g l).trees)) (h : ∃ l ∈ ls, ¬ P l) :
    Diverges (Tree.markupAll (treesAll (ls.map f))) (Tree.markupAll (treesAll (ls.map g))) := by
  induction ls with
  | nil =>
    obtain ⟨l, hl, -⟩ := h
    cases hl
  | cons l rest ih =>
    rw [List.forall_mem_cons] at hkeep hpart
    rw [List.map_cons, List.map_cons, treesAll, treesAll, Tree.markupAll_append,
      Tree.markupAll_append]
    by_cases hl : P l
    · rw [hkeep.1 hl]
      refine (ih hkeep.2 hpart.2 ?_).append_left _
      obtain ⟨m, hm, hmP⟩ := h
      rcases List.mem_cons.1 hm with rfl | hm
      · exact absurd hl hmP
      · exact ⟨m, hm, hmP⟩
    · exact (hpart.1 hl).append_right _ _

/-- Anything but a text shows an element first. -/
theorem trees_settled_of_not_isText (h : l.isText = false) : ∃ tag attributes children rest,
    (settled s earlier last l).trees = .element tag attributes children :: rest := by
  cases l with
  | text content => cases h
  | plain tag attributes sources source inner => exact ⟨_, _, _, _, rfl⟩
  | anchor tag attributes template inside run =>
    have hmarked : (template.meaning s 0 last.1 last.2).Marked s := template.meaning_marked 0 last.2
    rw [settled, trees]
    cases hrun : (template.meaning s 0 last.1 last.2 []).1 with
    | nil => exact ⟨_, _, _, _, rfl⟩
    | cons t rest =>
      cases t with
      | text content =>
        have hmark := hmarked [] (.text content) (by rw [hrun]; exact List.mem_cons_self ..)
        cases hmark
      | element tag attributes children => exact ⟨_, _, _, _, rfl⟩

theorem diverges_of_not_keeps (h : ¬ l.Keeps earlier last) :
    Diverges (Tree.markupAll (settled s earlier last l).trees)
      (Tree.markupAll (settled s [] last l).trees) := by
  induction l with
  | text content => exact absurd trivial h
  | plain tag attributes sources source inner ih =>
    rw [settled, settled, restText_settled, restText_settled, restText_nil]
    refine Tree.diverges_element ?_ _ _
    by_cases hrow : KeepsRow source earlier last inner
    · rw [restText_of_keepsRow hrow]
      refine diverges_row (P := Keeps earlier last) (fun l _ => settled_of_keeps)
        (fun l hl hnot => ?_) ?_
      · rcases isText_or_mem_of_mem_placeText hl with htext | hl
        · exact absurd (keeps_of_isText htext) hnot
        · exact ih l hl hnot
      · have hinner : ¬ ∀ l ∈ inner, l.Keeps earlier last := fun hall =>
          h ⟨hrow, keepsAll_iff.2 hall⟩
        push Not at hinner
        obtain ⟨l, hl, hnot⟩ := hinner
        refine ⟨l, mem_placeText hl ?_, hnot⟩
        by_contra htext
        exact hnot (keeps_of_isText (Bool.eq_true_of_not_eq_false htext))
    · obtain ⟨content, l, left, right, hcontent, hl, hrest, hplace⟩ :=
        displaced_of_not_keepsRow hrow
      obtain ⟨tag', attributes', children, others, htrees⟩ := trees_settled_of_not_isText hl
      rw [hrest, hplace, List.map_cons, List.map_cons, treesAll, treesAll, htrees]
      exact Tree.diverges_of_text_element hcontent _ _ _ _
  | anchor tag attributes template inside run => exact absurd trivial h

/-- Earlier renderings are forgotten exactly where all texts keep their places. -/
theorem markup_settled_iff (ls : List Outline) :
    String.ofList (Tree.markupAll (treesAll (ls.map (settled s earlier last)))) =
      String.ofList (Tree.markupAll (treesAll (ls.map (settled s [] last)))) ↔
    KeepsAll earlier last ls := by
  rw [keepsAll_iff, String.ofList_inj]
  constructor
  · intro heq
    by_contra hnot
    push Not at hnot
    exact (diverges_row (fun l _ => settled_of_keeps) (fun l _ => diverges_of_not_keeps) hnot).ne
      heq
  · intro h
    rw [List.map_congr_left fun l hl => settled_of_keeps (h l hl)]

end Outline

def Tree.startsWithText : List Tree → Bool
  | .text _ :: _ => true
  | _ => false

mutual

/-- In every element outside directives, a text that an earlier rendering left empty and the last
one does not comes before all other children. -/
def Tree.KeepsTexts (s : Settings) (earlier : List (Value × Scope)) (last : Value × Scope) :
    Tree → Prop
  | .text _ => True
  | .element tag _ children => s.directive? tag = none →
    (Placeholder.appearsIn (Tree.directText children) = true →
      Emptied (Tree.directText children) earlier →
      Placeholder.fill (Tree.directText children) last.1 last.2 ≠ "" →
      Tree.startsWithText children = true) ∧ Tree.KeepsTextsAll s earlier last children

def Tree.KeepsTextsAll (s : Settings) (earlier : List (Value × Scope)) (last : Value × Scope) :
    List Tree → Prop
  | [] => True
  | t :: rest => t.KeepsTexts s earlier last ∧ Tree.KeepsTextsAll s earlier last rest

end

namespace Outline

variable {s : Settings} {earlier : List (Value × Scope)} {last : Value × Scope}

theorem directText_eq_empty {children : List Tree}
    (h : ∀ l ∈ ofTrees s children, l.isText = false) : Tree.directText children = "" := by
  induction children with
  | nil => rfl
  | cons t rest ih =>
    rw [ofTrees, List.forall_mem_cons] at h
    cases t with
    | text content => cases h.1
    | element tag attributes children => exact ih h.2

theorem startsWithText_iff {children : List Tree} : Tree.startsWithText children = true ↔
    ∃ content rest, ofTrees s children = text content :: rest := by
  cases children with
  | nil => simp [Tree.startsWithText, ofTrees]
  | cons t rest =>
    cases t with
    | text content => simp [Tree.startsWithText, ofTrees, ofTree]
    | element tag attributes children =>
      simp only [Tree.startsWithText, ofTrees, ofTree]
      split <;> simp

theorem keepsRow_ofTrees {children : List Tree} :
    KeepsRow (Tree.directText children) earlier last (ofTrees s children) ↔
      (Placeholder.appearsIn (Tree.directText children) = true →
        Emptied (Tree.directText children) earlier →
        Placeholder.fill (Tree.directText children) last.1 last.2 ≠ "" →
        Tree.startsWithText children = true) := by
  rw [startsWithText_iff (s := s)]
  refine forall_congr' fun happears => imp_congr_right fun _ => imp_congr_right fun _ => ?_
  refine or_iff_right fun hnone => ?_
  rw [directText_eq_empty hnone] at happears
  cases happears

mutual

theorem keeps_ofTree (s : Settings) (earlier : List (Value × Scope)) (last : Value × Scope) :
    ∀ t : Tree, (ofTree s t).Keeps earlier last ↔ t.KeepsTexts s earlier last
  | .text _ => Iff.rfl
  | .element tag attributes children => by
    rw [ofTree, Tree.KeepsTexts]
    split
    · next directive hdirective => simp [Keeps, hdirective]
    · next hdirective =>
      rw [Keeps, keepsRow_ofTrees, keepsAll_ofTrees s earlier last children]
      exact ⟨fun h _ => h, fun h => h hdirective⟩

theorem keepsAll_ofTrees (s : Settings) (earlier : List (Value × Scope)) (last : Value × Scope) :
    ∀ ts : List Tree, KeepsAll earlier last (ofTrees s ts) ↔ Tree.KeepsTextsAll s earlier last ts
  | [] => Iff.rfl
  | t :: rest => by
    rw [ofTrees, KeepsAll, Tree.KeepsTextsAll, keeps_ofTree s earlier last t,
      keepsAll_ofTrees s earlier last rest]

end

end Outline

namespace Pass

variable {tree tree' : TreeId} {text : String} {d d' : Document} {s : Settings} {engine : Engine}

/-- What a document shows after it was read and rendered against models one after another. -/
theorem runs_renderEach_settled (hread : Document.read tree text = .ok d)
    (hcreate : Engine.create s = .ok engine) (hmarks : Tree.UnmarkedAll s d.content)
    (hnone : Tree.NonrecursiveAll s d.content) (history : List (Value × Scope))
    (last : Value × Scope) : Runs (renderEach (history ++ [last])) ⟨engine, d⟩ fun _ stage =>
      stage.document.markup = String.ofList (Tree.markupAll (Outline.treesAll
        ((Outline.ofTrees s d.content).map (Outline.settled s history last)))) := by
  have hauthored := Outline.nonrecursiveAll_ofTrees s d.content hnone
  have hshows := Stage.showsAll_of_read hread hcreate hmarks
  obtain ⟨-, rfl⟩ := Engine.create_eq_ok hcreate
  have hsettled : Outline.renderEach s (history ++ [last]) (Outline.ofTrees s d.content) [] = _ :=
    Outline.renderEach_settled hauthored history
  refine (runs_renderEach hshows (history ++ [last])).mono ?_
  rintro - stage ⟨hstage, -, -⟩
  refine hstage.markup_eq.trans ?_
  exact congrArg (fun r => String.ofList (Tree.markupAll (Outline.treesAll r.1))) hsettled

/-- Rendering a document without recursive templates against models one after another shows the same
as rendering it anew against the last one, exactly if all texts keep their places. Either can only
fail where every slot is in use. -/
theorem render_history_iff (hread : Document.read tree text = .ok d)
    (hread' : Document.read tree' text = .ok d') (hcreate : Engine.create s = .ok engine)
    (hmarks : Tree.UnmarkedAll s d.content) (hnone : Tree.NonrecursiveAll s d.content)
    (history : List (Value × Scope)) (last : Value × Scope) :
    (∃ stage counts fresh, renderEach (history ++ [last]) ⟨engine, d⟩ = .ok () stage ∧
      render .root last.1 last.2 ⟨engine, d'⟩ = .ok counts fresh ∧
      (stage.document.markup = fresh.document.markup ↔
        Tree.KeepsTextsAll s history last d.content)) ∨
    (∃ stage, renderEach (history ++ [last]) ⟨engine, d⟩ = .error .outOfSlots stage ∧
      ¬ stage.document.HasRoom) ∨
    ∃ fresh, render .root last.1 last.2 ⟨engine, d'⟩ = .error .outOfSlots fresh ∧
      ¬ fresh.document.HasRoom := by
  have hcontent : d'.content = d.content := by
    rw [Document.read_copy tree tree', hread] at hread'
    cases hread'
    exact Document.content_copy d tree'
  have hanew := runs_renderEach_settled hread' hcreate (hcontent ▸ hmarks) (hcontent ▸ hnone) []
    last
  rw [hcontent] at hanew
  obtain ⟨⟨⟩, stage, hhistory, hmarkup⟩ | hfull :=
    (runs_renderEach_settled hread hcreate hmarks hnone history last).cases
  · obtain ⟨counts, fresh, hfresh, hmarkup'⟩ | hfull' := hanew.of_bind.cases
    · refine Or.inl ⟨stage, counts, fresh, hhistory, hfresh, ?_⟩
      rw [hmarkup, hmarkup'.ok rfl, Outline.markup_settled_iff, Outline.keepsAll_ofTrees]
    · exact Or.inr (Or.inr hfull')
  · exact Or.inr (Or.inl hfull)

/-- A text behind an element that is empty at first: rendered anew, it stays behind. -/
theorem displaced_run : ∃ d d' stage counts fresh,
    Document.read ⟨0⟩ "<p><b/>{{x}}</p>" = .ok d ∧ Document.read ⟨1⟩ "<p><b/>{{x}}</p>" = .ok d' ∧
    Tree.UnmarkedAll .default d.content ∧ Tree.NonrecursiveAll .default d.content ∧
    renderEach ([(.empty, .empty)] ++ [(.map [("x", .string "1")], .empty)])
      ⟨.ofSettings .default, d⟩ = .ok () stage ∧
    render .root (.map [("x", .string "1")]) .empty ⟨.ofSettings .default, d'⟩ =
      .ok counts fresh ∧
    stage.document.markup = "<p>1<b/></p>" ∧ fresh.document.markup = "<p><b/>1</p>" := by
  have hrun : (Document.read ⟨0⟩ "<p><b/>{{x}}</p>").toOption.any (fun d =>
      (Document.read ⟨1⟩ "<p><b/>{{x}}</p>").toOption.any fun d' =>
        decide (Tree.UnmarkedAll .default d.content ∧ Tree.NonrecursiveAll .default d.content) &&
        Succeeds (renderEach ([(.empty, .empty)] ++ [(.map [("x", .string "1")], .empty)]))
          ⟨.ofSettings .default, d⟩ fun _ stage =>
        Succeeds (render .root (.map [("x", .string "1")]) .empty) ⟨.ofSettings .default, d'⟩
          fun _ fresh => decide
            (stage.document.markup = "<p>1<b/></p>" ∧ fresh.document.markup = "<p><b/>1</p>")) =
      true := by
    decide +kernel
  obtain ⟨d, hread, hrun⟩ := exists_of_toOption_any hrun
  obtain ⟨d', hread', hrun⟩ := exists_of_toOption_any hrun
  rw [Bool.and_eq_true] at hrun
  obtain ⟨hmarks, hnone⟩ := of_decide_eq_true hrun.1
  obtain ⟨⟨⟩, stage, hhistory, hrun⟩ := exists_of_succeeds hrun.2
  obtain ⟨counts, fresh, hfresh, hrun⟩ := exists_of_succeeds hrun
  obtain ⟨hstage, hanew⟩ := of_decide_eq_true hrun
  exact ⟨d, d', stage, counts, fresh, hread, hread', hmarks, hnone, hhistory, hfresh, hstage,
    hanew⟩

theorem render_history_iff_displaced : ∃ d d',
    Document.read ⟨0⟩ "<p><b/>{{x}}</p>" = .ok d ∧ Document.read ⟨1⟩ "<p><b/>{{x}}</p>" = .ok d' ∧
    Engine.create .default = .ok (.ofSettings .default) ∧
    Tree.UnmarkedAll .default d.content ∧ Tree.NonrecursiveAll .default d.content ∧
    ∃ stage counts fresh,
      renderEach ([(.empty, .empty)] ++ [(.map [("x", .string "1")], .empty)])
        ⟨.ofSettings .default, d⟩ = .ok () stage ∧
      render .root (.map [("x", .string "1")]) .empty ⟨.ofSettings .default, d'⟩ =
        .ok counts fresh ∧
      (stage.document.markup = fresh.document.markup ↔ Tree.KeepsTextsAll .default
        [(.empty, .empty)] (.map [("x", .string "1")], .empty) d.content) := by
  obtain ⟨d, d', stage, counts, fresh, hread, hread', hmarks, hnone, hhistory, hfresh, -, -⟩ :=
    displaced_run
  have hcreate : Engine.create .default = .ok (.ofSettings .default) := rfl
  refine ⟨d, d', hread, hread', hcreate, hmarks, hnone, ?_⟩
  obtain hruns | ⟨stage', herror, -⟩ | ⟨fresh', herror, -⟩ := render_history_iff hread hread'
    hcreate hmarks hnone [(.empty, .empty)] (.map [("x", .string "1")], .empty)
  · exact hruns
  · cases hhistory.symm.trans herror
  · cases hfresh.symm.trans herror

/-- So the history does count: not every text keeps its place. -/
theorem not_render_as_anew : ¬ ∀ (tree tree' : TreeId) (text : String) (d d' : Document)
    (engine : Engine) (models : List Value) (last : Value) (stage fresh : Stage) (counts : Counts),
    Document.read tree text = .ok d → Document.read tree' text = .ok d' →
    Engine.create .default = .ok engine → Tree.UnmarkedAll .default d.content →
    Tree.NonrecursiveAll .default d.content →
    renderEach ((models ++ [last]).map (·, .empty)) ⟨engine, d⟩ = .ok () stage →
    render .root last .empty ⟨engine, d'⟩ = .ok counts fresh →
    stage.document.markup = fresh.document.markup := by
  intro h
  obtain ⟨d, d', stage, counts, fresh, hread, hread', hmarks, hnone, hhistory, hfresh, hstage,
    hanew⟩ := displaced_run
  have heq := h ⟨0⟩ ⟨1⟩ _ d d' _ [.empty] _ stage fresh counts hread hread' rfl hmarks hnone
    hhistory hfresh
  rw [hstage, hanew] at heq
  exact absurd heq (by decide)

end Pass
end LiveMarkup
