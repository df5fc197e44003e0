import Mathlib.Logic.Function.Basic
import LiveMarkup.Proofs.Document.Parsing
import LiveMarkup.Proofs.Seclusion

/-! Documents that share an engine. Their nodes may have equal addresses, but no document sees what is
done to the others: each comes out of any row of renderings as if it had an engine of its own. -/
namespace LiveMarkup

section

variable {α : Type} {s : Settings} {a b : Stage} {work : Pass α}

theorem Secluded.after (h : Secluded s work) (htwins : Stage.Twins s a b) :
    Stage.Twins s (Pass.after work a) (Pass.after work b) ∧ b.Minds (Pass.after work b) := by
  have hend := h a b htwins
  rw [Pass.after, Pass.after]
  generalize work a = r, work b = r' at hend
  cases hend with
  | ok h _ hright => exact ⟨h, hright⟩
  | error h _ hright => exact ⟨h, hright⟩

theorem Secluded.outcome_eq (h : Secluded s work) (htwins : Stage.Twins s a b) :
    Pass.outcome work b = Pass.outcome work a := by
  have hregistry : ∀ {c : Stage}, c.Quiet s → c.engine.registry = [] := fun hc => by
    rw [hc.engine]
    rfl
  have hend := h a b htwins
  rw [Pass.outcome, Pass.outcome]
  generalize work a = r, work b = r' at hend
  cases hend with
  | ok h => simp only [h.document, hregistry h.left, hregistry h.right]
  | error h => simp only [h.document, hregistry h.left, hregistry h.right]

end

/-- The stage after renderings of the whole document, those that fail included. -/
def Stage.renderEach (stage : Stage) (history : List (Value × Scope)) : Stage :=
  history.foldl (fun stage m => Pass.after (Pass.render .root m.1 m.2) stage) stage

/-- An engine and the documents that it renders. -/
structure Desk (ι : Type) where
  engine : Engine
  documents : ι → Document

namespace Desk

variable {ι : Type} {s : Settings} {desk : Desk ι} {own : Stage} {i : ι}

def stage (desk : Desk ι) (i : ι) : Stage := ⟨desk.engine, desk.documents i⟩

/-- The documents can be told apart, and none has met a recursive template. -/
structure Ready (s : Settings) (desk : Desk ι) : Prop where
  quiet : ∀ i, (desk.stage i).Quiet s
  trees : Function.Injective fun i => (desk.documents i).tree

variable [DecidableEq ι]

/-- A rendering of one of the documents; what it leaves stays also where it fails. -/
def render (desk : Desk ι) : ι × Value × Scope → Desk ι
  | (i, model, scope) =>
    let stage := Pass.after (Pass.render .root model scope) (desk.stage i)
    ⟨stage.engine, Function.update desk.documents i stage.document⟩

def renderEach (desk : Desk ι) (history : List (ι × Value × Scope)) : Desk ι :=
  history.foldl render desk

/-- The renderings of one document among those of all. -/
def turnsOf (i : ι) (history : List (ι × Value × Scope)) : List (Value × Scope) :=
  history.filterMap fun turn => if turn.1 = i then some turn.2 else none

variable {j : ι} {m : Value × Scope}

theorem stage_render_self (desk : Desk ι) (i : ι) (m : Value × Scope) :
    (desk.render (i, m)).stage i = Pass.after (Pass.render .root m.1 m.2) (desk.stage i) :=
  congrArg (Stage.mk _) (Function.update_self ..)

theorem stage_render_of_ne (desk : Desk ι) (hi : i ≠ j) : (desk.render (j, m)).stage i =
    ⟨(Pass.after (Pass.render .root m.1 m.2) (desk.stage j)).engine, desk.documents i⟩ :=
  congrArg (Stage.mk _) (Function.update_of_ne hi ..)

namespace Ready

variable (hdesk : desk.Ready s)
include hdesk

/-- Rendering another document makes no difference. -/
theorem twins_of_ne (hi : i ≠ j) (h : Stage.Twins s own (desk.stage i)) (m : Value × Scope) :
    Stage.Twins s own ((desk.render (j, m)).stage i) := by
  obtain ⟨htwins, hminds⟩ := (Secluded.render .root m.1 m.2).after (hdesk.quiet j).twins
  rw [stage_render_of_ne desk hi]
  exact h.of_cache htwins.right.engine fun id => hminds.cache _ fun heq => hi (hdesk.trees heq)

/-- With its own renderings done there, too, a document is as on a stage of its own. -/
theorem twins_render (h : Stage.Twins s own (desk.stage i)) (turn : ι × Value × Scope) :
    Stage.Twins s (own.renderEach (turnsOf i [turn])) ((desk.render turn).stage i) := by
  obtain ⟨j, m⟩ := turn
  by_cases hj : j = i
  · subst hj
    have hturn : turnsOf j [(j, m)] = [m] := by simp [turnsOf]
    rw [hturn, stage_render_self]
    exact ((Secluded.render .root m.1 m.2).after h).1
  · have hturn : turnsOf i [(j, m)] = [] := by simp [turnsOf, hj]
    rw [hturn]
    exact hdesk.twins_of_ne (Ne.symm hj) h m

theorem render (turn : ι × Value × Scope) : (desk.render turn).Ready s := by
  have htree : ∀ i, ((desk.render turn).documents i).tree = (desk.documents i).tree := fun i => by
    obtain ⟨j, m⟩ := turn
    by_cases hi : i = j
    · subst hi
      have hminds := ((Secluded.render .root m.1 m.2).after (hdesk.quiet i).twins).2
      exact (congrArg (·.document.tree) (stage_render_self desk i m)).trans hminds.tree
    · exact congrArg (·.document.tree) (stage_render_of_ne desk hi)
  refine ⟨fun i => (hdesk.twins_render (hdesk.quiet i).twins turn).right, ?_⟩
  rw [funext htree]
  exact hdesk.trees

omit hdesk in
theorem twins_renderEach (hdesk : desk.Ready s) (h : Stage.Twins s own (desk.stage i))
    (history : List (ι × Value × Scope)) :
    Stage.Twins s (own.renderEach (turnsOf i history)) ((desk.renderEach history).stage i) := by
  induction history generalizing desk own with
  | nil => exact h
  | cons turn rest ih =>
    have hsplit : turnsOf i (turn :: rest) = turnsOf i [turn] ++ turnsOf i rest :=
      List.filterMap_append (l := [turn])
    rw [hsplit, Stage.renderEach, List.foldl_append]
    exact ih (hdesk.render turn) (hdesk.twins_render h turn)

end Ready

/-- Documents without recursive templates are rendered by one engine, in turns. Each ends as if all
its renderings were done by a new engine of its own, and so would its next rendering. -/
theorem renderEach_as_alone {engine : Engine} {documents : ι → Document}
    (hcreate : Engine.create s = .ok engine) (hdocuments : ∀ i, (documents i).Reachable)
    (hnone : ∀ i x, (documents i).directive? s x ≠ some .recursive)
    (htrees : Function.Injective fun i => (documents i).tree)
    (history : List (ι × Value × Scope)) (i : ι) :
    let shared := Desk.renderEach ⟨engine, documents⟩ history
    let alone := Stage.renderEach ⟨engine, documents i⟩ (turnsOf i history)
    (shared.documents i).markup = alone.document.markup ∧ shared.documents i = alone.document ∧
      ∀ model scope, Pass.outcome (Pass.render .root model scope) (shared.stage i) =
        Pass.outcome (Pass.render .root model scope) alone := by
  intro shared alone
  obtain ⟨-, rfl⟩ := Engine.create_eq_ok hcreate
  have hdesk : Desk.Ready s ⟨.ofSettings s, documents⟩ :=
    ⟨fun i => ⟨rfl, ⟨(hdocuments i).sound, hnone i⟩, nofun⟩, htrees⟩
  have htwins : Stage.Twins s alone (shared.stage i) :=
    hdesk.twins_renderEach (hdesk.quiet i).twins history
  refine ⟨congrArg Document.markup htwins.document, htwins.document, fun model scope => ?_⟩
  exact (Secluded.render .root model scope).outcome_eq htwins

/-- A document and its clone have equal addresses, and slots are reused in both. -/
theorem renderEach_as_alone_clone :
    let long : Value × Scope := (.map [("xs", .list [.string "1", .string "2"])], .empty)
    let short : Value × Scope := (.map [("xs", .list [.string "3"])], .empty)
    ∃ d, Document.read ⟨0⟩ "<ul><each of=\"xs\" as=\"x\"><li>{{x}}</li></each></ul>" = .ok d ∧
      let documents : Bool → Document := fun clone => if clone then d.copy ⟨1⟩ else d
      let shared := Desk.renderEach ⟨.ofSettings .default, documents⟩
        [(false, long), (true, short), (false, short), (true, long)]
      Engine.create .default = .ok (.ofSettings .default) ∧ (∀ i, (documents i).Reachable) ∧
      (∀ i x, (documents i).directive? .default x ≠ some .recursive) ∧
      (Function.Injective fun i => (documents i).tree) ∧
      (shared.documents false).markup = "<ul><li data-generated=\"true\">3</li>" ++
        "<each of=\"xs\" as=\"x\" hidden=\"\"><li>\x7b\x7bx\x7d\x7d</li></each></ul>" ∧
      (shared.documents true).markup =
        "<ul><li data-generated=\"true\">1</li><li data-generated=\"true\">2</li>" ++
        "<each of=\"xs\" as=\"x\" hidden=\"\"><li>\x7b\x7bx\x7d\x7d</li></each></ul>" := by
  intro long short
  have hrun : Option.any (fun d => decide (Tree.NonrecursiveAll .default d.content) &&
        decide (d.tree = ⟨0⟩) &&
        (Stage.renderEach ⟨.ofSettings .default, d⟩ [long, short]).document.markup ==
          "<ul><li data-generated=\"true\">3</li>" ++
          "<each of=\"xs\" as=\"x\" hidden=\"\"><li>\x7b\x7bx\x7d\x7d</li></each></ul>" &&
        (Stage.renderEach ⟨.ofSettings .default, d.copy ⟨1⟩⟩ [short, long]).document.markup ==
          "<ul><li data-generated=\"true\">1</li><li data-generated=\"true\">2</li>" ++
          "<each of=\"xs\" as=\"x\" hidden=\"\"><li>\x7b\x7bx\x7d\x7d</li></each></ul>")
      (Document.read ⟨0⟩
        "<ul><each of=\"xs\" as=\"x\"><li>{{x}}</li></each></ul>").toOption = true := by
    decide +kernel
  obtain ⟨d, hread, hrun⟩ := exists_of_toOption_any hrun
  simp only [Bool.and_eq_true, beq_iff_eq, decide_eq_true_eq] at hrun
  obtain ⟨⟨⟨hcontent, htree⟩, hfirst⟩, hsecond⟩ := hrun
  have hd := Document.Reachable.of_read hread
  have hquiet := (Document.rooted_of_read hread).quiet hd.sound hcontent
  refine ⟨d, hread, ?_⟩
  intro documents shared
  have hcreate : Engine.create .default = .ok (.ofSettings .default) := rfl
  have hdocuments : ∀ i, (documents i).Reachable := Bool.forall_bool.2 ⟨hd, hd.copy ⟨1⟩⟩
  have hnone : ∀ i x, (documents i).directive? .default x ≠ some .recursive :=
    Bool.forall_bool.2 ⟨hquiet.nonrecursive, hquiet.nonrecursive⟩
  have htrees : Function.Injective fun i => (documents i).tree := by
    rw [Bool.injective_iff]
    simp [documents, Document.copy, htree]
  have halone := renderEach_as_alone hcreate hdocuments hnone htrees
    [(false, long), (true, short), (false, short), (true, long)]
  exact ⟨hcreate, hdocuments, hnone, htrees, (halone false).1.trans hfirst,
    (halone true).1.trans hsecond⟩

end Desk
end LiveMarkup
