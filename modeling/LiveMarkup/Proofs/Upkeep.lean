import LiveMarkup.Proofs.Completion
import LiveMarkup.Proofs.Document.Parsing
import LiveMarkup.Proofs.GeneratedRuns

/-! Renderings leave nothing loose. What is made for an anchor is put into the tree, and what is
swept away or replaced is given back, so a document has as many nodes as it shows, however often it
is rendered. -/
namespace LiveMarkup

variable {stage : Stage}

namespace Pass

/-- A rendering of the whole document replaces what hangs below the root, and nothing else is live
before or after. -/
theorem runs_render_rooted (h : stage.Usable) (hrooted : stage.document.Rooted) (model : Value)
    (scope : Scope) : Runs (render .root model scope) stage fun _ stage' =>
      stage'.Usable ∧ stage'.document.Rooted := by
  obtain ⟨notes, kids, hs, -⟩ := h.document.exists_content
  have hsize := (Shape.height_lt _).trans_le (Document.length_le_size_of_nodup
    (h.document.nodup_ids hs) fun _ hx => hs.contains hx)
  have hstart : Stage.Usable { stage with engine.depth := 0 } :=
    ⟨⟨h.engine.settings, h.engine.registry, h.engine.cache⟩, h.document⟩
  have hbelow := (completesBelow model scope _ _ { stage with engine.depth := 0 } none _ hstart hs
    hsize hsize).2
  have hrender : render .root model scope stage = (Visit.total <$>
      visitChildren model scope stage.document.slots.size .root)
        { stage with engine.depth := 0 } := by
    rw [← renderChildren_eq_map]
    rfl
  have hrun : Runs (Visit.total <$> visitChildren model scope stage.document.slots.size .root)
      { stage with engine.depth := 0 } fun _ stage' =>
        stage'.Usable ∧ stage'.document.Rooted := by
    refine .map (hbelow.mono ?_)
    rintro - stage' ⟨x', hid, h'⟩
    exact ⟨h'.toUsable, hrooted.replaces h.document h'.document hs h'.shape rfl hid h'.replaces⟩
  rwa [Runs, hrender]

theorem runs_countEach_rooted (h : stage.Usable) (hrooted : stage.document.Rooted)
    (history : List (Value × Scope)) : Runs (countEach history) stage fun log _ =>
      log.length = history.length ∧ ∀ r ∈ log, r.2.Sound ∧ r.2.Rooted := by
  induction history generalizing stage with
  | nil => exact .pure ⟨rfl, nofun⟩
  | cons m rest ih =>
    refine (runs_render_rooted h hrooted m.1 m.2).bind fun counts stage₁ h₁ => ?_
    refine .get ((ih h₁.1 h₁.2).bind fun log stage₂ hlog => ?_)
    exact .pure ⟨congrArg Nat.succ hlog.1,
      List.forall_mem_cons.2 ⟨⟨h₁.1.document, h₁.2⟩, hlog.2⟩⟩

/-- A document that was read is rendered any number of times. Before and after each rendering, all
that is live in it hangs below the root, and it has as many nodes as it shows, with the root. -/
theorem render_leaves_nothing_loose {tree : TreeId} {text : String} {d : Document} {s : Settings}
    {engine : Engine} (hread : Document.read tree text = .ok d)
    (hcreate : Engine.create s = .ok engine) (history : List (Value × Scope)) :
    (∃ log stage, countEach history ⟨engine, d⟩ = .ok log stage ∧ log.length = history.length ∧
      ∀ d' ∈ d :: log.map Prod.snd, d'.Rooted ∧ d'.nodeCount = Tree.sizeAll d'.content + 1) ∨
    ∃ stage, countEach history ⟨engine, d⟩ = .error .outOfSlots stage ∧
      ¬ stage.document.HasRoom := by
  have hsound := (Document.Reachable.of_read hread).sound
  have hrooted := Document.rooted_of_read hread
  have husable : Stage.Usable ⟨engine, d⟩ := ⟨(Engine.Reachable.create hcreate).usable, hsound⟩
  obtain ⟨log, stage, hok, hlength, hlog⟩ | hfull :=
    (runs_countEach_rooted husable hrooted history).cases
  · refine Or.inl ⟨log, stage, hok, hlength, List.forall_mem_cons.2 ⟨?_, ?_⟩⟩
    · exact ⟨hrooted, hrooted.nodeCount_eq hsound⟩
    · exact List.forall_mem_map.2 fun r hr => ⟨(hlog r hr).2, (hlog r hr).2.nodeCount_eq (hlog r hr).1⟩
  · exact Or.inr hfull

/-- A list grows, is emptied and grows again, beside a text that goes away. -/
theorem render_leaves_nothing_loose_emptied :
    let long : Value := .map [("xs", .list [.string "1", .string "2"]), ("z", .string "4")]
    let none : Value := .map [("xs", .list []), ("z", .string "")]
    let history : List (Value × Scope) := [(long, .empty), (none, .empty), (long, .empty)]
    ∃ d, Document.read ⟨0⟩ "<p>{{z}}<each of=\"xs\" as=\"x\"><b>{{x}}</b></each></p>" = .ok d ∧
      Engine.create .default = .ok (.ofSettings .default) ∧
      ∃ log stage, countEach history ⟨.ofSettings .default, d⟩ = .ok log stage ∧
        log.map (fun r => r.2.nodeCount) = [10, 5, 10] ∧ ∀ r ∈ log, r.2.Rooted := by
  intro long none history
  have hrun : (Document.read ⟨0⟩
      "<p>{{z}}<each of=\"xs\" as=\"x\"><b>{{x}}</b></each></p>").toOption.any (fun d =>
      Succeeds (countEach history) ⟨.ofSettings .default, d⟩ fun log _ =>
        log.map (fun r => Tree.sizeAll r.2.content + 1) == [10, 5, 10]) = true := by
    decide +kernel
  obtain ⟨d, hread, hrun⟩ := exists_of_toOption_any hrun
  obtain ⟨log, stage, hlog, hsizes⟩ := exists_of_succeeds hrun
  have hcreate : Engine.create .default = .ok (.ofSettings .default) := rfl
  refine ⟨d, hread, hcreate, log, stage, hlog, ?_⟩
  obtain ⟨log', stage', hlog', -, hrooted⟩ | ⟨stage', herror, -⟩ :=
    render_leaves_nothing_loose hread hcreate history
  · cases hlog.symm.trans hlog'
    have hall := List.forall_mem_map.1 (List.forall_mem_cons.1 hrooted).2
    refine ⟨?_, fun r hr => (hall r hr).1⟩
    rw [← eq_of_beq hsizes]
    exact List.map_congr_left fun r hr => (hall r hr).2
  · cases hlog.symm.trans herror

end Pass
end LiveMarkup
