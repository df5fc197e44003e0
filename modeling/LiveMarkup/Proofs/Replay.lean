import LiveMarkup.Command.Run
import LiveMarkup.Proofs.Completion
import LiveMarkup.Proofs.Writing

/-! What is written for a script. Its steps make models of the bare model, one after another, and the
document is rendered for each of them; the trees after these renderings are written. A step that is
rejected ends the replay, and its number is told. -/
namespace LiveMarkup

/-- What a write makes of a bare model and what it gives back, or why it is refused. -/
def Write.update (w : Write) (h : Handle) (model : Value) : Except ModelError (Value × Outcome) :=
  match h.locate? model with
  | none => .error (.stalePath h.path)
  | some target =>
    match w.apply h.path target with
    | .error e _ => .error e
    | .ok outcome new => .ok (h.put new model, outcome)

theorem Write.Updates.update_eq {w : Write} {h : Handle} {model model' : Value} {outcome : Outcome}
    (hupdates : w.Updates h model model' outcome) : w.update h model = .ok (model', outcome) := by
  obtain ⟨target, new, htarget, hmakes, rfl⟩ := hupdates
  rw [update, htarget]
  dsimp only
  rw [hmakes.apply_eq]

theorem Write.Refused.update_eq {w : Write} {h : Handle} {model : Value} {e : ModelError}
    (hrefused : w.Refused h model e) : w.update h model = .error e := by
  rw [update]
  cases hrefused with
  | stale hgone => rw [hgone]
  | fails htarget hfails =>
    rw [htarget]
    dsimp only
    rw [hfails.apply_eq]

/-- What a step makes of a bare model. -/
def ScriptStep.update (step : ScriptStep) (model : Value) : Except StepError Value :=
  match step.handle? model with
  | none => .error (.noContainer step.container)
  | some h =>
    match step.write.update h model with
    | .error e => .error (.refused e)
    | .ok (model, _) => .ok model

namespace Script

/-- The models that the steps of a script make one after another. The first step that is rejected
ends the row, and the reason is told. -/
def models : Script → Value → List Value × Option StepError
  | [], _ => ([], none)
  | step :: rest, model =>
    match step.update model with
    | .error e => ([], some e)
    | .ok model =>
      let (later, rejection) := models rest model
      (model :: later, rejection)

theorem length_models {script : Script} {model : Value} (h : (script.models model).2 = none) :
    (script.models model).1.length = script.length := by
  induction script generalizing model with
  | nil => rfl
  | cons step rest ih =>
    rw [models] at h ⊢
    cases hupdate : step.update model with
    | error e =>
      rw [hupdate] at h
      cases h
    | ok next =>
      rw [hupdate] at h
      exact congrArg (· + 1) (ih h)

/-- The step that is rejected comes right after those that made the models. -/
theorem exists_rejected {script : Script} {model : Value} {cause : StepError}
    (h : (script.models model).2 = some cause) :
    ∃ step, script[(script.models model).1.length]? = some step ∧
      step.update ((script.models model).1.getLastD model) = .error cause := by
  induction script generalizing model with
  | nil => cases h
  | cons step rest ih =>
    rw [models] at h ⊢
    cases hupdate : step.update model with
    | error e =>
      rw [hupdate] at h
      cases h
      exact ⟨step, rfl, hupdate⟩
    | ok next =>
      rw [hupdate] at h
      obtain ⟨other, hother, hrejected⟩ := ih h
      exact ⟨other, hother, by rwa [List.getLastD_cons]⟩

end Script

namespace Pass

variable {stage stage' : Stage} {model : Value} {models : List Value} {trees : List Document}

/-- A document is rendered for several models, one after another, and these are the trees after each
of the renderings. -/
structure TreesFor (stage : Stage) (models : List Value) (trees : List Document) : Prop where
  length_eq : trees.length = models.length
  tree : ∀ n (hn : n < trees.length), ∃ engine,
    renderEach ((models.take (n + 1)).map (·, .empty)) stage = .ok () ⟨engine, trees[n]⟩

/-- The last of several renderings asks for a node where no slot is left. -/
def RunsOut (stage : Stage) (models : List Value) : Prop :=
  ∃ stage', renderEach (models.map (·, .empty)) stage = .error .outOfSlots stage' ∧
    ¬ stage'.document.HasRoom

theorem TreesFor.nil : TreesFor stage [] [] := ⟨rfl, nofun⟩

theorem TreesFor.cons {counts : Counts} (h : render .root model .empty stage = .ok counts stage')
    (htrees : TreesFor stage' models trees) :
    TreesFor stage (model :: models) (stage'.document :: trees) := by
  refine ⟨congrArg (· + 1) htrees.length_eq, fun n hn => ?_⟩
  have hfirst (rest : List (Value × Scope)) :
      renderEach ((model, .empty) :: rest) stage = renderEach rest stage' := bind_eq_of_ok h
  rw [List.take_succ_cons, List.map_cons, hfirst]
  cases n with
  | zero => exact ⟨stage'.engine, rfl⟩
  | succ n => exact htrees.tree n (Nat.lt_of_succ_lt_succ hn)

theorem RunsOut.cons {counts : Counts} (h : render .root model .empty stage = .ok counts stage')
    (hrest : RunsOut stage' models) : RunsOut stage (model :: models) := by
  obtain ⟨stage₂, herror, hfull⟩ := hrest
  exact ⟨stage₂, (bind_eq_of_ok h).trans herror, hfull⟩

theorem RunsOut.of_error (h : render .root model .empty stage = .error .outOfSlots stage')
    (hfull : ¬ stage'.document.HasRoom) : RunsOut stage [model] :=
  ⟨stage', bind_eq_of_error h, hfull⟩

end Pass

/-- A model with a document that follows it, all of whose renderings have succeeded. -/
def Follower.start (model : Value) (stage : Stage) : Observed Follower :=
  .wrap model follow ⟨stage, none⟩

namespace Script

theorem replay_eq_start (script : Script) (model : Value) (stage : Stage) :
    script.replay model stage = replayFrom 1 script (Follower.start model stage) := rfl

theorem applyStep_start (step : ScriptStep) (model : Value) (stage : Stage) :
    applyStep step (Follower.start model stage) = (step.update model).map fun model' =>
      { Follower.start model' stage with
        state := Follower.follow ⟨model', true⟩ ⟨stage, none⟩ } := by
  have hmodel : (Follower.start model stage).model.value = model := rfl
  have hlocked : (Follower.start model stage).model.locked = false := rfl
  rw [applyStep, ScriptStep.update, hmodel]
  cases step.handle? model with
  | none => rfl
  | some h =>
    obtain ⟨model', outcome, hupdates⟩ | ⟨e, hrefused⟩ := step.write.updates_or_refused h model
    · dsimp only
      rw [Observed.write_of_updates hlocked hupdates, hupdates.update_eq]
      rfl
    · dsimp only
      rw [Observed.write_of_refused hlocked hrefused, hrefused.update_eq]
      rfl

/-- One step: it is rejected, or the document is rendered for the new model, and the replay goes on
from there. -/
theorem replayFrom_cons (first : Nat) (step : ScriptStep) (rest : Script) (model : Value)
    (stage : Stage) : replayFrom first (step :: rest) (Follower.start model stage) =
      match step.update model with
      | .error e => .error (.step first e)
      | .ok model' =>
        match Pass.render .root model' .empty stage with
        | .error e _ => .error (.render first e)
        | .ok _ stage' => (replayFrom (first + 1) rest (Follower.start model' stage')).map
          (stage'.document.markup :: ·) := by
  rw [replayFrom, applyStep_start]
  cases step.update model with
  | error e => rfl
  | ok model' =>
    dsimp only [Except.map, Follower.follow]
    cases Pass.render .root model' .empty stage with
    | error e stage' => rfl
    | ok counts stage' =>
      dsimp only [Follower.start, Observed.wrap]
      cases replayFrom (first + 1) rest _ <;> rfl

/-- A replay renders for the models that the steps make. It stops where no slot is left for a node,
or else at the step that is rejected; if there is none, it gives the markup of all trees. -/
theorem replayFrom_start {stage : Stage} (h : stage.Usable) (script : Script) (first : Nat)
    (model : Value) :
    (∃ n < (script.models model).1.length,
      Pass.RunsOut stage ((script.models model).1.take (n + 1)) ∧
      replayFrom first script (Follower.start model stage) =
        .error (.render (first + n) .outOfSlots)) ∨
    ∃ trees, Pass.TreesFor stage (script.models model).1 trees ∧
      replayFrom first script (Follower.start model stage) =
        match (script.models model).2 with
        | some e => .error (.step (first + (script.models model).1.length) e)
        | none => .ok (trees.map Document.markup) := by
  induction script generalizing first model stage with
  | nil => exact Or.inr ⟨[], .nil, rfl⟩
  | cons step rest ih =>
    rw [models, replayFrom_cons]
    cases step.update model with
    | error e => exact Or.inr ⟨[], .nil, rfl⟩
    | ok next =>
      dsimp only
      obtain ⟨counts, stage₁, hok, hstage₁⟩ | ⟨stage₁, herror, hfull⟩ :=
        (Pass.alike_render h .root (Nat.le_refl _) next .empty).2.cases
      · rw [hok]
        dsimp only
        obtain ⟨n, hn, hout, hreplay⟩ | ⟨trees, htrees, hreplay⟩ := ih hstage₁ (first + 1) next
        · refine Or.inl ⟨n + 1, Nat.succ_lt_succ hn, ?_, ?_⟩
          · rw [List.take_succ_cons]
            exact hout.cons hok
          · rw [hreplay, Nat.add_right_comm]
            rfl
        · refine Or.inr ⟨stage₁.document :: trees, htrees.cons hok, ?_⟩
          rw [hreplay]
          cases (models rest next).2 with
          | none => rfl
          | some e =>
            dsimp only [Except.map]
            rw [List.length_cons, Nat.add_right_comm, Nat.add_assoc]
      · rw [herror]
        exact Or.inl ⟨0, Nat.succ_pos _, .of_error herror hfull, rfl⟩

end Script

namespace Command

variable {files : Files} {o : RenderOptions} {path : String} {document : Document} {model : Value}
  {settings : Settings} {engine : Engine} {script : Script}

theorem reachable_of_loadTemplate (h : loadTemplate files path = .ok document) :
    document.Reachable := by
  rw [loadTemplate] at h
  cases htext : readFile files .template path with
  | error e =>
    rw [htext] at h
    cases h
  | ok text =>
    rw [htext] at h
    dsimp only [bind, Except.bind] at h
    cases hread : Document.read ⟨0⟩ text with
    | error e =>
      rw [hread] at h
      cases h
    | ok d =>
      rw [hread] at h
      cases h
      exact .of_read hread

/-- The render command, once all that it reads has been loaded. -/
theorem render_eq_of_loads (hdocument : loadTemplate files o.template = .ok document)
    (hmodel : loadModel files o.model = .ok model)
    (hsettings : loadSettings files o.config = .ok settings)
    (hengine : Engine.create settings = .ok engine) (hpath : o.script = some path)
    (hscript : loadScript files path = .ok script) : render files o =
      match Pass.render .root model .empty ⟨engine, document⟩ with
      | .error e _ => .error (.render o.template e)
      | .ok _ stage =>
        match Script.replayFrom 1 script (Follower.start model stage) with
        | .error e => .error (.replay e)
        | .ok snapshots => .ok (snapshotText o.snapshots snapshots) := by
  rw [render, hdocument, hmodel, hsettings]
  dsimp only [bind, Except.bind]
  rw [hengine]
  dsimp only [Except.mapError]
  cases Pass.render .root model .empty ⟨engine, document⟩ with
  | error e stage => rfl
  | ok counts stage =>
    rw [hpath]
    dsimp only
    rw [hscript]
    dsimp only
    rw [Script.replay_eq_start]
    cases Script.replayFrom 1 script (Follower.start model stage) <;> rfl

/-- What the render command writes for a script. It renders against the model that it reads and then
once for each step, against the model after that step; this may fail for want of a slot. If all
steps are accepted, it writes the trees after each of them, or the last of these trees only; if one
is rejected, it fails and names the first that is. For a script without steps there is no such tree,
and no more than an empty line is written. -/
theorem render_replays (hdocument : loadTemplate files o.template = .ok document)
    (hmodel : loadModel files o.model = .ok model)
    (hsettings : loadSettings files o.config = .ok settings)
    (hengine : Engine.create settings = .ok engine) (hpath : o.script = some path)
    (hscript : loadScript files path = .ok script) :
    let (models, rejection) := script.models model
    (∃ n ≤ models.length, Pass.RunsOut ⟨engine, document⟩ (model :: models.take n) ∧
      render files o = .error (if n = 0 then .render o.template .outOfSlots
        else .replay (.render n .outOfSlots))) ∨
    ∃ first trees, Pass.TreesFor ⟨engine, document⟩ (model :: models) (first :: trees) ∧
      match rejection with
      | none => trees.length = script.length ∧ render files o = .ok
        ((if o.snapshots then "\n\n".intercalate (trees.map Document.markup)
          else match trees.getLast? with
            | some last => last.markup
            | none => "") ++ "\n")
      | some cause => (∃ step, script[models.length]? = some step ∧
          step.update (models.getLastD model) = .error cause) ∧
        render files o = .error (.replay (.step (models.length + 1) cause)) := by
  have husable : Stage.Usable ⟨engine, document⟩ :=
    ⟨(Engine.Reachable.create hengine).usable, (reachable_of_loadTemplate hdocument).sound⟩
  rw [render_eq_of_loads hdocument hmodel hsettings hengine hpath hscript]
  obtain ⟨counts, stage, hok, hstage⟩ | ⟨stage, herror, hfull⟩ :=
    (Pass.alike_render husable .root (Nat.le_refl _) model .empty).2.cases
  · rw [hok]
    dsimp only
    obtain ⟨n, hn, hout, hreplay⟩ | ⟨trees, htrees, hreplay⟩ :=
      Script.replayFrom_start hstage script 1 model
    · refine Or.inl ⟨n + 1, hn, hout.cons hok, ?_⟩
      rw [hreplay, if_neg (Nat.succ_ne_zero n), Nat.add_comm n]
    · refine Or.inr ⟨stage.document, trees, htrees.cons hok, ?_⟩
      rw [hreplay]
      cases hrejection : (script.models model).2 with
      | none =>
        refine ⟨htrees.length_eq.trans (Script.length_models hrejection), ?_⟩
        dsimp only
        rw [snapshotText, List.getLastD_eq_getLast?, List.getLast?_map]
        cases trees.getLast? <;> rfl
      | some cause =>
        refine ⟨Script.exists_rejected hrejection, ?_⟩
        dsimp only
        rw [Nat.add_comm]
  · rw [herror]
    exact Or.inl ⟨0, Nat.zero_le _, .of_error herror hfull, rfl⟩

/-- All trees of a script of two steps. -/
theorem render_replays_counter :
    let files : Files := (Entries.get? · [("page", "<p>{{n}}</p>"), ("model", "\x7b\"n\": 1\x7d"),
      ("script", "[[\"set\", \"n\", 2], [\"set\", \"n\", 3]]")])
    let o : RenderOptions := ⟨"page", some "model", some "script", none, true⟩
    ∃ document model script, loadTemplate files o.template = .ok document ∧
      loadModel files o.model = .ok model ∧ loadSettings files o.config = .ok .default ∧
      Engine.create .default = .ok (.ofSettings .default) ∧ o.script = some "script" ∧
      loadScript files "script" = .ok script ∧ ∃ first trees,
        Pass.TreesFor ⟨.ofSettings .default, document⟩ (model :: (script.models model).1)
          (first :: trees) ∧ trees.length = 2 ∧
        render files o = .ok ("\n\n".intercalate (trees.map Document.markup) ++ "\n") ∧
        render files o = .ok "<p>2</p>\n\n<p>3</p>\n" := by
  intro files o
  have hrun : (loadTemplate files o.template).toOption.any (fun _ =>
      (loadModel files o.model).toOption.any fun model =>
        (loadScript files "script").toOption.any fun script =>
          decide (script.length = 2 ∧ (script.models model).2 = none ∧
            render files o = .ok "<p>2</p>\n\n<p>3</p>\n")) = true := by
    decide +kernel
  obtain ⟨document, hdocument, hrun⟩ := exists_of_toOption_any hrun
  obtain ⟨model, hmodel, hrun⟩ := exists_of_toOption_any hrun
  obtain ⟨script, hscript, hrun⟩ := exists_of_toOption_any hrun
  obtain ⟨hlength, haccepted, hwritten⟩ := of_decide_eq_true hrun
  have hsettings : loadSettings files o.config = .ok .default := rfl
  have hengine : Engine.create .default = .ok (.ofSettings .default) := rfl
  have hpath : o.script = some "script" := rfl
  refine ⟨document, model, script, hdocument, hmodel, hsettings, hengine, hpath, hscript, ?_⟩
  obtain ⟨n, -, -, hfailed⟩ | ⟨first, trees, htrees, hreplay⟩ :=
    render_replays hdocument hmodel hsettings hengine hpath hscript
  · cases hwritten.symm.trans hfailed
  · rw [haccepted] at hreplay
    exact ⟨first, trees, htrees, hreplay.1.trans hlength, hreplay.2, hwritten⟩

/-- So what is written need not be the last tree that there is: a script without steps leaves the
first one. -/
theorem not_last_tree_written : ¬ ∀ (files : Files) (o : RenderOptions) (path : String)
    (document : Document) (model : Value) (settings : Settings) (engine : Engine)
    (script : Script) (stage : Stage), loadTemplate files o.template = .ok document →
    loadModel files o.model = .ok model → loadSettings files o.config = .ok settings →
    Engine.create settings = .ok engine → o.script = some path →
    loadScript files path = .ok script → (script.models model).2 = none → o.snapshots = false →
    Pass.renderEach ((model :: (script.models model).1).map (·, .empty)) ⟨engine, document⟩ =
      .ok () stage → render files o = .ok (stage.document.markup ++ "\n") := by
  intro h
  let files : Files := (Entries.get? · [("page", "<p/>"), ("script", "[]")])
  let o : RenderOptions := ⟨"page", none, some "script", none, false⟩
  have hrun : (loadTemplate files o.template).toOption.any (fun document =>
      (loadScript files "script").toOption.any fun script =>
        Succeeds (Pass.renderEach [(.empty, .empty)]) ⟨.ofSettings .default, document⟩
          fun _ stage => decide
            (script.isEmpty ∧ stage.document.markup = "<p/>" ∧ render files o = .ok "\n")) =
      true := by
    decide +kernel
  obtain ⟨document, hdocument, hrun⟩ := exists_of_toOption_any hrun
  obtain ⟨script, hscript, hrun⟩ := exists_of_toOption_any hrun
  obtain ⟨⟨⟩, stage, hstage, hrun⟩ := exists_of_succeeds hrun
  obtain ⟨hempty, hmarkup, hwritten⟩ := of_decide_eq_true hrun
  obtain rfl := List.isEmpty_iff.1 hempty
  have htree := h files o _ _ _ _ _ [] stage hdocument rfl rfl rfl rfl hscript rfl rfl hstage
  rw [hmarkup, hwritten] at htree
  exact absurd htree (by decide)

end Command
end LiveMarkup
