import LiveMarkup.Proofs.Writing

/-! Writes to an observed model and what its listener is told. A listener is any program that may try
to write in its turn; the model is locked while it runs, so all that it tries is refused. Of a row
of writes each one is refused, and then nothing happens, or makes a new model; the listener is
called once for each of these models. -/
namespace LiveMarkup

variable {σ : Type}

/-- A row of writes to a bare model, one after another: their answers, and the model after each of
them that succeeds. One that is refused changes nothing. -/
inductive Write.Run : Value → List (Handle × Write) → List (Except ModelError Outcome) →
    List Value → Prop
  | nil {model : Value} : Run model [] [] []
  | refused {model : Value} {h : Handle} {w : Write} {e : ModelError}
    {rest : List (Handle × Write)} {answers : List (Except ModelError Outcome)}
    {models : List Value} (hrefused : w.Refused h model e) (hrest : Run model rest answers models) :
    Run model ((h, w) :: rest) (.error e :: answers) models
  | made {model model' : Value} {h : Handle} {w : Write} {outcome : Outcome}
    {rest : List (Handle × Write)} {answers : List (Except ModelError Outcome)}
    {models : List Value} (hupdates : w.Updates h model model' outcome)
    (hrest : Run model' rest answers models) :
    Run model ((h, w) :: rest) (.ok outcome :: answers) (model' :: models)

theorem Write.exists_run (writes : List (Handle × Write)) (model : Value) :
    ∃ answers models, Write.Run model writes answers models := by
  induction writes generalizing model with
  | nil => exact ⟨[], [], .nil⟩
  | cons first rest ih =>
    obtain ⟨h, w⟩ := first
    obtain ⟨model', outcome, hupdates⟩ | ⟨e, hrefused⟩ := w.updates_or_refused h model
    · obtain ⟨answers, models, hrest⟩ := ih model'
      exact ⟨_, _, .made hupdates hrest⟩
    · obtain ⟨answers, models, hrest⟩ := ih model
      exact ⟨_, _, .refused hrefused hrest⟩

/-- What a listener does once it is called: it tries to write, sees the answer and the model, and
goes on, or it is done. -/
inductive Reaction (σ : Type) where
  | done (state : σ)
  | attempt (h : Handle) (w : Write) (next : Except ModelError Outcome → Value → Reaction σ)

namespace Reaction

/-- Lets a listener run on a model: the answers that it gets, the model that it leaves and its own
state. -/
def run : Reaction σ → Model → List (Except ModelError Outcome) × Model × σ
  | done state, m => ([], m, state)
  | attempt h w next, m =>
    let (answer, m) := m.answer h w
    let (answers, m, state) := (next answer m.value).run m
    (answer :: answers, m, state)

/-- Whatever is tried on a locked model is refused and changes nothing. -/
theorem run_of_locked {m : Model} (hm : m.locked = true) (r : Reaction σ) :
    (∀ answer ∈ (r.run m).1, answer = .error .reentrant) ∧ (r.run m).2.1 = m := by
  induction r with
  | done state => exact ⟨nofun, rfl⟩
  | attempt h w next ih =>
    rw [run, Model.answer_of_locked hm]
    obtain ⟨hrefused, hleft⟩ := ih (.error .reentrant) m.value
    exact ⟨List.forall_mem_cons.2 ⟨rfl, hrefused⟩, hleft⟩

end Reaction

/-- A call of a listener: the model that it was called with, the answers to what it tried and the
model that it left. -/
structure Call where
  model : Value
  answers : List (Except ModelError Outcome)
  left : Model

/-- All that the listener tried was refused, and it left the model as it found it. -/
def Call.Idle (c : Call) : Prop :=
  (∀ answer ∈ c.answers, answer = .error .reentrant) ∧ c.left = ⟨c.model, true⟩

/-- A listener that reacts to each model, with a record of its calls. -/
def Reaction.listener (react : Value → σ → Reaction σ) (m : Model) (s : List Call × σ) :
    List Call × σ :=
  let (answers, left, state) := (react m.value s.2).run m
  (s.1 ++ [⟨m.value, answers, left⟩], state)

/-- A call is recorded, and it was idle. -/
theorem Reaction.listener_locked (react : Value → σ → Reaction σ) (model : Value)
    (s : List Call × σ) : ∃ call, (listener react ⟨model, true⟩ s).1 = s.1 ++ [call] ∧
      call.model = model ∧ call.Idle :=
  ⟨_, rfl, rfl, run_of_locked rfl (react model s.2)⟩

namespace Observed

/-- Writes one after another: the answers, and what is observed afterwards. -/
def writeEach : List (Handle × Write) → Observed σ → List (Except ModelError Outcome) × Observed σ
  | [], o => ([], o)
  | (h, w) :: rest, o =>
    let (answer, o) := o.write h w
    let (answers, o) := writeEach rest o
    (answer :: answers, o)

/-- What is observed can be written to, its listener keeps a record, and the record has only idle
calls. -/
structure Recording (react : Value → σ → Reaction σ) (o : Observed (List Call × σ)) : Prop where
  unlocked : o.model.locked = false
  listener : o.listener = Reaction.listener react
  idle : ∀ c ∈ o.state.1, c.Idle

/-- A write has been made and told: the value at its handle's place is what the write makes of it,
all other places are as they were, and the listener was called once, with the whole new model. -/
def Told (h : Handle) (w : Write) (outcome : Outcome) (o o' : Observed (List Call × σ)) : Prop :=
  ∃ target new call, h.locate? o.model.value = some target ∧ w.Makes target new outcome ∧
    o'.model.value = h.put new o.model.value ∧ h.locate? o'.model.value = some new ∧
    (∀ other, h.Apart other → other.locate? o'.model.value = other.locate? o.model.value) ∧
    o'.state.1 = o.state.1 ++ [call] ∧ call.model = o'.model.value ∧ call.Idle

variable {react : Value → σ → Reaction σ} {o : Observed (List Call × σ)}

/-- One write that is not refused. -/
theorem Recording.write_of_updates {h : Handle} {w : Write} {model' : Value} {outcome : Outcome}
    (ho : o.Recording react) (hupdates : w.Updates h o.model.value model' outcome) :
    ∃ o', o.write h w = (.ok outcome, o') ∧ o'.model.value = model' ∧ o'.Recording react ∧
      Told h w outcome o o' := by
  obtain ⟨call, hcall, hcalled, hidle⟩ := Reaction.listener_locked react model' o.state
  rw [← ho.listener] at hcall
  refine ⟨_, Observed.write_of_updates ho.unlocked hupdates, rfl, ⟨rfl, ho.listener, ?_⟩, ?_⟩
  · rw [hcall]
    exact List.forall_mem_append.2 ⟨ho.idle, List.forall_mem_singleton.2 hidle⟩
  · obtain ⟨target, new, htarget, hmakes, rfl⟩ := hupdates
    exact ⟨target, new, call, htarget, hmakes, rfl, Handle.locate?_put htarget,
      fun other happart => Handle.locate?_put_of_apart happart, hcall, hcalled, hidle⟩

/-- A row of writes gets the answers that are due to it, and the listener is called with the models
that it makes. -/
theorem Recording.writeEach {writes : List (Handle × Write)}
    {answers : List (Except ModelError Outcome)} {models : List Value} {model : Value}
    (hrun : Write.Run model writes answers models) (ho : o.Recording react)
    (hmodel : o.model.value = model) : ∃ o' calls, Observed.writeEach writes o = (answers, o') ∧
      o'.Recording react ∧ o'.state.1 = o.state.1 ++ calls ∧ calls.map Call.model = models ∧
      o'.model.value = models.getLastD model := by
  induction hrun generalizing o with
  | nil => exact ⟨o, [], rfl, ho, (List.append_nil _).symm, rfl, hmodel⟩
  | refused hrefused _ ih =>
    subst hmodel
    obtain ⟨o', calls, hrest, hafter⟩ := ih ho rfl
    refine ⟨o', calls, ?_, hafter⟩
    rw [Observed.writeEach, write_of_refused ho.unlocked hrefused]
    dsimp only
    rw [hrest]
  | made hupdates _ ih =>
    subst hmodel
    obtain ⟨o₁, hwrite, hmodel₁, ho₁, -, -, call, -, -, -, -, -, hcall, hcalled, -⟩ :=
      ho.write_of_updates hupdates
    obtain ⟨o', calls, hrest, ho', hcalls, hmodels, hlast⟩ := ih ho₁ hmodel₁
    refine ⟨o', call :: calls, ?_, ho', ?_, ?_, ?_⟩
    · rw [Observed.writeEach, hwrite]
      dsimp only
      rw [hrest]
    · rw [hcalls, hcall, List.append_assoc, List.singleton_append]
    · rw [List.map_cons, hcalled, hmodel₁, hmodels]
    · rw [hlast, List.getLastD_cons]

/-- Whatever a listener does, a row of writes through handles to an observed model gets the answers
that are due to it and no others, and the listener is called with the models that the writes make,
each time in vain if it tries to write itself; the last of them is the model that is left. A write
that is refused changes nothing and calls nobody; one that succeeds is made and told. -/
theorem writes_are_told (value : Value) (react : Value → σ → Reaction σ) (state : σ)
    (writes : List (Handle × Write)) :
    let (answers, o) := Observed.writeEach writes (wrap value (Reaction.listener react) ([], state))
    let models := o.state.1.map Call.model
    (∀ answers' models', Write.Run value writes answers' models' ↔
      answers' = answers ∧ models' = models) ∧
    o.model = ⟨models.getLastD value, false⟩ ∧ (∀ c ∈ o.state.1, c.Idle) ∧
    ∀ h w, (∃ e, w.Refused h o.model.value e ∧ o.write h w = (.error e, o)) ∨
      ∃ outcome o', o.write h w = (.ok outcome, o') ∧ Told h w outcome o o' := by
  have hstart : (wrap value (Reaction.listener react) ([], state)).Recording react :=
    ⟨rfl, rfl, nofun⟩
  obtain ⟨answers, models, hrun⟩ := Write.exists_run writes value
  obtain ⟨o, calls, hwrites, ho, hcalls, hmodels, hlast⟩ := hstart.writeEach hrun rfl
  rw [hwrites]
  have hmade : o.state.1.map Call.model = models := by rw [hcalls]; exact hmodels
  dsimp only
  rw [hmade]
  refine ⟨fun answers' models' => ⟨fun hrun' => ?_, ?_⟩, ?_, ho.idle, fun h w => ?_⟩
  · obtain ⟨o', calls', hwrites', -, hcalls', hmodels', -⟩ := hstart.writeEach hrun' rfl
    obtain ⟨rfl, rfl⟩ := Prod.mk.inj (hwrites'.symm.trans hwrites)
    exact ⟨rfl, by rw [← hmodels', ← hmade, hcalls']; rfl⟩
  · rintro ⟨rfl, rfl⟩
    exact hrun
  · rw [← hlast, ← ho.unlocked]
  · obtain ⟨model', outcome, hupdates⟩ | ⟨e, hrefused⟩ := w.updates_or_refused h o.model.value
    · obtain ⟨o', hwrite, -, -, htold⟩ := ho.write_of_updates hupdates
      exact Or.inr ⟨outcome, o', hwrite, htold⟩
    · exact Or.inl ⟨e, hrefused, write_of_refused ho.unlocked hrefused⟩

end Observed
end LiveMarkup
