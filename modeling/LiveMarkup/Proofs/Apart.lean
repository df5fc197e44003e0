import LiveMarkup.Proofs.Listening

/-! Writes at places that are apart. A write changes nothing outside of the place that it is made
at, so of two writes at places of which neither is inside of the other it does not matter which one
comes first. -/
namespace LiveMarkup

variable {σ : Type}

namespace PathStep

variable {step step' : PathStep} {v a b : Value}

/-- Of two values put one step inside the later one counts. -/
theorem put_put (step : PathStep) (a b v : Value) : step.put a (step.put b v) = step.put a v := by
  cases step with
  | key name =>
    cases v with
    | map entries => exact congrArg Value.map (Entries.put_put ..)
    | _ => rfl
  | index n =>
    cases v with
    | list items => exact congrArg Value.list (List.set_set ..)
    | _ => rfl

/-- Two values in one container are put in any order. -/
theorem put_comm (hne : step ≠ step') (h : step.from? v = some a) (new new' : Value) :
    step.put new (step'.put new' v) = step'.put new' (step.put new v) := by
  obtain ⟨name, entries, rfl, rfl, hmem⟩ | ⟨n, items, rfl, rfl⟩ := exists_of_from?_eq_some h
  · cases step' with
    | key name' =>
      have hname : name ≠ name' := fun hname => hne (congrArg key hname)
      exact congrArg Value.map (Entries.put_comm hname hmem new new')
    | index n => rfl
  · cases step' with
    | key name => rfl
    | index n' =>
      have hn : n' ≠ n := fun hn => hne (congrArg index hn.symm)
      exact congrArg Value.list (List.set_comm new' new hn)

end PathStep

namespace Handle

variable {h other : Handle}

theorem Apart.symm (happart : h.Apart other) : other.Apart h := And.symm happart

/-- Values at two places that are apart are put in any order. -/
theorem put_comm (happart : h.Apart other) (new new' model : Value) :
    h.put new (other.put new' model) = other.put new' (h.put new model) := by
  obtain ⟨steps⟩ := h
  obtain ⟨others⟩ := other
  simp only [put, Apart] at happart ⊢
  induction steps generalizing others model with
  | nil => exact absurd List.nil_prefix happart.1
  | cons step rest ih =>
    cases others with
    | nil => exact absurd List.nil_prefix happart.2
    | cons step' rest' =>
      by_cases hstep : step = step'
      · subst hstep
        rw [List.cons_prefix_cons, List.cons_prefix_cons] at happart
        have happart' : ¬ rest <+: rest' ∧ ¬ rest' <+: rest :=
          ⟨fun h => happart.1 ⟨rfl, h⟩, fun h => happart.2 ⟨rfl, h⟩⟩
        cases hv : step.from? model with
        | none => simp only [putAt, hv]
        | some v =>
          simp only [putAt, hv, PathStep.from?_put hv, PathStep.put_put, ih v rest' happart']
      · cases hv : step.from? model with
        | none =>
          cases hv' : step'.from? model with
          | none => simp only [putAt, hv, hv']
          | some v' =>
            simp only [putAt, hv, hv', PathStep.from?_put_of_ne (Ne.symm hstep)]
        | some v =>
          cases hv' : step'.from? model with
          | none => simp only [putAt, hv, hv', PathStep.from?_put_of_ne hstep]
          | some v' =>
            simp only [putAt, hv, hv', PathStep.from?_put_of_ne hstep,
              PathStep.from?_put_of_ne (Ne.symm hstep)]
            exact PathStep.put_comm hstep hv _ _

end Handle

namespace Write

variable {h other : Handle} {w : Write} {model model' : Value}

/-- What was put at a place apart stays where it is, and does not change what a write makes. -/
theorem Updates.put {outcome : Outcome} (hupdates : w.Updates h model model' outcome)
    (happart : h.Apart other) (new : Value) :
    w.Updates h (other.put new model) (other.put new model') outcome := by
  obtain ⟨target, made, htarget, hmakes, rfl⟩ := hupdates
  refine ⟨target, made, ?_, hmakes, (Handle.put_comm happart made new model).symm⟩
  rw [Handle.locate?_put_of_apart happart.symm, htarget]

/-- What was put at a place apart neither helps a write nor hinders it. -/
theorem Refused.put {e : ModelError} (hrefused : w.Refused h model e) (happart : h.Apart other)
    (new : Value) : w.Refused h (other.put new model) e := by
  have hlocate : h.locate? (other.put new model) = h.locate? model :=
    Handle.locate?_put_of_apart happart.symm
  cases hrefused with
  | stale hgone => exact .stale (hlocate.trans hgone)
  | fails htarget hfails => exact .fails (hlocate.trans htarget) hfails

/-- The answer that is due to a write, and the model after it. -/
inductive Answers (w : Write) (h : Handle) (model : Value) :
    Except ModelError Outcome → Value → Prop
  | made {model' : Value} {outcome : Outcome} (hupdates : w.Updates h model model' outcome) :
    Answers w h model (.ok outcome) model'
  | refused {e : ModelError} (hrefused : w.Refused h model e) : Answers w h model (.error e) model

theorem exists_answers (w : Write) (h : Handle) (model : Value) :
    ∃ answer model', w.Answers h model answer model' := by
  obtain ⟨model', outcome, hupdates⟩ | ⟨e, hrefused⟩ := w.updates_or_refused h model
  · exact ⟨_, _, .made hupdates⟩
  · exact ⟨_, _, .refused hrefused⟩

variable {answer : Except ModelError Outcome}

/-- Whatever the answer is, the model differs at the place of the handle at most. -/
theorem Answers.exists_eq_put (hanswers : w.Answers h model answer model') :
    ∃ new, model' = h.put new model := by
  cases hanswers with
  | made hupdates =>
    obtain ⟨target, new, -, -, hmodel⟩ := hupdates
    exact ⟨new, hmodel⟩
  | refused hrefused =>
    cases htarget : h.locate? model with
    | none => exact ⟨.null, (Handle.put_of_locate?_eq_none htarget).symm⟩
    | some target => exact ⟨target, (Handle.put_of_locate?_eq_some htarget).symm⟩

theorem Answers.put (hanswers : w.Answers h model answer model') (happart : h.Apart other)
    (new : Value) : w.Answers h (other.put new model) answer (other.put new model') := by
  cases hanswers with
  | made hupdates => exact .made (hupdates.put happart new)
  | refused hrefused => exact .refused (hrefused.put happart new)

end Write

namespace Observed

variable {o : Observed σ}

theorem write_of_answers {h : Handle} {w : Write} {answer : Except ModelError Outcome}
    {model' : Value} (hunlocked : o.model.locked = false)
    (hanswers : w.Answers h o.model.value answer model') :
    (o.write h w).1 = answer ∧ (o.write h w).2.model = ⟨model', false⟩ := by
  cases hanswers with
  | made hupdates =>
    rw [write_of_updates hunlocked hupdates]
    exact ⟨rfl, rfl⟩
  | refused hrefused =>
    rw [write_of_refused hunlocked hrefused, ← hunlocked]
    exact ⟨rfl, rfl⟩

theorem locate?_write_of_apart {o' : Observed σ} {h other : Handle} {w : Write}
    {outcome : Outcome} (happart : h.Apart other) (hwrite : o.write h w = (.ok outcome, o')) :
    other.locate? o'.model.value = other.locate? o.model.value := by
  obtain ⟨-, hupdates⟩ := write_eq_ok hwrite
  obtain ⟨new, hmodel⟩ := (Write.Answers.made hupdates).exists_eq_put
  rw [hmodel]
  exact Handle.locate?_put_of_apart happart

/-- The second one of two writes gets the answer that is due to it on the first model. -/
theorem writeEach_pair {h other : Handle} {w w' : Write}
    {answer answer' : Except ModelError Outcome} {new new' : Value} (happart : h.Apart other)
    (hunlocked : o.model.locked = false)
    (hanswers : w.Answers h o.model.value answer (h.put new o.model.value))
    (hanswers' : w'.Answers other o.model.value answer' (other.put new' o.model.value)) :
    (writeEach [(h, w), (other, w')] o).1 = [answer, answer'] ∧
      (writeEach [(h, w), (other, w')] o).2.model =
        ⟨h.put new (other.put new' o.model.value), false⟩ := by
  obtain ⟨hfirst, hmodel⟩ := write_of_answers hunlocked hanswers
  have hthen : w'.Answers other (o.write h w).2.model.value answer'
      (h.put new (other.put new' o.model.value)) := by
    rw [hmodel]
    exact hanswers'.put happart.symm new
  obtain ⟨hsecond, hboth⟩ := write_of_answers (congrArg Model.locked hmodel) hthen
  refine ⟨?_, hboth⟩
  change [(o.write h w).1, ((o.write h w).2.write other w').1] = [answer, answer']
  rw [hfirst, hsecond]

/-- The answers to two writes at places that are apart, and the model that they leave. -/
theorem writeEach_swap {h other : Handle} (happart : h.Apart other) (w w' : Write)
    (o : Observed σ) :
    let run := writeEach [(h, w), (other, w')] o
    let swapped := writeEach [(other, w'), (h, w)] o
    swapped.1 = run.1.reverse ∧ swapped.2.model = run.2.model := by
  cases hlocked : o.model.locked with
  | true => simp [writeEach, write_of_locked hlocked]
  | false =>
    obtain ⟨answer, model, hanswers⟩ := w.exists_answers h o.model.value
    obtain ⟨answer', model', hanswers'⟩ := w'.exists_answers other o.model.value
    obtain ⟨new, rfl⟩ := hanswers.exists_eq_put
    obtain ⟨new', rfl⟩ := hanswers'.exists_eq_put
    obtain ⟨hrun, hleft⟩ := writeEach_pair happart hlocked hanswers hanswers'
    obtain ⟨hswapped, hleft'⟩ := writeEach_pair happart.symm hlocked hanswers' hanswers
    dsimp only
    rw [hrun, hswapped, hleft, hleft', Handle.put_comm happart]
    exact ⟨rfl, rfl⟩

/-- A write through a handle leaves the value at every place that is apart from its own. Two writes
at places that are apart get the same answers in either order and leave the same model. -/
theorem writes_apart_commute (o : Observed σ) (h : Handle) (w : Write) :
    (∀ outcome o', o.write h w = (.ok outcome, o') →
      ∀ other, h.Apart other → other.locate? o'.model.value = other.locate? o.model.value) ∧
    ∀ other w', h.Apart other →
      let run := writeEach [(h, w), (other, w')] o
      let swapped := writeEach [(other, w'), (h, w)] o
      swapped.1 = run.1.reverse ∧ swapped.2.model = run.2.model :=
  ⟨fun _ _ hwrite _ happart => locate?_write_of_apart happart hwrite,
    fun _ w' happart => writeEach_swap happart w w' o⟩

/-- A push into one entry of a model and a key set in another one. -/
theorem writes_apart_commute_in_entries :
    let o := wrap (.map [("a", .list []), ("b", .map [])]) (fun _ calls => calls + 1) 0
    let h : Handle := ⟨[.key "a"]⟩
    let other : Handle := ⟨[.key "b"]⟩
    let w := Write.push (.bool true)
    let w' := Write.set "x" .null
    let model := .map [("a", .list [.bool true]), ("b", .map [("x", .null)])]
    h.Apart other ∧ other.locate? (o.write h w).2.model.value = some (.map []) ∧
      (writeEach [(h, w), (other, w')] o).2.model.value = model ∧
      writeEach [(other, w'), (h, w)] o =
        ([.ok .done, .ok .done], ⟨⟨model, false⟩, o.listener, 2⟩) := by
  intro o h other w w' model
  have happart : h.Apart other := ⟨by decide, by decide⟩
  obtain ⟨hlocal, hcommute⟩ := writes_apart_commute o h w
  refine ⟨happart, hlocal .done _ rfl other happart, ?_, rfl⟩
  exact congrArg Model.value (hcommute other w' happart).2.symm

end Observed
end LiveMarkup
