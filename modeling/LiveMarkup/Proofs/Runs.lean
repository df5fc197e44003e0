import LiveMarkup.Engine
import LiveMarkup.Proofs.Document.Lookup

/-! Runs of work on a document that can only fail for want of node slots. -/
namespace LiveMarkup

/-- States of work on a document. -/
class AtDocument (σ : Type) where
  document : σ → Document

instance : AtDocument Document := ⟨id⟩

instance : AtDocument Stage := ⟨Stage.document⟩

variable {σ α β : Type} {s t : σ}

theorem bind_eq_of_ok {work : EStateM TreeError σ α} {next : α → EStateM TreeError σ β} {a : α}
    (h : work s = .ok a t) : (work >>= next) s = next a t := by
  simp [Bind.bind, EStateM.bind, h]

theorem get_bind (next : σ → EStateM TreeError σ β) (s : σ) : (get >>= next) s = next s s :=
  bind_eq_of_ok rfl

theorem bind_eq_of_error {work : EStateM TreeError σ α} {next : α → EStateM TreeError σ β}
    {e : TreeError} (h : work s = .error e t) : (work >>= next) s = .error e t := by
  simp [Bind.bind, EStateM.bind, h]

theorem exists_of_toOption_any {ε : Type} {result : Except ε α} {test : α → Bool}
    (h : result.toOption.any test = true) : ∃ a, result = .ok a ∧ test a = true := by
  cases result with
  | error e => cases h
  | ok a => exact ⟨a, rfl, h⟩

/-- The work succeeds with a result and a state that pass a test. -/
def Succeeds (work : EStateM TreeError σ α) (s : σ) (test : α → σ → Bool) : Bool :=
  match work s with
  | .ok a t => test a t
  | .error _ _ => false

theorem exists_of_succeeds {work : EStateM TreeError σ α} {test : α → σ → Bool}
    (h : Succeeds work s test = true) : ∃ a t, work s = .ok a t ∧ test a t = true := by
  rw [Succeeds] at h
  split at h
  · exact ⟨_, _, ‹_›, h⟩
  · cases h

/-- The work ends in a result and a state as described, or it stops where no slot is left. -/
def Runs [AtDocument σ] (work : EStateM TreeError σ α) (s : σ) (post : α → σ → Prop) : Prop :=
  match work s with
  | .ok a t => post a t
  | .error e t => e = .outOfSlots ∧ ¬ (AtDocument.document t).HasRoom

namespace Runs

variable [AtDocument σ]

variable {work : EStateM TreeError σ α} {next : α → EStateM TreeError σ β} {post : α → σ → Prop}

theorem of_ok {a : α} (h : work s = .ok a t) (hpost : post a t) : Runs work s post := by
  rw [Runs, h]
  exact hpost

theorem of_outOfSlots (h : work s = .error .outOfSlots t)
    (hfull : ¬ (AtDocument.document t).HasRoom) : Runs work s post := by
  rw [Runs, h]
  exact ⟨rfl, hfull⟩

/-- What a run says of a result that is there. -/
theorem ok (h : Runs work s post) {a : α} (hok : work s = .ok a t) : post a t := by
  rwa [Runs, hok] at h

/-- A run ends in one of two ways. -/
theorem cases (h : Runs work s post) :
    (∃ a t, work s = .ok a t ∧ post a t) ∨
    ∃ t, work s = .error .outOfSlots t ∧ ¬ (AtDocument.document t).HasRoom := by
  rw [Runs] at h
  split at h
  · exact Or.inl ⟨_, _, ‹_›, h⟩
  · obtain ⟨rfl, hfull⟩ := h
    exact Or.inr ⟨_, ‹_›, hfull⟩

theorem mono {post' : α → σ → Prop} (h : Runs work s post)
    (himp : ∀ a t, post a t → post' a t) : Runs work s post' := by
  obtain ⟨a, t, hok, hpost⟩ | ⟨t, herror, hfull⟩ := h.cases
  · exact of_ok hok (himp a t hpost)
  · exact of_outOfSlots herror hfull

theorem pure {a : α} (h : post a s) : Runs (pure a) s post := h

theorem bind {post' : β → σ → Prop} (h : Runs work s post)
    (hnext : ∀ a t, post a t → Runs (next a) t post') : Runs (work >>= next) s post' := by
  obtain ⟨a, t, hok, hpost⟩ | ⟨t, herror, hfull⟩ := h.cases
  · rw [Runs, bind_eq_of_ok hok]
    exact hnext a t hpost
  · exact of_outOfSlots (bind_eq_of_error herror) hfull

/-- What is made of a result. -/
theorem map {f : α → β} {post : β → σ → Prop} (h : Runs work s fun a t => post (f a) t) :
    Runs (f <$> work) s post :=
  h.bind fun _ _ => .pure

/-- A run in two parts, taken apart. -/
theorem of_bind {post : β → σ → Prop} (h : Runs (work >>= next) s post) :
    Runs work s fun a t => Runs (next a) t post := by
  simp only [Runs, Bind.bind, EStateM.bind] at h ⊢
  cases hwork : work s with
  | ok a t =>
    rw [hwork] at h
    exact h
  | error e t =>
    rw [hwork] at h
    exact h

/-- Work that looks at the state first. -/
theorem get {next : σ → EStateM TreeError σ β} {post : β → σ → Prop} (h : Runs (next s) s post) :
    Runs (get >>= next) s post := h

end Runs

theorem Edit.apply_of_eq_ok {f : Document → Except TreeError Document} {d d' : Document}
    (h : f d = .ok d') : Edit.apply f d = .ok () d' := by
  rw [Edit.apply, h]

theorem Edit.runs_apply {f : Document → Except TreeError Document} {d d' : Document}
    {post : Unit → Document → Prop} (h : f d = .ok d') (hpost : post () d') :
    Runs (Edit.apply f) d post :=
  .of_ok (Edit.apply_of_eq_ok h) hpost

end LiveMarkup
