import Mathlib.Order.Defs.Unbundled
import LiveMarkup.Proofs.Runs

/-! Where work leads from a state, whether it succeeds or fails halfway. A relation that every step
keeps to is kept by the whole. -/
namespace LiveMarkup

variable {σ α β : Type} {R : σ → σ → Prop} {s t : σ}

/-- The work leads to related states only, also where it fails, and gives results as described. -/
def Moves (R : σ → σ → Prop) (work : EStateM TreeError σ α) (s : σ) (post : α → σ → Prop) : Prop :=
  match work s with
  | .ok a t => R s t ∧ post a t
  | .error _ t => R s t

namespace Moves

variable {work : EStateM TreeError σ α} {next : α → EStateM TreeError σ β} {post : α → σ → Prop}

theorem of_ok {a : α} (h : work s = .ok a t) (hR : R s t) (hpost : post a t) :
    Moves R work s post := by
  rw [Moves, h]
  exact ⟨hR, hpost⟩

theorem of_error {e : TreeError} (h : work s = .error e t) (hR : R s t) :
    Moves R work s post := by
  rw [Moves, h]
  exact hR

theorem mono {R' : σ → σ → Prop} {post' : α → σ → Prop} (h : Moves R work s post)
    (hR : ∀ t, R s t → R' s t) (hpost : ∀ a t, post a t → post' a t) : Moves R' work s post' := by
  rw [Moves] at h ⊢
  split at h
  · exact ⟨hR _ h.1, hpost _ _ h.2⟩
  · exact hR _ h

/-- What holds where the work leads to may be added to what is told of it. -/
theorem also {post' : α → σ → Prop} (h : Moves R work s post)
    (hpost : ∀ a t, R s t → post a t → post' a t) : Moves R work s post' := by
  rw [Moves] at h ⊢
  split at h
  · exact ⟨h.1, hpost _ _ h.1 h.2⟩
  · exact h

theorem and {R' : σ → σ → Prop} {post' : α → σ → Prop} (h : Moves R work s post)
    (h' : Moves R' work s post') :
    Moves (fun s t => R s t ∧ R' s t) work s fun a t => post a t ∧ post' a t := by
  rw [Moves] at h h' ⊢
  split at h
  · next hwork =>
    rw [hwork] at h'
    exact ⟨⟨h.1, h'.1⟩, h.2, h'.2⟩
  · next hwork =>
    rw [hwork] at h'
    exact ⟨h, h'⟩

/-- What is told of work holds where it succeeds. -/
theorem of_run {a : α} (h : Moves R work s post) (hrun : work s = .ok a t) : R s t ∧ post a t := by
  rwa [Moves, hrun] at h

theorem of_failure {e : TreeError} (h : Moves R work s post) (hrun : work s = .error e t) :
    R s t := by
  rwa [Moves, hrun] at h

/-- Only what the work does at the state counts. -/
theorem congr {work' : EStateM TreeError σ α} (h : work s = work' s) (h' : Moves R work' s post) :
    Moves R work s post := by
  rwa [Moves, h]

theorem pure [Std.Refl R] {a : α} (h : post a s) : Moves R (pure a) s post :=
  ⟨Std.Refl.refl s, h⟩

/-- Work in two parts, each of which keeps to a relation of its own. -/
theorem seq {R' Q : σ → σ → Prop} {post' : β → σ → Prop} (h : Moves R' work s post)
    (hnext : ∀ a t, R' s t → post a t → Moves Q (next a) t post')
    (hstop : ∀ t, R' s t → R s t) (hall : ∀ t u, R' s t → Q t u → R s u) :
    Moves R (work >>= next) s post' := by
  rw [Moves] at h
  split at h
  · next a t hwork =>
    have hstep := hnext a t h.1 h.2
    rw [Moves] at hstep ⊢
    rw [bind_eq_of_ok hwork]
    split at hstep
    · exact ⟨hall _ _ h.1 hstep.1, hstep.2⟩
    · exact hall _ _ h.1 hstep
  · next e t hwork => exact of_error (bind_eq_of_error hwork) (hstop t h)

theorem bind [IsTrans σ R] {post' : β → σ → Prop} (h : Moves R work s post)
    (hnext : ∀ a t, R s t → post a t → Moves R (next a) t post') :
    Moves R (work >>= next) s post' :=
  h.seq hnext (fun _ => id) fun _ _ => IsTrans.trans _ _ _

/-- Work that does what other work does further on. -/
theorem later [IsTrans σ R] {work' : EStateM TreeError σ α} (h : work s = work' t) (hR : R s t)
    (h' : Moves R work' t post) : Moves R work s post := by
  rw [Moves] at h' ⊢
  rw [h]
  split at h'
  · exact ⟨IsTrans.trans _ _ _ hR h'.1, h'.2⟩
  · exact IsTrans.trans _ _ _ hR h'

/-- What comes second may depend on how the first part came out. -/
theorem bind_run [IsTrans σ R] {post' : β → σ → Prop} (h : Moves R work s post)
    (hnext : ∀ a t, work s = .ok a t → post a t → Moves R (next a) t post') :
    Moves R (work >>= next) s post' := by
  rw [Moves] at h
  split at h
  · next a t hwork => exact later (bind_eq_of_ok hwork) h.1 (hnext a t hwork h.2)
  · next e t hwork => exact of_error (bind_eq_of_error hwork) h

/-- Work that looks at the state first. -/
theorem get {next : σ → EStateM TreeError σ β} {post : β → σ → Prop} (h : Moves R (next s) s post) :
    Moves R (get >>= next) s post := h

/-- A loop. -/
theorem forM [Std.Refl R] [IsTrans σ R] {l : List α} {step : α → EStateM TreeError σ PUnit}
    (h : ∀ a ∈ l, ∀ t, R s t → Moves R (step a) t fun _ _ => True) :
    Moves R (l.forM step) s fun _ _ => True := by
  induction l generalizing s with
  | nil => exact pure trivial
  | cons a l ih =>
    refine (h a (List.mem_cons_self ..) s (Std.Refl.refl s)).bind fun _ t hst _ => ?_
    exact ih fun b hb u htu => h b (List.mem_cons_of_mem _ hb) u (IsTrans.trans _ _ _ hst htu)

end Moves

namespace Edit

variable {R : Document → Document → Prop} {d : Document}

theorem moves_apply_of [Std.Refl R] {f : Document → Except TreeError Document}
    {post : Unit → Document → Prop} (h : ∀ d', f d = .ok d' → R d d' ∧ post () d') :
    Moves R (Edit.apply f) d post := by
  rw [Moves, Edit.apply]
  cases hf : f d with
  | ok d' => exact h d' hf
  | error e => exact Std.Refl.refl d

theorem moves_apply [Std.Refl R] {f : Document → Except TreeError Document}
    (h : ∀ d', f d = .ok d' → R d d') : Moves R (Edit.apply f) d fun _ _ => True :=
  moves_apply_of fun d' hf => ⟨h d' hf, trivial⟩

theorem moves_create [Std.Refl R] {f : Document → Except TreeError (NodeId × Document)}
    (h : ∀ id d', f d = .ok (id, d') → R d d') :
    Moves R (Edit.create f) d fun id d' => f d = .ok (id, d') := by
  rw [Moves, Edit.create]
  cases hf : f d with
  | ok r => exact ⟨h r.1 r.2 hf, rfl⟩
  | error e => exact Std.Refl.refl d

end Edit

end LiveMarkup
