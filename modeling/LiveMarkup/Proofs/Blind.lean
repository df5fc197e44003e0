import LiveMarkup.Proofs.Composition

/-! Expansion has nothing to do with the cache: it gives the same with any other cache and leaves
the cache that is there. -/
namespace LiveMarkup

variable {α β : Type}

/-- Work that neither looks at the cache nor changes it. -/
def Blind (work : Pass α) : Prop :=
  ∀ (stage : Stage) (cache : Cache), work (stage.withCache cache) =
    match work stage with
    | .ok a t => .ok a (t.withCache cache)
    | .error e t => .error e (t.withCache cache)

namespace Blind

theorem pure (a : α) : Blind (pure a) := fun _ _ => rfl

theorem bind {work : Pass α} {next : α → Pass β} (h : Blind work) (hnext : ∀ a, Blind (next a)) :
    Blind (work >>= next) := by
  intro stage cache
  have hwork := h stage cache
  cases hrun : work stage with
  | ok a t =>
    rw [hrun] at hwork
    rw [bind_eq_of_ok hwork, bind_eq_of_ok hrun]
    exact hnext a t cache
  | error e t =>
    rw [hrun] at hwork
    rw [bind_eq_of_error hwork, bind_eq_of_error hrun]

/-- Work that looks at the stage first, but not at its cache. -/
theorem get {next : Stage → Pass α} (h : ∀ stage, Blind (next stage))
    (hsame : ∀ stage cache, next (stage.withCache cache) = next stage) :
    Blind (get >>= next) := fun stage cache =>
  (congrFun (hsame stage cache) (stage.withCache cache)).trans (h stage stage cache)

theorem edit (change : Edit α) : Blind (Pass.edit change) := fun stage cache => by
  simp only [Pass.edit, Stage.withCache]
  cases change stage.document <;> rfl

theorem apply (f : Document → Except TreeError Document) : Blind (Pass.apply f) := edit _

theorem modifyEngine {f : Engine → Engine}
    (h : ∀ engine cache, f { engine with cache := cache } = { f engine with cache := cache }) :
    Blind (Pass.modifyEngine f) := fun stage cache =>
  congrArg (fun engine => EStateM.Result.ok () (Stage.mk engine stage.document))
    (h stage.engine cache)

theorem inner {work : Pass α} (h : Blind work) : Blind (Pass.inner work) := fun stage cache => by
  have hwork := h { stage with engine.depth := stage.engine.depth + 1 } cache
  rw [Pass.inner, Pass.inner]
  dsimp only [Stage.withCache] at hwork ⊢
  rw [hwork]
  cases work { stage with engine.depth := stage.engine.depth + 1 } <;> rfl

/-- No edit has to do with the cache, whatever it makes. -/
theorem closed : Pass.Closed (fun _ => True) Blind where
  good_of_mem _ _ := trivial
  pure := pure
  bind := bind
  look := get
  createElement _ := edit _
  setDirectText _ _ := edit _
  setNote _ _ _ := apply _
  setAttribute _ _ _ := apply _
  fill _ _ _ := edit _
  append _ _ := apply _
  insertBefore _ _ _ := apply _
  remove _ := apply _

theorem pervasive : Pass.Pervasive Blind where
  toClosed := closed
  inner := inner
  register _ _ := modifyEngine fun _ _ => rfl

end Blind

theorem Pass.blind_expand (t : Template) (model : Value) (scope : Scope) :
    Blind (Pass.expand t model scope) :=
  Blind.pervasive.expandPass t model scope

end LiveMarkup
