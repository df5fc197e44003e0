import LiveMarkup.Scope

/-! What a dotted path means under a scope. A path that goes on from another one is walked on from
the value of that one. Of all frames only the innermost one that binds the first segment counts: it
hides the frames around it and the model, whatever it binds the segment to. -/
namespace LiveMarkup

namespace Scope

variable {scope : Scope} {name : String}

theorem find?_eq_none_iff :
    scope.find? name = none ↔ ∀ frame ∈ scope.frames, name ∉ Entries.keys frame := by
  simp only [find?, List.findSome?_eq_none_iff, Entries.get?_eq_none_iff]

theorem isSome_find?_iff :
    (scope.find? name).isSome = true ↔ ∃ frame ∈ scope.frames, name ∈ Entries.keys frame := by
  have hkeys (frame : Frame) :
      (Entries.get? name frame).isSome = true ↔ name ∈ Entries.keys frame := by
    rw [← Option.ne_none_iff_isSome, Ne, Entries.get?_eq_none_iff, Decidable.not_not]
  simp only [find?, List.findSome?_isSome_iff, hkeys]

/-- What the innermost frame that binds a name binds it to. -/
theorem find?_of_innermost {inner outer : List Frame} {frame : Frame} {v : Value}
    (hframes : scope.frames = inner ++ frame :: outer)
    (hinner : ∀ f ∈ inner, name ∉ Entries.keys f) (hv : Entries.get? name frame = some v) :
    scope.find? name = some v := by
  have hnone : inner.findSome? (Entries.get? name) = none :=
    List.findSome?_eq_none_iff.2 fun f hf => (Entries.get?_eq_none_iff name f).2 (hinner f hf)
  rw [find?, hframes, List.findSome?_append, hnone, Option.none_or, List.findSome?_cons, hv]

end Scope

namespace Path

variable {model : Value} {scope : Scope} {path first : String} {keys rest : List String}

/-- Along keys of which none is empty a walk takes one step for each. -/
theorem walk_eq_foldlM (hkeys : "" ∉ keys) (v : Value) :
    walk keys v = keys.foldlM (fun v key => v.child? key) v := by
  induction keys generalizing v with
  | nil => rfl
  | cons key rest ih =>
    rw [List.mem_cons, not_or] at hkeys
    rw [walk, if_neg (Ne.symm hkeys.1), List.foldlM_cons]
    exact congrArg _ (funext fun w => ih hkeys.2 w)

theorem walk_eq_none (hkeys : "" ∈ keys) (v : Value) : walk keys v = none := by
  induction keys generalizing v with
  | nil => cases hkeys
  | cons key rest ih =>
    rw [walk]
    split
    · rfl
    · next hkey =>
      have hrest : "" ∈ rest := (List.mem_cons.1 hkeys).resolve_left (Ne.symm hkey)
      cases v.child? key with
      | none => rfl
      | some w => exact ih hrest w

theorem resolve_of_segments (hpath : Text.segments path = first :: rest) (model : Value)
    (scope : Scope) : resolve path model scope =
      if first = "" then none else (start? first model scope).bind (walk rest) := by
  rw [resolve, hpath]

/-- The rest of a path is walked from the value of its beginning. -/
theorem resolve_append_point (p q : String) (model : Value) (scope : Scope) :
    resolve (p ++ "." ++ q) model scope =
      (resolve p model scope).bind (walk (Text.segments q)) := by
  obtain ⟨first, rest, hp⟩ := List.exists_cons_of_ne_nil (Text.segments_ne_nil p)
  have hpq : Text.segments (p ++ "." ++ q) = first :: (rest ++ Text.segments q) := by
    rw [Text.segments_append_point, hp, List.cons_append]
  rw [resolve_of_segments hp, resolve_of_segments hpq]
  split
  · rfl
  · rw [Option.bind_assoc]
    exact congrArg _ (funext fun v => walk_append rest _ v)

theorem resolve_eq_none (hpath : "" ∈ Text.segments path) (model : Value) (scope : Scope) :
    resolve path model scope = none := by
  obtain ⟨first, rest, hsegments⟩ := List.exists_cons_of_ne_nil (Text.segments_ne_nil path)
  rw [resolve_of_segments hsegments]
  split
  · rfl
  · next hfirst =>
    rw [hsegments] at hpath
    have hrest : "" ∈ rest := (List.mem_cons.1 hpath).resolve_left (Ne.symm hfirst)
    cases start? first model scope with
    | none => rfl
    | some v => exact walk_eq_none hrest v

/-- A path depends on the scope and the model only in where its first segment leads. -/
theorem resolve_congr {model' : Value} {scope' : Scope}
    (hpath : (Text.segments path).head? = some first)
    (h : start? first model scope = start? first model' scope') :
    resolve path model scope = resolve path model' scope' := by
  obtain ⟨rest, hsegments⟩ := List.head?_eq_some_iff.1 hpath
  rw [resolve_of_segments hsegments, resolve_of_segments hsegments, h]

theorem start?_of_find?_eq_some {v : Value} (h : scope.find? first = some v) (model : Value) :
    start? first model scope = some v := by
  rw [start?, h]

/-- Paths compose, and scopes shadow. A path that goes on from another one has no value if a segment
of either is empty; else its value is come to key by key from the value of the other one. Where a
frame binds the first segment of a path, the model does not matter, not even if the binding is null
or the rest of the path leads nowhere; where none does, the scope does not matter. Of several frames
that bind it the innermost one counts, as if its binding were the only one. -/
theorem resolve_composes_and_shadows (p q : String) (model : Value) (scope : Scope) :
    ("" ∈ Text.segments p ∨ "" ∈ Text.segments q →
      resolve (p ++ "." ++ q) model scope = none) ∧
    ("" ∉ Text.segments q → resolve (p ++ "." ++ q) model scope =
      (resolve p model scope).bind
        ((Text.segments q).foldlM fun v key => v.child? key)) ∧
    ∀ first, (Text.segments p).head? = some first →
      ((∃ frame ∈ scope.frames, first ∈ Entries.keys frame) →
        ∀ model', resolve p model' scope = resolve p model scope) ∧
      ((∀ frame ∈ scope.frames, first ∉ Entries.keys frame) →
        resolve p model scope = resolve p model .empty) ∧
      ∀ inner frame outer v, scope.frames = inner ++ frame :: outer →
        (∀ f ∈ inner, first ∉ Entries.keys f) → Entries.get? first frame = some v →
        resolve p model scope = resolve p model (Scope.empty.bind first v) := by
  refine ⟨fun hempty => ?_, fun hq => ?_, fun first hfirst => ⟨fun hbound model' => ?_,
    fun hfree => ?_, fun inner frame outer v hframes hinner hv => ?_⟩⟩
  · refine resolve_eq_none ?_ model scope
    rwa [Text.segments_append_point, List.mem_append]
  · rw [resolve_append_point]
    exact congrArg _ (funext (walk_eq_foldlM hq))
  · obtain ⟨v, hv⟩ := Option.isSome_iff_exists.1 (Scope.isSome_find?_iff.2 hbound)
    refine resolve_congr hfirst ?_
    rw [start?_of_find?_eq_some hv, start?_of_find?_eq_some hv]
  · refine resolve_congr hfirst ?_
    rw [start?, start?, Scope.find?_eq_none_iff.2 hfree, Scope.find?_empty]
  · have hbound : (Scope.empty.bind first v).find? first = some v := by
      rw [Scope.find?_bind, if_pos rfl]
    refine resolve_congr hfirst ?_
    rw [start?_of_find?_eq_some (Scope.find?_of_innermost hframes hinner hv),
      start?_of_find?_eq_some hbound]

/-- A name that is bound to null hides what the frame around and the model have under it. -/
theorem resolve_composes_and_shadows_null :
    let model := Value.map [("a", .map [("b", .list [.bool true])])]
    let outer : Frame := [("a", .map [("b", .bool false)])]
    let scope : Scope := ⟨[("i", .null)], [[("a", .null)], outer]⟩
    resolve "a.b" model .empty = some (.list [.bool true]) ∧
      resolve "a.b.0" model .empty = some (.bool true) ∧ resolve "a..b" model .empty = none ∧
      resolve "a" model scope = some .null ∧ resolve "a.b" model scope = none ∧
      resolve "i.b" (.map []) scope = resolve "i.b" model scope := by
  intro model outer scope
  have hab : Text.segments "a.b" = ["a", "b"] := by decide +kernel
  have hb : Text.segments "b" = ["b"] := by decide +kernel
  have hmodel : resolve "a.b" model .empty = some (.list [.bool true]) := by
    rw [resolve_of_segments hab]
    rfl
  obtain ⟨-, hstep, -⟩ := resolve_composes_and_shadows "a.b" "0" model .empty
  obtain ⟨hnone, -, -⟩ := resolve_composes_and_shadows "a" ".b" model .empty
  obtain ⟨-, hscope, hshadow⟩ := resolve_composes_and_shadows "a" "b" model scope
  obtain ⟨-, -, hinner⟩ := hshadow "a" (by decide +kernel)
  obtain ⟨-, -, hmodels⟩ := resolve_composes_and_shadows "i.b" "" model scope
  have ha : resolve "a" model scope = some .null := by
    rw [hinner [[("i", .null)]] [("a", .null)] [outer] .null rfl (by decide) rfl]
    rfl
  refine ⟨hmodel, ?_, hnone (Or.inr (by decide +kernel)), ha, ?_, ?_⟩
  · refine (hstep (by decide +kernel)).trans ?_
    rw [hmodel]
    rfl
  · refine (hscope (by decide +kernel)).trans ?_
    rw [ha, hb]
    rfl
  · exact (hmodels "i" (by decide +kernel)).1 ⟨_, List.mem_cons_self, by decide⟩ (.map [])

end Path
end LiveMarkup
