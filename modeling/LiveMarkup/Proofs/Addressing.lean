import LiveMarkup.Scope
import LiveMarkup.Proofs.Apart
import LiveMarkup.Script

/-! Places in a model by their dotted paths. Templates walk a path from the model on, handles follow
it one typed step at a time, and a script cuts it into a container and an entry; where no segment
is empty, all three come to the same place. -/
namespace LiveMarkup

namespace Handle

variable {key key' : String} {step step' : PathStep} {v new : Value}

/-- A child is what the step for its key leads to. -/
theorem child?_eq (key : String) (v : Value) :
    v.child? key = (step? key v).bind fun step => step.from? v := by
  cases v with
  | list items =>
    rw [Value.child?, step?]
    cases Text.index? key <;> rfl
  | _ => rfl

/-- The steps for two keys of one container differ. -/
theorem step?_injective (h : step? key v = some step) (h' : step? key' v = some step) :
    key = key' := by
  cases v with
  | map entries =>
    cases h
    cases h'
    rfl
  | list items =>
    simp only [step?, Option.map_eq_some_iff] at h h'
    obtain ⟨n, hn, rfl⟩ := h
    obtain ⟨n', hn', heq⟩ := h'
    obtain rfl := PathStep.index.inj heq
    rw [Text.eq_decimalString_of_index? hn, Text.eq_decimalString_of_index? hn']
  | _ => cases h

/-- What is put into a container does not change the steps for its keys. -/
theorem step?_put (key : String) (step : PathStep) (new v : Value) :
    step? key (step.put new v) = step? key v := by
  cases step <;> cases v <;> rfl

end Handle

namespace Value

open Handle

variable {key key' : String} {step : PathStep} {v w new : Value}

theorem child?_put (hstep : step? key v = some step) (hw : step.from? v = some w) :
    (step.put new v).child? key = some new := by
  rw [child?_eq, step?_put, hstep]
  exact PathStep.from?_put hw

theorem child?_put_of_ne (hstep : step? key v = some step) (hne : key ≠ key') :
    (step.put new v).child? key' = v.child? key' := by
  rw [child?_eq, child?_eq, step?_put]
  cases hstep' : step? key' v with
  | none => rfl
  | some step' =>
    refine PathStep.from?_put_of_ne fun heq => hne (step?_injective hstep ?_)
    rw [heq, hstep']

end Value

namespace Handle

variable {h h' : Handle} {model v new old : Value} {keys others : List String}
  {steps : List PathStep}

/-- The steps along which keys lead from a value inwards. -/
inductive Leads : Value → List String → List PathStep → Prop where
  | nil (v : Value) : Leads v [] []
  | cons {key : String} {step : PathStep} {v w : Value} {keys : List String}
      {steps : List PathStep} (hstep : step? key v = some step) (hw : step.from? v = some w)
      (rest : Leads w keys steps) : Leads v (key :: keys) (step :: steps)

theorem locate?_concat (h : Handle) (step : PathStep) (model : Value) :
    Handle.locate? ⟨h.steps ++ [step]⟩ model = (h.locate? model).bind fun v => step.from? v := by
  simp [locate?, List.foldlM_append]

theorem get?_eq (hv : h.locate? model = some v) (key : String) :
    h.get? model key = (step? key v).bind fun step => (step.from? v).map fun w =>
      if w.isContainer then .nested ⟨h.steps ++ [step]⟩ else .scalar w := by
  simp only [get?, hv, Option.bind_eq_bind, Option.bind_some]
  cases step? key v with
  | none => rfl
  | some step => cases hw : step.from? v <;> simp [hw]

/-- Keys that are followed lead along the steps by which the handle gets longer. -/
theorem exists_leads_of_follow (hv : h.locate? model = some v)
    (hfollow : follow model keys h = some h') :
    ∃ steps, h'.steps = h.steps ++ steps ∧ Leads v keys steps := by
  induction keys generalizing h v with
  | nil =>
    cases hfollow
    exact ⟨[], (List.append_nil _).symm, .nil v⟩
  | cons key rest ih =>
    rw [follow, get?_eq hv] at hfollow
    cases hstep : step? key v with
    | none => simp [hstep] at hfollow
    | some step =>
      cases hw : step.from? v with
      | none => simp [hstep, hw] at hfollow
      | some w =>
        cases hcontainer : w.isContainer with
        | false => simp [hstep, hw, hcontainer] at hfollow
        | true =>
          simp only [hstep, hw, hcontainer, Option.bind_some, Option.map_some, if_true] at hfollow
          obtain ⟨steps, hsteps, hleads⟩ := ih (by rw [locate?_concat, hv]; exact hw) hfollow
          exact ⟨step :: steps, by simp [hsteps], .cons hstep hw hleads⟩

/-- Keys are followed as far as they are walked along, if that ends at a container. -/
theorem map_locate?_follow (hv : h.locate? model = some v) (hkeys : "" ∉ keys)
    (hstart : keys = [] → v.isContainer = true) :
    (follow model keys h).map (fun h => h.locate? model) =
      ((Path.walk keys v).filter Value.isContainer).map some := by
  induction keys generalizing h v with
  | nil => simp [follow, Path.walk, hv, Option.filter, hstart rfl]
  | cons key rest ih =>
    rw [List.mem_cons, not_or] at hkeys
    rw [follow, get?_eq hv, Path.walk, if_neg (Ne.symm hkeys.1), child?_eq]
    cases hstep : step? key v with
    | none => rfl
    | some step =>
      cases hw : step.from? v with
      | none => simp [hw]
      | some w =>
        have hlocate : Handle.locate? ⟨h.steps ++ [step]⟩ model = some w := by
          rw [locate?_concat, hv]
          exact hw
        cases hcontainer : w.isContainer with
        | true =>
          simp only [hw, hcontainer, Option.bind_some, Option.map_some, if_true]
          exact ih hlocate hkeys.2 fun _ => hcontainer
        | false =>
          cases rest with
          | nil => simp [hw, hcontainer, Path.walk, Option.filter]
          | cons next rest =>
            have hchild := Value.child?_eq_none_of_not_isContainer hcontainer next
            simp [hw, hcontainer, Path.walk, hchild]

namespace Leads

/-- The keys and the steps lead to the same value. -/
theorem walk_eq (hleads : Leads v keys steps) (hkeys : "" ∉ keys) :
    Path.walk keys v = Handle.locate? ⟨steps⟩ v := by
  induction hleads with
  | nil v => rfl
  | cons hstep hw _ ih =>
    rw [List.mem_cons, not_or] at hkeys
    rw [Path.walk, if_neg (Ne.symm hkeys.1), child?_eq, hstep, Option.bind_some, hw,
      Option.bind_some, ih hkeys.2, locate?, locate?, List.foldlM_cons, hw]
    rfl

/-- What is put at the end of the steps is found along the keys. -/
theorem walk_putAt (hleads : Leads v keys steps) (hkeys : "" ∉ keys) (new : Value) :
    Path.walk keys (putAt new steps v) = some new := by
  induction hleads with
  | nil v => rfl
  | cons hstep hw _ ih =>
    rw [List.mem_cons, not_or] at hkeys
    rw [Path.walk, if_neg (Ne.symm hkeys.1), putAt, hw, Value.child?_put hstep hw]
    exact ih hkeys.2

/-- Along other keys everything is as it was. -/
theorem walk_putAt_of_apart (hleads : Leads v keys steps) (hkeys : ¬ keys <+: others)
    (hothers : ¬ others <+: keys) (new : Value) :
    Path.walk others (putAt new steps v) = Path.walk others v := by
  induction hleads generalizing others with
  | nil v => exact absurd List.nil_prefix hkeys
  | @cons key step v w keys steps hstep hw _ ih =>
    cases others with
    | nil => exact absurd List.nil_prefix hothers
    | cons key' others =>
      rw [List.cons_prefix_cons] at hkeys hothers
      rw [Path.walk, Path.walk, putAt, hw]
      by_cases hkey : key = key'
      · subst hkey
        rw [Value.child?_put hstep hw, child?_eq, hstep, Option.bind_some, Option.bind_some, hw,
          Option.bind_some, ih (fun h => hkeys ⟨rfl, h⟩) (fun h => hothers ⟨rfl, h⟩)]
      · rw [Value.child?_put_of_ne hstep hkey]

end Leads
end Handle

namespace Path

theorem resolve_empty (path : String) (model : Value) :
    resolve path model .empty = walk (Text.segments path) model := by
  rw [resolve]
  cases hsegments : Text.segments path with
  | nil => exact absurd hsegments (Text.segments_ne_nil path)
  | cons first rest => rfl

end Path

/-- The last of some segments, none of which is empty, is written to in the container of the ones
before. -/
theorem ScriptStep.ofFields?_set {path : String} {container : List String} {key : String}
    (hpath : Text.segments path = container ++ [key]) (value : Value) :
    ofFields? "set" ⟨some path, some value, none⟩ =
      some ⟨Text.joinDots container, .set key value⟩ := by
  simp [ofFields?, Text.splitEntry_eq hpath]

/-- The handle of a container is come to along its keys. -/
theorem ScriptStep.handle?_eq {container : List String} {w : Write} {model : Value}
    (hempty : "" ∉ container) (hpoint : ∀ key ∈ container, '.' ∉ key.toList) :
    handle? ⟨Text.joinDots container, w⟩ model = Handle.follow model container .root := by
  rw [handle?]
  cases container with
  | nil => rfl
  | cons key rest =>
    have hsegments : Text.segments (Text.joinDots (key :: rest)) = key :: rest :=
      Text.segments_joinDots (List.cons_ne_nil _ _) hpoint
    have hne : Text.joinDots (key :: rest) ≠ "" := by
      intro hjoin
      have hnil : Text.segments "" = [""] := rfl
      rw [hjoin, hnil] at hsegments
      exact hempty (hsegments ▸ List.mem_singleton_self "")
    rw [if_neg hne, Handle.nested?, hsegments]

/-- Items other than the one at a key's index are found under other keys. -/
theorem Value.child?_list_congr {items items' : List Value} {i : Nat} {key : String}
    (h : ∀ j ≠ i, items'[j]? = items[j]?) (hne : Text.decimalString i ≠ key) :
    (list items').child? key = (list items).child? key := by
  rw [child?, child?]
  cases hj : Text.index? key with
  | none => rfl
  | some j =>
    refine h j ?_
    rintro rfl
    exact hne (Text.eq_decimalString_of_index? hj).symm

theorem Value.child?_map_put (key : String) (value : Value) (entries : List (String × Value)) :
    (map (Entries.put key value entries)).child? key = some value ∧
      ∀ key', key ≠ key' →
        (map (Entries.put key value entries)).child? key' = (map entries).child? key' :=
  ⟨(Entries.get?_put ..).trans (if_pos rfl),
    fun _ hne => (Entries.get?_put ..).trans (if_neg hne)⟩

/-- A key that was set holds its value, and other keys hold what they held. -/
theorem Write.Makes.child?_of_set {key : String} {value target new : Value} {outcome : Outcome}
    (h : (Write.set key value).Makes target new outcome) :
    new.child? key = some value ∧ ∀ key', key ≠ key' → new.child? key' = target.child? key' := by
  cases h with
  | @setOld _ _ old before after hfirst =>
    have hput : Entries.put key value (before ++ (key, old) :: after) = _ :=
      Entries.put_append_cons hfirst
    rw [← hput]
    exact Value.child?_map_put ..
  | setNew hnew =>
    rw [← Entries.put_of_not_mem hnew]
    exact Value.child?_map_put ..
  | setItem hword =>
    refine ⟨?_, fun key' hne => Value.child?_list_congr (fun j hj => ?_) hne⟩
    · rw [Value.child?, Text.index?_decimalString hword]
      simp
    · obtain hlt | hlt := Nat.lt_or_gt_of_ne hj
      · rw [List.getElem?_append_left hlt, List.getElem?_append_left hlt]
      · rw [List.getElem?_append_right (Nat.le_of_lt hlt),
          List.getElem?_append_right (Nat.le_of_lt hlt), List.getElem?_cons, List.getElem?_cons,
          if_neg (Nat.sub_ne_zero_of_lt hlt), if_neg (Nat.sub_ne_zero_of_lt hlt)]
  | setEnd hword =>
    refine ⟨?_, fun key' hne => Value.child?_list_congr (fun j hj => ?_) hne⟩
    · rw [Value.child?, Text.index?_decimalString hword]
      simp
    · obtain hlt | hlt := Nat.lt_or_gt_of_ne hj
      · exact List.getElem?_append_left hlt
      · rw [List.getElem?_eq_none (by simp; omega), List.getElem?_eq_none (Nat.le_of_lt hlt)]

namespace Script

/-- A step that succeeds puts what its write makes of the container in the container's place. -/
theorem exists_of_applyStep {step : ScriptStep} {o o' : Observed Follower}
    (hstep : applyStep step o = .ok o') : ∃ h target new outcome,
      step.handle? o.model.value = some h ∧ h.locate? o.model.value = some target ∧
      step.write.Makes target new outcome ∧ o'.model.value = h.put new o.model.value := by
  rw [applyStep] at hstep
  cases hhandle : step.handle? o.model.value with
  | none =>
    rw [hhandle] at hstep
    cases hstep
  | some h =>
    rw [hhandle] at hstep
    dsimp only at hstep
    cases hwrite : o.write h step.write with
    | mk answer o₁ =>
      rw [hwrite] at hstep
      cases answer with
      | error e => cases hstep
      | ok outcome =>
        obtain rfl := Except.ok.inj hstep
        obtain ⟨-, target, new, htarget, hmakes, hmodel⟩ := Observed.write_eq_ok hwrite
        exact ⟨h, target, new, outcome, rfl, htarget, hmakes, hmodel⟩

/-- After a `set` step its path has the value that was set, and paths that neither go on from it nor
end on the way to it have what they had. -/
theorem resolve_of_applyStep_set {path : String} {value : Value} {step : ScriptStep}
    {o o' : Observed Follower} (hpath : "" ∉ Text.segments path)
    (hstep : ScriptStep.ofFields? "set" ⟨some path, some value, none⟩ = some step)
    (hset : applyStep step o = .ok o') :
    Path.resolve path o'.model.value .empty = some value ∧
      ∀ other, ¬ Text.segments path <+: Text.segments other →
        ¬ Text.segments other <+: Text.segments path →
        Path.resolve other o'.model.value .empty = Path.resolve other o.model.value .empty := by
  obtain ⟨container, key, hsegments⟩ : ∃ container key, Text.segments path = container ++ [key] :=
    ⟨_, _, (List.dropLast_concat_getLast (Text.segments_ne_nil path)).symm⟩
  have hpoint : ∀ part ∈ container, '.' ∉ part.toList := by
    intro part hpart
    have hmem : part ∈ Text.segments path := hsegments ▸ List.mem_append_left _ hpart
    exact Text.not_mem_of_mem_segments hmem
  rw [hsegments, List.mem_append, List.mem_singleton, not_or] at hpath
  obtain rfl := Option.some.inj ((ScriptStep.ofFields?_set hsegments value).symm.trans hstep)
  obtain ⟨h, target, new, outcome, hhandle, htarget, hmakes, hmodel⟩ := exists_of_applyStep hset
  rw [ScriptStep.handle?_eq hpath.1 hpoint] at hhandle
  obtain ⟨steps, hsteps, hleads⟩ := Handle.exists_leads_of_follow rfl hhandle
  obtain rfl : h = ⟨steps⟩ := congrArg Handle.mk hsteps
  obtain ⟨hkey, hothers⟩ := hmakes.child?_of_set
  have hwalk := hleads.walk_eq hpath.1
  rw [htarget] at hwalk
  have hwalk' := hleads.walk_putAt hpath.1 new
  simp only [Path.resolve_empty, hmodel, hsegments, Handle.put]
  constructor
  · rw [Path.walk_append, hwalk', Option.bind_some, Path.walk, if_neg (Ne.symm hpath.2), hkey]
    rfl
  · intro other hpast hbefore
    by_cases hinside : container <+: Text.segments other
    · obtain ⟨rest, hrest⟩ := hinside
      rw [← hrest] at hpast hbefore ⊢
      rw [List.prefix_append_right_inj] at hpast hbefore
      rw [Path.walk_append, Path.walk_append, hwalk, hwalk', Option.bind_some, Option.bind_some]
      cases rest with
      | nil => exact absurd List.nil_prefix hbefore
      | cons key' rest =>
        have hne : key ≠ key' := by
          rintro rfl
          exact hpast (List.cons_prefix_cons.2 ⟨rfl, List.nil_prefix⟩)
        rw [Path.walk, Path.walk, hothers key' hne]
    · have houtside : ¬ Text.segments other <+: container := fun h =>
        hbefore (h.trans (List.prefix_append ..))
      exact hleads.walk_putAt_of_apart hinside houtside new

end Script

/-- Handles and scripts find what templates resolve. From the root of a model a path whose segments
are not empty leads to a handle just when it resolves to a container, which is then the value at the
handle's place. Once a `set` step for the path has succeeded, the path resolves to the value that
was set, and another one resolves to what it did, unless one of the two goes on from the other. -/
theorem paths_agree (model : Value) (path : String) (hpath : "" ∉ Text.segments path) :
    ((Handle.root.nested? model path).isSome ↔
      ∃ v, Path.resolve path model .empty = some v ∧ v.isContainer = true) ∧
    (∀ h, Handle.root.nested? model path = some h →
      h.locate? model = Path.resolve path model .empty) ∧
    ∀ value, ∃ step, ScriptStep.ofFields? "set" ⟨some path, some value, none⟩ = some step ∧
      ∀ o o', o.model.value = model → Script.applyStep step o = .ok o' →
        Path.resolve path o'.model.value .empty = some value ∧
        ∀ other, ¬ Text.segments path <+: Text.segments other →
          ¬ Text.segments other <+: Text.segments path →
          Path.resolve other o'.model.value .empty = Path.resolve other model .empty := by
  have hroot : Handle.root.locate? model = some model := rfl
  have hfollow := Handle.map_locate?_follow hroot hpath
    fun hnil => absurd hnil (Text.segments_ne_nil path)
  rw [← Path.resolve_empty] at hfollow
  refine ⟨?_, fun h hnested => ?_, fun value => ?_⟩
  · rw [Handle.nested?, ← Option.isSome_map, hfollow, Option.isSome_map, Option.isSome_iff_exists]
    simp only [Option.filter_eq_some_iff]
  · rw [Handle.nested?] at hnested
    rw [hnested, Option.map_some, eq_comm, Option.map_eq_some_iff] at hfollow
    obtain ⟨v, hv, hlocate⟩ := hfollow
    rw [← hlocate, (Option.filter_eq_some_iff.1 hv).1]
  · have hsegments := (List.dropLast_concat_getLast (Text.segments_ne_nil path)).symm
    refine ⟨_, ScriptStep.ofFields?_set hsegments value, fun o o' hmodel hset => ?_⟩
    rw [← hmodel]
    exact Script.resolve_of_applyStep_set hpath (ScriptStep.ofFields?_set hsegments value) hset

/-- A mapping with a sequence of sequences, where the inner one is written to past its end. -/
theorem paths_agree_in_sequence :
    let model := Value.map [("xs", .list [.list [.null]]), ("0", .bool true)]
    let model' := Value.map [("xs", .list [.list [.null, .bool false]]), ("0", .bool true)]
    "" ∉ Text.segments "xs.0.1" ∧
      ∃ step, ScriptStep.ofFields? "set" ⟨some "xs.0.1", some (.bool false), none⟩ = some step ∧
      ∀ stage, ∃ o', Script.applyStep step (.wrap model Follower.follow ⟨stage, none⟩) = .ok o' ∧
        o'.model.value = model' ∧ Path.resolve "xs.0.1" model' .empty = some (.bool false) ∧
        Path.resolve "xs.0.0" model' .empty = Path.resolve "xs.0.0" model .empty := by
  intro model model'
  have hpath : "" ∉ Text.segments "xs.0.1" := by decide +kernel
  obtain ⟨-, -, hset⟩ := paths_agree model "xs.0.1" hpath
  obtain ⟨step, hstep, hresolve⟩ := hset (.bool false)
  refine ⟨hpath, step, hstep, fun stage => ?_⟩
  have hsegments : Text.segments "xs.0.1" = ["xs", "0"] ++ ["1"] := by decide +kernel
  have hset' := ScriptStep.ofFields?_set hsegments (.bool false)
  obtain rfl := Option.some.inj (hset'.symm.trans hstep)
  let o' : Observed Follower :=
    ⟨⟨model', false⟩, Follower.follow, Follower.follow ⟨model', true⟩ ⟨stage, none⟩⟩
  have happly : Script.applyStep ⟨Text.joinDots ["xs", "0"], .set "1" (.bool false)⟩
      (.wrap model Follower.follow ⟨stage, none⟩) = .ok o' := by
    rw [Script.applyStep, ScriptStep.handle?_eq (by decide) (by decide)]
    rfl
  obtain ⟨hpath', hothers⟩ := hresolve _ o' rfl happly
  exact ⟨o', happly, rfl, hpath', hothers "xs.0.0" (by decide +kernel) (by decide +kernel)⟩

end LiveMarkup
