import LiveMarkup.Observed

/-! What writes do. Each kind of write makes one thing of a mapping, of a sequence and of any other
value, or fails for one reason; through a handle it makes that of the value at the handle's place
and leaves the rest of the model. Writing in place does what is said here, and where it fails it
leaves everything as it was. -/
namespace LiveMarkup

namespace PathStep

variable {step step' : PathStep} {v old new : Value}

/-- A container with another value one step inside. -/
def put (step : PathStep) (new : Value) : Value → Value
  | .map entries => match step with
    | key name => .map (Entries.put name new entries)
    | index _ => .map entries
  | .list items => match step with
    | key _ => .list items
    | index n => .list (items.set n new)
  | v => v

/-- A step leads somewhere only in the kind of container that it was made for. -/
theorem exists_of_from?_eq_some (h : step.from? v = some old) :
    (∃ name entries, step = key name ∧ v = .map entries ∧ name ∈ Entries.keys entries) ∨
    ∃ n items, step = index n ∧ v = .list items := by
  cases step with
  | key name =>
    cases v with
    | map entries =>
      have hmem : name ∈ Entries.keys entries := Decidable.of_not_not fun hmem =>
        Option.some_ne_none old (h.symm.trans ((Entries.get?_eq_none_iff ..).2 hmem))
      exact Or.inl ⟨name, entries, rfl, rfl, hmem⟩
    | _ => cases h
  | index n =>
    cases v with
    | list items => exact Or.inr ⟨n, items, rfl, rfl⟩
    | _ => cases h

theorem from?_put (h : step.from? v = some old) : step.from? (step.put new v) = some new := by
  obtain ⟨name, entries, rfl, rfl, -⟩ | ⟨n, items, rfl, rfl⟩ := exists_of_from?_eq_some h
  · exact (Entries.get?_put ..).trans (if_pos rfl)
  · obtain ⟨hn, -⟩ := List.getElem?_eq_some_iff.1 h
    exact List.getElem?_set_self hn

theorem from?_put_of_ne (h : step ≠ step') : step'.from? (step.put new v) = step'.from? v := by
  cases step with
  | key name =>
    cases v with
    | map entries =>
      cases step' with
      | key name' =>
        exact (Entries.get?_put ..).trans (if_neg fun hname => h (congrArg key hname))
      | index n => rfl
    | _ => rfl
  | index n =>
    cases v with
    | list items =>
      cases step' with
      | key name => rfl
      | index n' => exact List.getElem?_set_ne fun hn => h (congrArg index hn)
    | _ => rfl

/-- Putting what is there already changes nothing. -/
theorem put_of_from?_eq_some (h : step.from? v = some old) : step.put old v = v := by
  obtain ⟨name, entries, rfl, rfl, -⟩ | ⟨n, items, rfl, rfl⟩ := exists_of_from?_eq_some h
  · exact congrArg Value.map (Entries.put_of_get?_eq_some h)
  · obtain ⟨hn, hitem⟩ := List.getElem?_eq_some_iff.1 h
    rw [put, ← hitem, List.set_getElem_self]

end PathStep

namespace Handle

variable {h other : Handle} {model new old : Value}

/-- A value with another one at the end of some steps; where they lead nowhere, it stays. -/
def putAt (new : Value) : List PathStep → Value → Value
  | [], _ => new
  | step :: rest, v => match step.from? v with
    | some inner => step.put (putAt new rest inner) v
    | none => v

/-- A model with another value at a handle's place. -/
def put (h : Handle) (new model : Value) : Value := putAt new h.steps model

/-- Neither of two places is inside of the other. -/
def Apart (h other : Handle) : Prop := ¬ h.steps <+: other.steps ∧ ¬ other.steps <+: h.steps

/-- What was put at a place is there. -/
theorem locate?_put (hold : h.locate? model = some old) :
    h.locate? (h.put new model) = some new := by
  obtain ⟨steps⟩ := h
  simp only [locate?, put] at hold ⊢
  induction steps generalizing model with
  | nil => rfl
  | cons step rest ih =>
    rw [List.foldlM_cons, Option.bind_eq_bind, Option.bind_eq_some_iff] at hold
    obtain ⟨v, hv, hold⟩ := hold
    rw [putAt, hv, List.foldlM_cons, PathStep.from?_put hv]
    exact ih hold

/-- Nothing has changed at other places. -/
theorem locate?_put_of_apart (happart : h.Apart other) :
    other.locate? (h.put new model) = other.locate? model := by
  obtain ⟨steps⟩ := h
  obtain ⟨others⟩ := other
  simp only [locate?, put, Apart] at happart ⊢
  induction steps generalizing others model with
  | nil => exact absurd List.nil_prefix happart.1
  | cons step rest ih =>
    cases others with
    | nil => exact absurd List.nil_prefix happart.2
    | cons step' rest' =>
      rw [putAt]
      cases hv : step.from? model with
      | none => rfl
      | some v =>
        rw [List.foldlM_cons, List.foldlM_cons]
        by_cases hstep : step = step'
        · subst hstep
          rw [PathStep.from?_put hv, hv]
          rw [List.cons_prefix_cons, List.cons_prefix_cons] at happart
          exact ih rest' ⟨fun h => happart.1 ⟨rfl, h⟩, fun h => happart.2 ⟨rfl, h⟩⟩
        · rw [PathStep.from?_put_of_ne hstep]

/-- Putting what is there already changes nothing. -/
theorem put_of_locate?_eq_some (hold : h.locate? model = some old) : h.put old model = model := by
  obtain ⟨steps⟩ := h
  simp only [locate?, put] at hold ⊢
  induction steps generalizing model with
  | nil => exact (Option.some.inj hold).symm
  | cons step rest ih =>
    rw [List.foldlM_cons, Option.bind_eq_bind, Option.bind_eq_some_iff] at hold
    obtain ⟨v, hv, hold⟩ := hold
    rw [putAt, hv]
    dsimp only
    rw [ih hold, PathStep.put_of_from?_eq_some hv]

theorem put_of_locate?_eq_none (hgone : h.locate? model = none) : h.put new model = model := by
  obtain ⟨steps⟩ := h
  simp only [locate?, put] at hgone ⊢
  induction steps generalizing model with
  | nil => cases hgone
  | cons step rest ih =>
    rw [putAt]
    cases hv : step.from? model with
    | none => rfl
    | some v =>
      rw [List.foldlM_cons, hv] at hgone
      dsimp only
      rw [ih hgone, PathStep.put_of_from?_eq_some hv]

end Handle

namespace Write

/-- What a write makes of a value, and what it gives back. -/
inductive Makes : Write → Value → Value → Outcome → Prop
  /-- A key keeps its place among the others, and they keep their values. -/
  | setOld {key : String} {value old : Value} {before after : List (String × Value)}
    (hfirst : key ∉ Entries.keys before) :
    Makes (set key value) (.map (before ++ (key, old) :: after))
      (.map (before ++ (key, value) :: after)) .done
  | setNew {key : String} {value : Value} {entries : List (String × Value)}
    (hnew : key ∉ Entries.keys entries) :
    Makes (set key value) (.map entries) (.map (entries ++ [(key, value)])) .done
  | setItem {value old : Value} {before after : List Value}
    (hword : before.length < 0x10000000000000000) :
    Makes (set (Text.decimalString before.length) value) (.list (before ++ old :: after))
      (.list (before ++ value :: after)) .done
  | setEnd {value : Value} {items : List Value} (hword : items.length < 0x10000000000000000) :
    Makes (set (Text.decimalString items.length) value) (.list items) (.list (items ++ [value]))
      .done
  | push {value : Value} {items : List Value} :
    Makes (push value) (.list items) (.list (items ++ [value])) .done
  | insert {value : Value} {before after : List Value} :
    Makes (insert before.length value) (.list (before ++ after)) (.list (before ++ value :: after))
      .done
  | removeKey {key : String} {old : Value} {entries left : List (String × Value)}
    (hold : Entries.get? key entries = some old) (hleft : Entries.Without key entries left) :
    Makes (remove key) (.map entries) (.map left) (.old old)
  | removeItem {old : Value} {before after : List Value}
    (hword : before.length < 0x10000000000000000) :
    Makes (remove (Text.decimalString before.length)) (.list (before ++ old :: after))
      (.list (before ++ after)) (.old old)
  | replace {value old : Value} : Makes (replace value) old value (.old old)

/-- Why a write to a value fails; the path is what errors call the value. -/
inductive Fails (path : String) : Write → Value → ModelError → Prop
  | setScalar {key : String} {value v : Value} (hv : v.isContainer = false) :
    Fails path (set key value) v (.notAContainer path)
  | setUnwritten {key : String} {value : Value} {items : List Value}
    (hkey : ∀ i < 0x10000000000000000, key ≠ Text.decimalString i) :
    Fails path (set key value) (.list items) (.invalidIndex key)
  | setBeyond {i : Nat} {value : Value} {items : List Value} (hword : i < 0x10000000000000000)
    (hi : items.length < i) :
    Fails path (set (Text.decimalString i) value) (.list items) (.outOfBounds i items.length)
  | pushElsewhere {value v : Value} (hv : ∀ items, v ≠ .list items) :
    Fails path (push value) v (.notASequence path)
  | insertElsewhere {i : Nat} {value v : Value} (hv : ∀ items, v ≠ .list items) :
    Fails path (insert i value) v (.notASequence path)
  | insertBeyond {i : Nat} {value : Value} {items : List Value} (hi : items.length < i) :
    Fails path (insert i value) (.list items) (.outOfBounds i items.length)
  | removeScalar {key : String} {v : Value} (hv : v.isContainer = false) :
    Fails path (remove key) v (.notAContainer path)
  | removeMissing {key : String} {entries : List (String × Value)}
    (hkey : key ∉ Entries.keys entries) :
    Fails path (remove key) (.map entries) (.missingKey key)
  | removeUnwritten {key : String} {items : List Value}
    (hkey : ∀ i < 0x10000000000000000, key ≠ Text.decimalString i) :
    Fails path (remove key) (.list items) (.invalidIndex key)
  | removeBeyond {i : Nat} {items : List Value} (hword : i < 0x10000000000000000)
    (hi : items.length ≤ i) :
    Fails path (remove (Text.decimalString i)) (.list items) (.outOfBounds i items.length)

variable {w : Write} {path key : String} {value target new v : Value} {items : List Value}
  {entries : List (String × Value)} {outcome : Outcome} {e : ModelError} {i : Nat}

theorem exists_item (hi : i < items.length) : ∃ before old after,
    items = before ++ old :: after ∧ before.length = i :=
  ⟨items.take i, items[i], items.drop (i + 1),
    by rw [List.getElem_cons_drop, List.take_append_drop],
    List.length_take_of_le (Nat.le_of_lt hi)⟩

theorem exists_cut (hi : i ≤ items.length) : ∃ before after,
    items = before ++ after ∧ before.length = i :=
  ⟨items.take i, items.drop i, (List.take_append_drop i items).symm, List.length_take_of_le hi⟩

theorem set_makes_or_fails (path key : String) (value target : Value) :
    (∃ new outcome, (set key value).Makes target new outcome) ∨
      ∃ e, (set key value).Fails path target e := by
  cases target with
  | map entries =>
    by_cases hkey : key ∈ Entries.keys entries
    · obtain ⟨before, old, after, rfl, hfirst⟩ := Entries.exists_first hkey
      exact Or.inl ⟨_, _, .setOld hfirst⟩
    · exact Or.inl ⟨_, _, .setNew hkey⟩
  | list items =>
    by_cases hkey : ∃ i < 0x10000000000000000, key = Text.decimalString i
    · obtain ⟨i, hword, rfl⟩ := hkey
      obtain hi | rfl | hi := Nat.lt_trichotomy i items.length
      · obtain ⟨before, old, after, rfl, rfl⟩ := exists_item hi
        exact Or.inl ⟨_, _, .setItem hword⟩
      · exact Or.inl ⟨_, _, .setEnd hword⟩
      · exact Or.inr ⟨_, .setBeyond hword hi⟩
    · exact Or.inr ⟨_, .setUnwritten fun i hword heq => hkey ⟨i, hword, heq⟩⟩
  | _ => exact Or.inr ⟨_, .setScalar rfl⟩

theorem remove_makes_or_fails (path key : String) (target : Value) :
    (∃ new outcome, (remove key).Makes target new outcome) ∨
      ∃ e, (remove key).Fails path target e := by
  cases target with
  | map entries =>
    cases hold : Entries.get? key entries with
    | some old => exact Or.inl ⟨_, _, .removeKey hold (Entries.without_erase key entries)⟩
    | none => exact Or.inr ⟨_, .removeMissing ((Entries.get?_eq_none_iff ..).1 hold)⟩
  | list items =>
    by_cases hkey : ∃ i < 0x10000000000000000, key = Text.decimalString i
    · obtain ⟨i, hword, rfl⟩ := hkey
      obtain hi | hi := Nat.lt_or_ge i items.length
      · obtain ⟨before, old, after, rfl, rfl⟩ := exists_item hi
        exact Or.inl ⟨_, _, .removeItem hword⟩
      · exact Or.inr ⟨_, .removeBeyond hword hi⟩
    · exact Or.inr ⟨_, .removeUnwritten fun i hword heq => hkey ⟨i, hword, heq⟩⟩
  | _ => exact Or.inr ⟨_, .removeScalar rfl⟩

/-- There is nothing that a write neither makes something of nor fails on. -/
theorem makes_or_fails (w : Write) (path : String) (target : Value) :
    (∃ new outcome, w.Makes target new outcome) ∨ ∃ e, w.Fails path target e := by
  cases w with
  | set key value => exact set_makes_or_fails path key value target
  | remove key => exact remove_makes_or_fails path key target
  | replace value => exact Or.inl ⟨_, _, .replace⟩
  | push value =>
    cases target with
    | list items => exact Or.inl ⟨_, _, .push⟩
    | _ => exact Or.inr ⟨_, .pushElsewhere nofun⟩
  | insert i value =>
    cases target with
    | list items =>
      obtain hi | hi := Nat.lt_or_ge items.length i
      · exact Or.inr ⟨_, .insertBeyond hi⟩
      · obtain ⟨before, after, rfl, rfl⟩ := exists_cut hi
        exact Or.inl ⟨_, _, .insert⟩
    | _ => exact Or.inr ⟨_, .insertElsewhere nofun⟩

/-- Reading a value before writing to it in place. -/
theorem get_bind_apply (f : Value → EStateM ModelError Value Outcome) (v : Value) :
    (get >>= f) v = f v v :=
  rfl

theorem apply_set_map (path key : String) (value : Value) (entries : List (String × Value)) :
    (set key value).apply path (.map entries) = .ok .done (.map (Entries.put key value entries)) :=
  rfl

theorem apply_set_item (path : String) (hword : i < 0x10000000000000000) (value : Value)
    (items : List Value) : (set (Text.decimalString i) value).apply path (.list items) =
      if i < items.length then .ok .done (.list (items.set i value))
      else if i = items.length then .ok .done (.list (items ++ [value]))
      else .error (.outOfBounds i items.length) (.list items) := by
  rw [apply, get_bind_apply]
  dsimp only [index]
  rw [Text.index?_decimalString hword]
  dsimp only
  rw [MonadExcept.ofExcept, pure_bind]
  split
  · rfl
  · split <;> rfl

theorem apply_remove_item (path : String) (hword : i < 0x10000000000000000)
    (items : List Value) : (remove (Text.decimalString i)).apply path (.list items) =
      match items[i]? with
      | none => .error (.outOfBounds i items.length) (.list items)
      | some v => .ok (.old v) (.list (items.eraseIdx i)) := by
  rw [apply, get_bind_apply]
  dsimp only [index]
  rw [Text.index?_decimalString hword]
  dsimp only
  rw [MonadExcept.ofExcept, pure_bind]
  cases items[i]? <;> rfl

theorem index?_eq_none (hkey : ∀ i < 0x10000000000000000, key ≠ Text.decimalString i) :
    Text.index? key = none := by
  refine Option.eq_none_iff_forall_not_mem.2 fun i hi => ?_
  obtain ⟨hword, heq⟩ := Text.index?_eq_some_iff.1 (Option.mem_def.1 hi)
  exact hkey i hword heq

/-- A sequence refuses keys that are not the decimals of an index. -/
theorem apply_unwritten (path : String)
    (hkey : ∀ i < 0x10000000000000000, key ≠ Text.decimalString i) (items : List Value) :
    (∀ value, (set key value).apply path (.list items) =
      .error (.invalidIndex key) (.list items)) ∧
      (remove key).apply path (.list items) = .error (.invalidIndex key) (.list items) := by
  refine ⟨fun value => ?_, ?_⟩
  all_goals
    rw [apply, get_bind_apply]
    dsimp only [index]
    rw [index?_eq_none hkey]
    rfl

theorem apply_remove_map (path key : String) (entries : List (String × Value)) :
    (remove key).apply path (.map entries) = match Entries.get? key entries with
      | none => .error (.missingKey key) (.map entries)
      | some v => .ok (.old v) (.map (Entries.erase key entries)) := by
  rw [apply, get_bind_apply]
  dsimp only
  cases Entries.get? key entries <;> rfl

theorem apply_insert_list (path : String) (i : Nat) (value : Value) (items : List Value) :
    (insert i value).apply path (.list items) =
      if i ≤ items.length then .ok .done (.list (items.take i ++ value :: items.drop i))
      else .error (.outOfBounds i items.length) (.list items) := by
  rw [apply, get_bind_apply]
  dsimp only
  split <;> rfl

/-- Writing in place makes what the write makes. -/
theorem Makes.apply_eq (h : w.Makes target new outcome) (path : String) :
    w.apply path target = .ok outcome new := by
  cases h with
  | setOld hfirst => rw [apply_set_map, Entries.put_append_cons hfirst]
  | setNew hnew => rw [apply_set_map, Entries.put_of_not_mem hnew]
  | @setItem value old before after hword =>
    have hlt : before.length < (before ++ old :: after).length := by simp
    rw [apply_set_item path hword, if_pos hlt, List.set_append_right _ _ (Nat.le_refl _),
      Nat.sub_self, List.set_cons_zero]
  | setEnd hword =>
    rw [apply_set_item path hword, if_neg (Nat.lt_irrefl _), if_pos rfl]
  | push => rfl
  | @insert value before after =>
    have hle : before.length ≤ (before ++ after).length := by simp
    rw [apply_insert_list, if_pos hle, List.take_left, List.drop_left]
  | removeKey hold hleft =>
    rw [apply_remove_map, hold, hleft.eq_erase]
  | @removeItem old before after hword =>
    rw [apply_remove_item path hword, List.getElem?_append_right (Nat.le_refl _), Nat.sub_self,
      List.getElem?_cons_zero]
    dsimp only
    rw [List.eraseIdx_append_of_length_le (Nat.le_refl _), Nat.sub_self, List.eraseIdx_cons_zero]
  | replace => rfl

/-- Writing in place leaves a value as it was where the write fails. -/
theorem Fails.apply_eq (h : w.Fails path target e) : w.apply path target = .error e target := by
  cases h with
  | setScalar hv | removeScalar hv =>
    cases target with
    | list items | map entries => cases hv
    | _ => rfl
  | pushElsewhere hv | insertElsewhere hv =>
    cases target with
    | list items => exact absurd rfl (hv items)
    | _ => rfl
  | setUnwritten hkey => exact (apply_unwritten path hkey _).1 _
  | setBeyond hword hi =>
    rw [apply_set_item path hword, if_neg (Nat.lt_asymm hi), if_neg (Nat.ne_of_gt hi)]
  | insertBeyond hi => rw [apply_insert_list, if_neg (Nat.not_le_of_lt hi)]
  | removeMissing hkey => rw [apply_remove_map, (Entries.get?_eq_none_iff ..).2 hkey]
  | removeUnwritten hkey => exact (apply_unwritten path hkey _).2
  | removeBeyond hword hi =>
    rw [apply_remove_item path hword, List.getElem?_eq_none hi]

/-- What a write through a handle makes of a model: at the place of the handle what it makes of the
value there, and nothing anywhere else. -/
def Updates (w : Write) (h : Handle) (model model' : Value) (outcome : Outcome) : Prop :=
  ∃ target new, h.locate? model = some target ∧ w.Makes target new outcome ∧
    model' = h.put new model

/-- Why a write through a handle fails: its place is gone, or the write fails on the value there. -/
inductive Refused (w : Write) (h : Handle) (model : Value) : ModelError → Prop
  | stale (hgone : h.locate? model = none) : Refused w h model (.stalePath h.path)
  | fails {target : Value} {e : ModelError} (htarget : h.locate? model = some target)
    (hfails : w.Fails h.path target e) : Refused w h model e

variable {h other : Handle} {model model' : Value}

theorem updates_or_refused (w : Write) (h : Handle) (model : Value) :
    (∃ model' outcome, w.Updates h model model' outcome) ∨ ∃ e, w.Refused h model e := by
  cases htarget : h.locate? model with
  | none => exact Or.inr ⟨_, .stale htarget⟩
  | some target =>
    obtain ⟨new, outcome, hmakes⟩ | ⟨e, hfails⟩ := w.makes_or_fails h.path target
    · exact Or.inl ⟨_, outcome, target, new, htarget, hmakes, rfl⟩
    · exact Or.inr ⟨e, .fails htarget hfails⟩

theorem applyAt_cons (path : String) (w : Write) (step : PathStep) (rest : List PathStep)
    (v : Value) : w.applyAt path (step :: rest) v = match step.from? v with
      | none => .error (.stalePath path) v
      | some inner => within (fun new => step.put new v) (w.applyAt path rest inner) := by
  cases step with
  | key name =>
    cases v with
    | map entries =>
      rw [applyAt, PathStep.from?]
      cases Entries.get? name entries <;> rfl
    | _ => rfl
  | index n =>
    cases v with
    | list items =>
      rw [applyAt, PathStep.from?]
      cases items[n]? <;> rfl
    | _ => rfl

/-- Writing along the steps of a handle is writing at its place, and nowhere else. -/
theorem applyAt_eq (w : Write) (h : Handle) (model : Value) :
    w.applyAt h.path h.steps model = match h.locate? model with
      | none => .error (.stalePath h.path) model
      | some target => within (fun new => h.put new model) (w.apply h.path target) := by
  obtain ⟨path, hpath⟩ : ∃ path, path = h.path := ⟨_, rfl⟩
  obtain ⟨steps⟩ := h
  simp only [Handle.locate?, Handle.put, ← hpath]
  clear hpath
  induction steps generalizing model with
  | nil =>
    rw [applyAt, List.foldlM_nil]
    cases happly : w.apply path model <;> simp [within, happly, Handle.putAt]
  | cons step rest ih =>
    rw [applyAt_cons, List.foldlM_cons]
    cases hv : step.from? model with
    | none => rfl
    | some v =>
      rw [Option.bind_eq_bind, Option.bind_some]
      dsimp only
      rw [ih]
      cases rest.foldlM (fun v step => step.from? v) v with
      | none => simp [within, PathStep.put_of_from?_eq_some hv]
      | some target => cases happly : w.apply path target <;> simp [within, happly, Handle.putAt, hv]

theorem Updates.applyAt_eq (hupdates : w.Updates h model model' outcome) :
    w.applyAt h.path h.steps model = .ok outcome model' := by
  obtain ⟨target, new, htarget, hmakes, rfl⟩ := hupdates
  rw [Write.applyAt_eq, htarget]
  dsimp only
  rw [hmakes.apply_eq, within]

/-- A model is as it was after a write that fails. -/
theorem Refused.applyAt_eq (hrefused : w.Refused h model e) :
    w.applyAt h.path h.steps model = .error e model := by
  rw [Write.applyAt_eq]
  cases hrefused with
  | stale hgone => rw [hgone]
  | fails htarget hfails =>
    rw [htarget]
    dsimp only
    rw [hfails.apply_eq, within, Handle.put_of_locate?_eq_some htarget]

end Write

variable {w : Write} {h : Handle} {e : ModelError} {outcome : Outcome} {model' : Value}

/-- A locked model refuses a write, whatever it is. -/
theorem Model.answer_of_locked {m : Model} (hlocked : m.locked = true) (h : Handle) (w : Write) :
    m.answer h w = (.error .reentrant, m) := by
  rw [answer, if_pos hlocked]

theorem Model.answer_of_updates {m : Model} (hunlocked : m.locked = false)
    (hupdates : w.Updates h m.value model' outcome) :
    m.answer h w = (.ok outcome, ⟨model', false⟩) := by
  rw [answer, hunlocked, if_neg Bool.false_ne_true, hupdates.applyAt_eq]

theorem Model.answer_of_refused {m : Model} (hunlocked : m.locked = false)
    (hrefused : w.Refused h m.value e) : m.answer h w = (.error e, m) := by
  rw [answer, hunlocked, if_neg Bool.false_ne_true, hrefused.applyAt_eq, ← hunlocked]

namespace Observed

variable {σ : Type} {o : Observed σ}

theorem write_of_locked (hlocked : o.model.locked = true) (h : Handle) (w : Write) :
    o.write h w = (.error .reentrant, o) := by
  rw [write, Model.answer_of_locked hlocked]

theorem write_of_updates (hunlocked : o.model.locked = false)
    (hupdates : w.Updates h o.model.value model' outcome) : o.write h w = (.ok outcome,
      { o with model := ⟨model', false⟩, state := o.listener ⟨model', true⟩ o.state }) := by
  rw [write, Model.answer_of_updates hunlocked hupdates]
  rfl

theorem write_of_refused (hunlocked : o.model.locked = false)
    (hrefused : w.Refused h o.model.value e) : o.write h w = (.error e, o) := by
  rw [write, Model.answer_of_refused hunlocked hrefused]

/-- A write that succeeds is an update of a model that is not locked. -/
theorem write_eq_ok {o' : Observed σ} (hwrite : o.write h w = (.ok outcome, o')) :
    o.model.locked = false ∧ w.Updates h o.model.value o'.model.value outcome := by
  cases hlocked : o.model.locked with
  | true =>
    rw [write_of_locked hlocked] at hwrite
    cases hwrite
  | false =>
    obtain ⟨model', outcome', hupdates⟩ | ⟨e, hrefused⟩ := w.updates_or_refused h o.model.value
    · rw [write_of_updates hlocked hupdates] at hwrite
      cases hwrite
      exact ⟨rfl, hupdates⟩
    · rw [write_of_refused hlocked hrefused] at hwrite
      cases hwrite

end Observed
end LiveMarkup
