import LiveMarkup.Proofs.Apart

/-! Edits and how to take them back. A second write through the same handle restores the value that
the first one changed, and with it the whole model: what goes into a sequence is removed at its
written index, what is removed is inserted where it was, a new key is removed, and a value that was
replaced is put back. -/
namespace LiveMarkup

variable {σ : Type}

namespace Handle

/-- Of two values put at one place the later one counts. -/
theorem put_put (h : Handle) (a b model : Value) : h.put a (h.put b model) = h.put a model := by
  obtain ⟨steps⟩ := h
  simp only [put]
  induction steps generalizing model with
  | nil => rfl
  | cons step rest ih =>
    cases hv : step.from? model with
    | none => simp only [putAt, hv]
    | some v => simp only [putAt, hv, PathStep.from?_put hv, ih v, PathStep.put_put]

end Handle

namespace Write

/-- Two writes, one after another, make a new value of a value and the old one again. -/
def Cancels (target : Value) (first second : Write × Outcome) : Prop :=
  ∃ new, first.1.Makes target new first.2 ∧ second.1.Makes new target second.2

variable {key : String} {items : List Value} {entries : List (String × Value)} {i : Nat}

theorem insert_remove (hi : i ≤ items.length) (hword : i < 0x10000000000000000) (v : Value) :
    Cancels (.list items) (insert i v, .done) (remove (Text.decimalString i), .old v) := by
  obtain ⟨before, after, rfl, rfl⟩ := exists_cut hi
  exact ⟨_, .insert, .removeItem hword⟩

theorem remove_insert (hi : i < items.length) (hword : i < 0x10000000000000000) :
    Cancels (.list items) (remove (Text.decimalString i), .old items[i])
      (insert i items[i], .done) := by
  obtain ⟨before, old, after, hitems, rfl⟩ := exists_item hi
  have hold : items[before.length] = old := by simp [hitems]
  rw [hold, hitems]
  exact ⟨_, .removeItem hword, .insert⟩

theorem push_remove (hword : items.length < 0x10000000000000000) (v : Value) :
    Cancels (.list items) (push v, .done)
      (remove (Text.decimalString items.length), .old v) := by
  have hremove : (remove (Text.decimalString items.length)).Makes (.list (items ++ [v]))
      (.list (items ++ [])) (.old v) := .removeItem hword
  rw [List.append_nil] at hremove
  exact ⟨_, .push, hremove⟩

theorem set_remove (hkey : key ∉ Entries.keys entries) (v : Value) :
    Cancels (.map entries) (set key v, .done) (remove key, .old v) := by
  refine ⟨_, .setNew hkey, .removeKey ?_ ⟨List.sublist_append_left .., hkey, ?_⟩⟩
  · rw [← Entries.put_of_not_mem hkey, Entries.get?_put, if_pos rfl]
  · have hcount : (Entries.keys entries).count key = 0 := List.count_eq_zero.2 hkey
    simpa [Entries.keys] using hcount

theorem replace_replace (target v : Value) :
    Cancels target (replace v, .old target) (replace target, .old v) :=
  ⟨v, .replace, .replace⟩

end Write

namespace Observed

/-- Two writes through a handle, one after another, succeed with their outcomes and leave the whole
model as it was. -/
def Restores (o : Observed σ) (h : Handle) (first second : Write × Outcome) : Prop :=
  ∃ o', o.writeEach [(h, first.1), (h, second.1)] = ([.ok first.2, .ok second.2], o') ∧
    o'.model = o.model

/-- Writes that cancel at the place of a handle restore the model around it. -/
theorem restores_of_cancels {o : Observed σ} {h : Handle} {target : Value}
    {first second : Write × Outcome} (hunlocked : o.model.locked = false)
    (htarget : h.locate? o.model.value = some target)
    (hcancels : Write.Cancels target first second) : o.Restores h first second := by
  obtain ⟨new, hfirst, hsecond⟩ := hcancels
  have hupdates : first.1.Updates h o.model.value (h.put new o.model.value) first.2 :=
    ⟨target, new, htarget, hfirst, rfl⟩
  have hback : second.1.Updates h (h.put new o.model.value) o.model.value second.2 := by
    refine ⟨new, target, Handle.locate?_put htarget, hsecond, ?_⟩
    rw [Handle.put_put, Handle.put_of_locate?_eq_some htarget]
  rw [Restores, writeEach, write_of_updates hunlocked hupdates]
  dsimp only
  rw [writeEach, write_of_updates (o := ⟨⟨h.put new o.model.value, false⟩, _, _⟩) rfl hback]
  exact ⟨_, rfl, congrArg (Model.mk o.model.value) hunlocked.symm⟩

/-- Edits through a handle to a model that is not locked are undone exactly. In a sequence whose
length fits a word an item that is inserted, at the end or before, is removed at its written index,
one that is removed is inserted where it was, and one that is pushed is removed at the old length; a
new key of a mapping is removed; a value that was replaced is put back. Each time both writes
succeed, a removal and a replacement give back the value that was there, and the whole model is what
it was, the order of keys included. -/
theorem edits_undone (o : Observed σ) (hunlocked : o.model.locked = false) (h : Handle) :
    (∀ items, h.locate? o.model.value = some (.list items) →
      items.length < 0x10000000000000000 →
      (∀ i ≤ items.length, ∀ v,
        o.Restores h (.insert i v, .done) (.remove (Text.decimalString i), .old v)) ∧
      (∀ i, ∀ hi : i < items.length,
        o.Restores h (.remove (Text.decimalString i), .old items[i]) (.insert i items[i], .done)) ∧
      ∀ v, o.Restores h (.push v, .done)
        (.remove (Text.decimalString items.length), .old v)) ∧
    (∀ entries, h.locate? o.model.value = some (.map entries) →
      ∀ key ∉ Entries.keys entries, ∀ v,
        o.Restores h (.set key v, .done) (.remove key, .old v)) ∧
    ∀ target, h.locate? o.model.value = some target →
      ∀ v, o.Restores h (.replace v, .old target) (.replace target, .old v) := by
  refine ⟨fun items hitems hword => ⟨fun i hi v => ?_, fun i hi => ?_, fun v => ?_⟩,
    fun entries hentries key hkey v => ?_, fun target htarget v => ?_⟩
  · exact restores_of_cancels hunlocked hitems (Write.insert_remove hi (by omega) v)
  · exact restores_of_cancels hunlocked hitems (Write.remove_insert hi (by omega))
  · exact restores_of_cancels hunlocked hitems (Write.push_remove hword v)
  · exact restores_of_cancels hunlocked hentries (Write.set_remove hkey v)
  · exact restores_of_cancels hunlocked htarget (Write.replace_replace target v)

/-- A sequence inside of a mapping, edited at its start and behind its end. -/
theorem edits_undone_in_sequence :
    let items := [Value.bool true, .null]
    let o := Observed.wrap (.map [("xs", .list items), ("n", .null)])
      (fun _ calls => calls + 1) 0
    let h : Handle := ⟨[.key "xs"]⟩
    o.model.locked = false ∧ h.locate? o.model.value = some (.list items) ∧
      o.Restores h (.insert 2 (.string "c"), .done) (.remove "2", .old (.string "c")) ∧
      o.Restores h (.remove "0", .old (.bool true)) (.insert 0 (.bool true), .done) ∧
      o.Restores .root (.set "m" .empty, .done) (.remove "m", .old .empty) := by
  intro items o h
  have hunlocked : o.model.locked = false := rfl
  have hitems : h.locate? o.model.value = some (.list items) := rfl
  obtain ⟨hlist, -, -⟩ := edits_undone o hunlocked h
  obtain ⟨hinsert, hremove, -⟩ := hlist items hitems (by decide)
  obtain ⟨-, hmap, -⟩ := edits_undone o hunlocked .root
  have htwo : Text.decimalString 2 = "2" := by decide +kernel
  have hzero : Text.decimalString 0 = "0" := by decide +kernel
  refine ⟨hunlocked, hitems, ?_, ?_, hmap _ rfl "m" (by decide) .empty⟩
  · exact htwo ▸ hinsert 2 (Nat.le_refl 2) (.string "c")
  · exact hzero ▸ hremove 0 (by decide)

end Observed
end LiveMarkup
