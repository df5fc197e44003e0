/-! Ordered tables: lists of keys with their values, read at the first match and grown at the end.
Putting a value under a key that is there keeps the place of the key. -/
namespace LiveMarkup.Entries

variable {α β : Type} [DecidableEq α]

def get? (key : α) : List (α × β) → Option β
  | [] => none
  | (k, v) :: rest => if k = key then some v else get? key rest

/-- Replaces the value in place, or adds the pair at the end. -/
def put (key : α) (value : β) : List (α × β) → List (α × β)
  | [] => [(key, value)]
  | (k, v) :: rest => if k = key then (k, value) :: rest else (k, v) :: put key value rest

def erase (key : α) (entries : List (α × β)) : List (α × β) :=
  entries.filter (fun e => e.1 ≠ key)

/-- Puts pairs one after another: a repeated key keeps its first place and its last value. -/
def ofList (pairs : List (α × β)) : List (α × β) :=
  pairs.foldl (fun entries e => put e.1 e.2 entries) []

def keys (entries : List (α × β)) : List α := entries.map Prod.fst

def contains (key : α) (entries : List (α × β)) : Bool := (get? key entries).isSome

theorem get?_put (key : α) (value : β) (entries : List (α × β)) (k : α) :
    get? k (put key value entries) = if key = k then some value else get? k entries := by
  induction entries with
  | nil => simp [put, get?]
  | cons e rest ih =>
    obtain ⟨k', v⟩ := e
    grind [put, get?]

theorem get?_erase (key : α) (entries : List (α × β)) (k : α) :
    get? k (erase key entries) = if key = k then none else get? k entries := by
  induction entries with
  | nil => simp [erase, get?]
  | cons e rest ih =>
    obtain ⟨k', v⟩ := e
    simp only [erase] at ih ⊢
    grind [get?]

/-- Keys stay distinct, and a new one is last. -/
theorem keys_put (key : α) (value : β) (entries : List (α × β)) :
    keys (put key value entries) =
      if key ∈ keys entries then keys entries else keys entries ++ [key] := by
  induction entries with
  | nil => simp [put, keys]
  | cons e rest ih =>
    obtain ⟨k', v⟩ := e
    simp only [keys] at ih
    by_cases h : k' = key
    · simp [put, keys, h]
    · have h' : key ≠ k' := fun e => h e.symm
      simp only [put, h, if_false, keys, List.map_cons, ih, List.mem_cons, h', false_or]
      split <;> simp [*]

theorem put_of_not_mem {key : α} {entries : List (α × β)} (h : key ∉ keys entries) (value : β) :
    put key value entries = entries ++ [(key, value)] := by
  induction entries with
  | nil => rfl
  | cons e rest ih =>
    obtain ⟨k', v⟩ := e
    simp only [keys, List.map_cons, List.mem_cons, not_or] at h ih
    simp [put, ih h.2, Ne.symm h.1]

/-- Pairs with distinct keys are a table as they stand. -/
theorem ofList_of_nodup {pairs : List (α × β)} (h : (keys pairs).Nodup) : ofList pairs = pairs := by
  suffices ∀ done : List (α × β), (keys (done ++ pairs)).Nodup →
      pairs.foldl (fun entries e => put e.1 e.2 entries) done = done ++ pairs from this [] h
  induction pairs with
  | nil => simp
  | cons e rest ih =>
    intro done hd
    have hnot : e.1 ∉ keys done := by
      simp only [keys, List.map_append, List.map_cons, List.nodup_append, List.mem_cons,
        List.mem_map] at hd ⊢
      exact fun hm => hd.2.2 e.1 (by simpa using hm) e.1 (Or.inl rfl) rfl
    have hrest : (keys rest).Nodup := by
      simp only [keys, List.map_cons, List.nodup_cons] at h
      exact h.2
    rw [List.foldl_cons, put_of_not_mem hnot, ih hrest _ (by simpa using hd)]
    simp

theorem get?_eq_none_iff (key : α) (entries : List (α × β)) :
    get? key entries = none ↔ key ∉ keys entries := by
  induction entries with
  | nil => simp [get?, keys]
  | cons e rest ih =>
    obtain ⟨k', v⟩ := e
    by_cases h : k' = key
    · simp [get?, keys, h]
    · have h' : key ≠ k' := fun e => h e.symm
      simpa [get?, keys, h, h'] using ih

/-- Under distinct keys each pair is found. -/
theorem get?_of_mem {entries : List (α × β)} {e : α × β} (h : (keys entries).Nodup)
    (he : e ∈ entries) : get? e.1 entries = some e.2 := by
  induction entries with
  | nil => cases he
  | cons first rest ih =>
    rw [keys, List.map_cons, List.nodup_cons] at h
    rcases List.mem_cons.1 he with rfl | he
    · exact if_pos rfl
    · have hne : first.1 ≠ e.1 := fun heq => h.1 (heq ▸ List.mem_map_of_mem he)
      rw [get?, if_neg hne, ih h.2 he]

theorem put_append_cons {key : α} {value value' : β} {before after : List (α × β)}
    (h : key ∉ keys before) :
    put key value (before ++ (key, value') :: after) = before ++ (key, value) :: after := by
  induction before with
  | nil => simp [put]
  | cons e before ih =>
    simp only [keys, List.map_cons, List.mem_cons, not_or] at h ih
    simp [put, Ne.symm h.1, ih h.2]

/-- Putting what is there already changes nothing. -/
theorem put_of_get?_eq_some {key : α} {value : β} {entries : List (α × β)}
    (h : get? key entries = some value) : put key value entries = entries := by
  induction entries with
  | nil => cases h
  | cons e rest ih =>
    obtain ⟨k, v⟩ := e
    rw [get?] at h
    split at h
    · next hk => simp [put, hk, Option.some.inj h]
    · next hk => simp [put, hk, ih h]

/-- Of two values put under one key the later one counts. -/
theorem put_put (key : α) (value value' : β) (entries : List (α × β)) :
    put key value (put key value' entries) = put key value entries := by
  induction entries with
  | nil => simp [put]
  | cons e rest ih =>
    obtain ⟨k, v⟩ := e
    by_cases h : k = key <;> simp [put, h, ih]

/-- Values under two keys are put in any order, where at most one of the keys is new. -/
theorem put_comm {key key' : α} (hne : key ≠ key') {entries : List (α × β)}
    (hmem : key ∈ keys entries) (value value' : β) :
    put key value (put key' value' entries) = put key' value' (put key value entries) := by
  induction entries with
  | nil => cases hmem
  | cons e rest ih =>
    obtain ⟨k, v⟩ := e
    by_cases h : k = key
    · subst h
      simp [put, hne]
    · have hrest : key ∈ keys rest := (List.mem_cons.1 hmem).resolve_left (Ne.symm h)
      by_cases h' : k = key'
      · simp [put, h', h' ▸ h]
      · simp [put, h, h', ih hrest]

/-- A key that is there has a first place. -/
theorem exists_first {key : α} {entries : List (α × β)} (h : key ∈ keys entries) :
    ∃ before value after, entries = before ++ (key, value) :: after ∧ key ∉ keys before := by
  induction entries with
  | nil => cases h
  | cons e rest ih =>
    obtain ⟨k, v⟩ := e
    by_cases hk : k = key
    · subst hk
      exact ⟨[], v, rest, rfl, nofun⟩
    · obtain ⟨before, value, after, rfl, hbefore⟩ :=
        ih ((List.mem_cons.1 h).resolve_left (Ne.symm hk))
      refine ⟨(k, v) :: before, value, after, rfl, fun hmem => ?_⟩
      exact (List.mem_cons.1 hmem).elim (Ne.symm hk) hbefore

/-- What is left of a table without a key: all entries under other keys, in their order. -/
structure Without (key : α) (entries left : List (α × β)) : Prop where
  sublist : left.Sublist entries
  missing : key ∉ keys left
  length : left.length + (keys entries).count key = entries.length

theorem count_add_length_erase (key : α) (entries : List (α × β)) :
    (erase key entries).length + (keys entries).count key = entries.length := by
  induction entries with
  | nil => rfl
  | cons e rest ih =>
    rw [erase, keys, List.map_cons, List.count_cons, List.length_cons, ← ih, erase, keys]
    by_cases h : e.1 = key <;> simp [h] <;> omega

theorem without_erase (key : α) (entries : List (α × β)) :
    Without key entries (erase key entries) where
  sublist := List.filter_sublist
  missing := by simp [keys, erase]
  length := count_add_length_erase key entries

theorem Without.eq_erase {key : α} {entries left : List (α × β)} (h : Without key entries left) :
    left = erase key entries := by
  have hothers : ∀ e ∈ left, e.1 ≠ key := fun e he heq => h.missing (heq ▸ List.mem_map_of_mem he)
  have hfilter := h.sublist.filter (fun e => e.1 ≠ key)
  rw [List.filter_eq_self.2 (by simpa using hothers), ← erase] at hfilter
  refine hfilter.eq_of_length ?_
  have hlength := h.length
  rw [← count_add_length_erase key entries] at hlength
  exact Nat.add_right_cancel hlength

/-- Values that change where their keys stay. -/
theorem get?_map_value (f : α → β → β) (key : α) (entries : List (α × β)) :
    get? key (entries.map fun e => (e.1, f e.1 e.2)) = (get? key entries).map (f key) := by
  induction entries with
  | nil => rfl
  | cons e rest ih =>
    obtain ⟨k, v⟩ := e
    by_cases h : k = key
    · subst h
      simp [get?]
    · simp [get?, h, ih]

end LiveMarkup.Entries
