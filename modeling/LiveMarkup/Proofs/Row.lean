import Mathlib.Data.List.TakeWhile

/-! Rows in which the members that a test picks are replaced by new ones. -/
namespace LiveMarkup

variable {α β : Type} {picked : α → Bool} {new l : List α}

theorem takeWhile_ne_append_cons [DecidableEq α] {before after : List α} {a : α}
    (h : a ∉ before) : (before ++ a :: after).takeWhile (· ≠ a) = before := by
  rw [List.takeWhile_append_of_pos, List.takeWhile_cons_of_neg (by simp), List.append_nil]
  intro b hb
  exact decide_eq_true fun hba => h (hba ▸ hb)

/-- The new members stand at the place of the first picked one, or in front where none is. -/
def replaceWhere (picked : α → Bool) (new l : List α) : List α :=
  match l.dropWhile (!picked ·) with
  | [] => new ++ l
  | _ :: rest => l.takeWhile (!picked ·) ++ new ++ rest.filter (!picked ·)

theorem replaceWhere_of_none (h : ∀ a ∈ l, picked a = false) :
    replaceWhere picked new l = new ++ l := by
  rw [replaceWhere, List.dropWhile_eq_nil_iff.2 fun a ha => by simp [h a ha]]

theorem replaceWhere_append_cons {before rest : List α} {a : α}
    (h : ∀ b ∈ before, picked b = false) (ha : picked a = true) :
    replaceWhere picked new (before ++ a :: rest) =
      before ++ new ++ rest.filter (!picked ·) := by
  have hbefore : ∀ b ∈ before, (!picked b) = true := fun b hb => by simp [h b hb]
  rw [replaceWhere, List.dropWhile_append_of_pos hbefore, List.takeWhile_append_of_pos hbefore]
  simp [ha]

/-- A row has no picked member, or it is cut at the first one. -/
theorem none_or_first (picked : α → Bool) (l : List α) : (∀ a ∈ l, picked a = false) ∨
    ∃ before a rest, l = before ++ a :: rest ∧ (∀ b ∈ before, picked b = false) ∧
      picked a = true := by
  induction l with
  | nil => exact Or.inl fun a ha => by cases ha
  | cons c l ih =>
    cases hc : picked c with
    | true => exact Or.inr ⟨[], c, l, rfl, fun b hb => (by cases hb), hc⟩
    | false =>
      rcases ih with h | ⟨before, a, rest, rfl, hbefore, ha⟩
      · exact Or.inl (List.forall_mem_cons.2 ⟨hc, h⟩)
      · exact Or.inr ⟨c :: before, a, rest, rfl, List.forall_mem_cons.2 ⟨hc, hbefore⟩, ha⟩

theorem replaceWhere_map (f : α → β) {picked' : β → Bool} (h : ∀ a ∈ l, picked' (f a) = picked a) :
    replaceWhere picked' (new.map f) (l.map f) = (replaceWhere picked new l).map f := by
  rcases none_or_first picked l with hnone | ⟨before, a, rest, rfl, hbefore, ha⟩
  · rw [replaceWhere_of_none hnone, List.map_append, replaceWhere_of_none]
    simpa using fun a hmem => (h a hmem).trans (hnone a hmem)
  · have hrest : ∀ b ∈ rest, (!picked' (f b)) = !picked b := fun b hb => by
      rw [h b (by simp [hb])]
    rw [replaceWhere_append_cons hbefore ha, List.map_append, List.map_cons,
      replaceWhere_append_cons]
    · simp only [List.map_append, List.filter_map, Function.comp_def, List.filter_congr hrest]
    · simpa using fun b hb => (h b (by simp [hb])).trans (hbefore b hb)
    · exact (h a (by simp)).trans ha

theorem mem_of_mem_replaceWhere {a : α} (h : a ∈ replaceWhere picked new l) : a ∈ new ∨ a ∈ l := by
  rcases none_or_first picked l with hnone | ⟨before, b, rest, rfl, hbefore, hb⟩
  · rw [replaceWhere_of_none hnone] at h
    exact List.mem_append.1 h
  · rw [replaceWhere_append_cons hbefore hb, List.mem_append, List.mem_append] at h
    rcases h with (h | h) | h
    · exact Or.inr (List.mem_append_left _ h)
    · exact Or.inl h
    · exact Or.inr (List.mem_append_right _ (List.mem_cons_of_mem _ (List.mem_filter.1 h).1))

theorem mem_replaceWhere {a : α} (h : a ∈ l) (ha : picked a = false) :
    a ∈ replaceWhere picked new l := by
  rcases none_or_first picked l with hnone | ⟨before, b, rest, rfl, hbefore, hb⟩
  · rw [replaceWhere_of_none hnone]
    exact List.mem_append_right _ h
  · rw [replaceWhere_append_cons hbefore hb]
    grind

/-- Picked members that stand together are replaced where they are. -/
theorem replaceWhere_together {before rest new' : List α} (hbefore : ∀ b ∈ before, picked b = false)
    (hnew : ∀ a ∈ new, picked a = true) (hne : new ≠ []) (hrest : ∀ b ∈ rest, picked b = false) :
    replaceWhere picked new' (before ++ new ++ rest) = before ++ new' ++ rest := by
  obtain ⟨a, new, rfl⟩ := List.exists_cons_of_ne_nil hne
  have hkept : (new ++ rest).filter (!picked ·) = rest := by
    rw [List.filter_append, List.filter_eq_nil_iff.2 fun b hb => by simp [hnew b (by simp [hb])],
      List.filter_eq_self.2 fun b hb => by simp [hrest b hb], List.nil_append]
  rw [List.append_assoc, List.cons_append,
    replaceWhere_append_cons hbefore (hnew a (List.mem_cons_self ..)), hkept]

/-- A row whose picked members stand together is settled. -/
theorem replaceWhere_settled {before rest : List α} (hbefore : ∀ b ∈ before, picked b = false)
    (hnew : ∀ a ∈ new, picked a = true) (hrest : ∀ b ∈ rest, picked b = false) :
    replaceWhere picked new (before ++ new ++ rest) = before ++ new ++ rest := by
  by_cases hne : new = []
  · subst hne
    refine replaceWhere_of_none fun a ha => ?_
    rw [List.append_nil] at ha
    exact (List.mem_append.1 ha).elim (hbefore a) (hrest a)
  · exact replaceWhere_together hbefore hnew hne hrest

/-- To replace once more by the same members is no change. -/
theorem replaceWhere_replaceWhere (h : ∀ a ∈ new, picked a = true) (l : List α) :
    replaceWhere picked new (replaceWhere picked new l) = replaceWhere picked new l := by
  rcases none_or_first picked l with hnone | ⟨before, a, rest, rfl, hbefore, ha⟩
  · rw [replaceWhere_of_none hnone]
    change replaceWhere picked new ([] ++ new ++ l) = [] ++ new ++ l
    exact replaceWhere_settled (fun b hb => (by cases hb)) h hnone
  · rw [replaceWhere_append_cons hbefore ha]
    exact replaceWhere_settled hbefore h fun b hb => by simpa using (List.mem_filter.1 hb).2

/-- Members that were put in for picked ones are themselves replaced where they are. -/
theorem replaceWhere_of_replaceWhere {new' : List α} (h : ∀ a ∈ new, picked a = true)
    (hne : new ≠ []) (l : List α) :
    replaceWhere picked new' (replaceWhere picked new l) = replaceWhere picked new' l := by
  rcases none_or_first picked l with hnone | ⟨before, a, rest, rfl, hbefore, ha⟩
  · rw [replaceWhere_of_none hnone, replaceWhere_of_none hnone]
    change replaceWhere picked new' ([] ++ new ++ l) = [] ++ new' ++ l
    exact replaceWhere_together (fun b hb => (by cases hb)) h hne hnone
  · rw [replaceWhere_append_cons hbefore ha, replaceWhere_append_cons hbefore ha]
    exact replaceWhere_together hbefore h hne fun b hb => by simpa using (List.mem_filter.1 hb).2

theorem replaceWhere_nil (l : List α) : replaceWhere picked [] l = l.filter (!picked ·) := by
  rcases none_or_first picked l with hnone | ⟨before, a, rest, rfl, hbefore, ha⟩
  · rw [replaceWhere_of_none hnone, List.nil_append,
      List.filter_eq_self.2 fun b hb => by simp [hnone b hb]]
  · have hkept : before.filter (!picked ·) = before :=
      List.filter_eq_self.2 fun b hb => by simp [hbefore b hb]
    rw [replaceWhere_append_cons hbefore ha, List.append_nil, List.filter_append, hkept,
      List.filter_cons_of_neg (by simp [ha])]

/-- The members that are not picked stay. -/
theorem filter_replaceWhere (h : ∀ a ∈ new, picked a = true) (l : List α) :
    (replaceWhere picked new l).filter (!picked ·) = l.filter (!picked ·) := by
  have hnew : new.filter (!picked ·) = [] := List.filter_eq_nil_iff.2 fun a ha => by simp [h a ha]
  rcases none_or_first picked l with hnone | ⟨before, a, rest, rfl, hbefore, ha⟩
  · rw [replaceWhere_of_none hnone, List.filter_append, hnew, List.nil_append]
  · rw [replaceWhere_append_cons hbefore ha, List.filter_append, List.filter_append, hnew,
      List.append_nil, List.filter_filter, List.filter_append,
      List.filter_cons_of_neg (by simp [ha])]
    simp only [Bool.and_self]

/-- Of the picked members there are just the new ones. -/
theorem filter_picked_replaceWhere (h : ∀ a ∈ new, picked a = true) (l : List α) :
    (replaceWhere picked new l).filter picked = new := by
  have hnew : new.filter picked = new := List.filter_eq_self.2 h
  have hnone : ∀ {l : List α}, (∀ a ∈ l, picked a = false) → l.filter picked = [] := fun hl =>
    List.filter_eq_nil_iff.2 fun a ha => by simp [hl a ha]
  rcases none_or_first picked l with hl | ⟨before, a, rest, rfl, hbefore, ha⟩
  · rw [replaceWhere_of_none hl, List.filter_append, hnew, hnone hl, List.append_nil]
  · rw [replaceWhere_append_cons hbefore ha, List.filter_append, List.filter_append, hnew,
      hnone hbefore, List.nil_append, hnone fun b hb => by simpa using (List.mem_filter.1 hb).2,
      List.append_nil]

/-- Members put in front of the others are replaced in front of them. -/
theorem replaceWhere_in_front {new' : List α} (h : ∀ a ∈ new, picked a = true) (l : List α) :
    replaceWhere picked new' (new ++ l.filter (!picked ·)) = new' ++ l.filter (!picked ·) := by
  have hrest : ∀ b ∈ l.filter (!picked ·), picked b = false := fun b hb => by
    simpa using (List.mem_filter.1 hb).2
  by_cases hne : new = []
  · subst hne
    exact replaceWhere_of_none hrest
  · change replaceWhere picked new' ([] ++ new ++ _) = [] ++ new' ++ _
    exact replaceWhere_together (fun b hb => (by cases hb)) h hne hrest

/-- What is left of a row without some of its members. -/
theorem filter_not_mem_of_perm [DecidableEq α] {gone left : List α} (hnodup : l.Nodup)
    (hsub : left.Sublist l) (hperm : (gone ++ left).Perm l) : l.filter (· ∉ gone) = left := by
  have hdisj := (List.nodup_append.1 (hperm.nodup_iff.2 hnodup)).2.2
  have hleft : left.filter (· ∉ gone) = left :=
    List.filter_eq_self.2 fun a ha => by simpa using fun h => hdisj a h a ha rfl
  have hgone : gone.filter (· ∉ gone) = [] := List.filter_eq_nil_iff.2 fun a ha => by simp [ha]
  have hsub' := hsub.filter (· ∉ gone)
  rw [hleft] at hsub'
  refine (hsub'.eq_of_length ?_).symm
  rw [← (hperm.filter (· ∉ gone)).length_eq, List.filter_append, hgone, hleft, List.nil_append]

/-- Two picked members stand in the row as they do among the picked ones. -/
theorem exists_of_filter_eq {before between after : List α} {a b : α}
    (h : l.filter picked = before ++ a :: (between ++ b :: after)) :
    ∃ before' between' after', l = before' ++ a :: between' ++ b :: after' ∧
      between'.filter picked = between := by
  obtain ⟨l₁, l₂, rfl, -, h₂⟩ := List.filter_eq_append_iff.1 h
  obtain ⟨l₃, l₄, rfl, -, -, h₄⟩ := List.filter_eq_cons_iff.1 h₂
  obtain ⟨l₅, l₆, rfl, h₅, h₆⟩ := List.filter_eq_append_iff.1 h₄
  obtain ⟨l₇, l₈, rfl, h₇, -, -⟩ := List.filter_eq_cons_iff.1 h₆
  refine ⟨l₁ ++ l₃, l₅ ++ l₇, l₈, by simp, ?_⟩
  rw [List.filter_append, h₅, List.filter_eq_nil_iff.2 h₇, List.append_nil]

end LiveMarkup
