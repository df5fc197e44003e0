import LiveMarkup.Proofs.Markup.Spelling

/-! Where events end. A tag, a data section or a piece that is passed over is cut at an end of its
own: neither where it stands nor what comes behind it matters. So a markup that is read to its end
is a row of events, perhaps with a text behind the last tag that what follows may go on. -/
namespace LiveMarkup.Markup

variable {position : Nat} {c : Char} {mark word s t before content inner rest : List Char}
  {quote : Option Char} {depth : Nat} {e : Event}

theorem after?_eq_some_iff : after? mark s = some rest ↔ s = mark ++ rest := by
  rw [after?]
  split
  · next h =>
    obtain ⟨t, rfl⟩ := List.isPrefixOf_iff_prefix.1 h
    simp
  · next h =>
    refine iff_of_false (Option.some_ne_none _).symm ?_
    rintro rfl
    exact h (List.isPrefixOf_iff_prefix.2 (List.prefix_append ..))

/-- A beginning of either case has the length of the word. -/
theorem afterWord?_eq_some_iff :
    afterWord? word s = some rest ↔ ∃ used, s = used ++ rest ∧ used.map lower = word := by
  rw [afterWord?]
  constructor
  · intro h
    split at h
    · next hword =>
      cases h
      exact ⟨_, (List.take_append_drop ..).symm, hword⟩
    · cases h
  · rintro ⟨used, rfl, rfl⟩
    simp

theorem cutAt_append (hmark : mark ≠ []) (t : List Char) :
    cutAt mark (mark ++ t) = some ([], t) := by
  obtain ⟨c, mark, rfl⟩ := List.exists_cons_of_ne_nil hmark
  have hfound : (c :: mark).isPrefixOf (c :: (mark ++ t)) = true :=
    List.isPrefixOf_iff_prefix.2 (List.prefix_append (c :: mark) t)
  rw [List.cons_append, cutAt, if_pos hfound, ← List.cons_append, List.drop_left]

/-- A mark that is found is found whatever follows: it does not come earlier than it did. -/
theorem exists_of_cutAt (hmark : mark ≠ []) (h : cutAt mark s = some (before, rest)) : ∃ used,
    s = used ++ rest ∧ mark.length ≤ used.length ∧
      ∀ t, cutAt mark (used ++ t) = some (before, t) := by
  induction s generalizing before with
  | nil => cases h
  | cons c s ih =>
    rw [cutAt] at h
    split at h
    · next hfound =>
      obtain ⟨t, ht⟩ := List.isPrefixOf_iff_prefix.1 hfound
      cases h
      rw [← ht, List.drop_left]
      exact ⟨mark, rfl, Nat.le_refl _, cutAt_append hmark⟩
    · next hfound =>
      obtain ⟨⟨before', rest'⟩, hcut, heq⟩ := Option.map_eq_some_iff.1 h
      cases heq
      obtain ⟨used, rfl, hlength, hused⟩ := ih hcut
      have hlonger : mark.length ≤ (c :: used).length := Nat.le_succ_of_le hlength
      refine ⟨c :: used, rfl, hlonger, fun t => ?_⟩
      have hlater : ¬ mark.isPrefixOf (c :: (used ++ t)) = true := by
        rw [List.isPrefixOf_iff_prefix] at hfound ⊢
        intro hprefix
        exact hfound ((List.prefix_of_prefix_length_le hprefix
          (List.prefix_append (c :: used) t) hlonger).trans (List.prefix_append (c :: used) _))
      rw [List.cons_append, cutAt, if_neg hlater, hused]
      rfl

theorem exists_of_cutTag (h : cutTag quote s = some (inner, rest)) : ∃ used,
    s = used ++ rest ∧ used ≠ [] ∧ ∀ t, cutTag quote (used ++ t) = some (inner, t) := by
  induction s generalizing quote inner with
  | nil => cases h
  | cons c s ih =>
    cases quote with
    | some q =>
      obtain ⟨⟨inner', rest'⟩, hcut, heq⟩ := Option.map_eq_some_iff.1 h
      cases heq
      obtain ⟨used, rfl, -, hused⟩ := ih hcut
      refine ⟨c :: used, rfl, List.cons_ne_nil _ _, fun t => ?_⟩
      rw [List.cons_append, cutTag, hused]
      rfl
    | none =>
      rw [cutTag] at h
      split at h
      · next hc =>
        cases h
        exact ⟨[c], rfl, List.cons_ne_nil _ _, fun t => by simp [cutTag, hc]⟩
      · next hc =>
        obtain ⟨⟨inner', rest'⟩, hcut, heq⟩ := Option.map_eq_some_iff.1 h
        cases heq
        obtain ⟨used, rfl, -, hused⟩ := ih hcut
        refine ⟨c :: used, rfl, List.cons_ne_nil _ _, fun t => ?_⟩
        simp only [List.cons_append, cutTag, if_neg hc, hused]
        rfl

theorem exists_of_cutBalanced (h : cutBalanced depth s = some (inner, rest)) : ∃ used,
    s = used ++ rest ∧ ∀ t, cutBalanced depth (used ++ t) = some (inner, t) := by
  induction s generalizing depth inner with
  | nil => cases h
  | cons c s ih =>
    rw [cutBalanced] at h
    split at h
    · next hc =>
      cases h
      exact ⟨[c], rfl, fun t => by simp [cutBalanced, hc]⟩
    · next hc =>
      obtain ⟨⟨inner', rest'⟩, hcut, heq⟩ := Option.map_eq_some_iff.1 h
      cases heq
      obtain ⟨used, rfl, hused⟩ := ih hcut
      refine ⟨c :: used, rfl, fun t => ?_⟩
      simp only [List.cons_append, cutBalanced, if_neg hc, hused]
      rfl

theorem exists_of_doctype (h : doctype position s = .ok (e, rest)) : ∃ used,
    s = used ++ rest ∧ used ≠ [] ∧ ∀ position t, doctype position (used ++ t) = .ok (e, t) := by
  rw [doctype] at h
  split at h
  · cases h
  · next body hbody =>
    obtain ⟨word, rfl, hword⟩ := afterWord?_eq_some_iff.1 hbody
    split at h
    · cases h
    · next content rest' hcut =>
      split at h
      · cases h
      · next hname =>
        cases h
        obtain ⟨used, rfl, hused⟩ := exists_of_cutBalanced hcut
        refine ⟨word ++ used, (List.append_assoc ..).symm, ?_, fun position t => ?_⟩
        · rintro hnil
          rw [(List.append_eq_nil_iff.1 hnil).1] at hword
          cases hword
        · have hafter : afterWord? ['d', 'o', 'c', 't', 'y', 'p', 'e'] (word ++ (used ++ t)) =
              some (used ++ t) := afterWord?_eq_some_iff.2 ⟨word, rfl, hword⟩
          rw [doctype, List.append_assoc, hafter]
          simp only [hused, if_neg hname]

/-- A data section or a comment: what stands between two marks. -/
theorem exists_of_between (hmark : mark ≠ [])
    (h : (after? word s).bind (cutAt mark) = some (content, rest)) : ∃ used,
    s = word ++ used ++ rest ∧
      ∀ t, (after? word (word ++ used ++ t)).bind (cutAt mark) = some (content, t) := by
  obtain ⟨body, hbody, hcut⟩ := Option.bind_eq_some_iff.1 h
  obtain ⟨used, rfl, -, hused⟩ := exists_of_cutAt hmark hcut
  refine ⟨used, by rw [after?_eq_some_iff.1 hbody, List.append_assoc], fun t => ?_⟩
  rw [List.append_assoc, after?_eq_some_iff.2 rfl]
  exact hused t

theorem exists_of_declaration (h : declaration position s = .ok (e, rest)) : ∃ used,
    s = used ++ rest ∧ ∀ position t, declaration position (used ++ t) = .ok (e, t) := by
  cases s with
  | nil => cases h
  | cons c s =>
    rw [declaration] at h
    split at h
    · split at h
      · next hcut =>
        cases h
        obtain ⟨used, hs, hused⟩ := exists_of_between (List.cons_ne_nil _ _) hcut
        refine ⟨_, hs, fun position t => ?_⟩
        have hdata := hused t
        simp only [List.cons_append, List.nil_append] at hdata ⊢
        simp only [declaration, hdata, if_true]
      · cases h
    · next hdata =>
      split at h
      · split at h
        · next hcut =>
          cases h
          obtain ⟨used, hs, hused⟩ := exists_of_between (List.cons_ne_nil _ _) hcut
          refine ⟨_, hs, fun position t => ?_⟩
          have hcomment := hused t
          simp only [List.cons_append, List.nil_append] at hcomment ⊢
          simp [declaration, hcomment]
        · cases h
      · next hcomment =>
        split at h
        · next hdoctype =>
          obtain ⟨used, hs, hne, hused⟩ := exists_of_doctype h
          obtain ⟨c', used, rfl⟩ := List.exists_cons_of_ne_nil hne
          obtain ⟨rfl, rfl⟩ := List.cons_eq_cons.1 hs
          refine ⟨c :: used, rfl, fun position t => ?_⟩
          rw [List.cons_append, declaration, if_neg hdata, if_neg hcomment, if_pos hdoctype]
          exact hused position t
        · cases h

theorem exists_of_instruction (h : instruction position s = .ok (e, rest)) : ∃ used,
    s = used ++ rest ∧ ∀ position t, instruction position (used ++ t) = .ok (e, t) := by
  rw [instruction] at h
  split at h
  · cases h
  · next hfirst =>
    split at h
    · next hcut =>
      cases h
      obtain ⟨used, rfl, hlength, hused⟩ := exists_of_cutAt (List.cons_ne_nil _ _) hcut
      refine ⟨used, rfl, fun position t => ?_⟩
      cases used with
      | nil => cases hlength
      | cons c used =>
        have hsame : ¬ (c :: used ++ t).head? = some '>' := hfirst
        rw [instruction, if_neg hsame, hused]
    · cases h

theorem exists_of_tag (h : tag position s = .ok (e, rest)) : ∃ used,
    s = used ++ rest ∧ ∀ position t, tag position (used ++ t) = .ok (e, t) := by
  unfold tag at h
  split at h
  · obtain ⟨used, rfl, hused⟩ := exists_of_declaration h
    exact ⟨'!' :: used, rfl, fun position t => hused position t⟩
  · obtain ⟨used, rfl, hused⟩ := exists_of_instruction h
    exact ⟨'?' :: used, rfl, fun position t => hused position t⟩
  · next hdeclaration hinstruction =>
    split at h
    · next hcut =>
      cases h
      obtain ⟨used, rfl, hne, hused⟩ := exists_of_cutTag hcut
      obtain ⟨c, used, rfl⟩ := List.exists_cons_of_ne_nil hne
      refine ⟨c :: used, rfl, fun position t => ?_⟩
      rw [List.cons_append, tag]
      · rw [← List.cons_append, hused]
      · rintro t' ⟨⟩
        exact hdeclaration _ rfl
      · rintro t' ⟨⟩
        exact hinstruction _ rfl
    · cases h

/-- What begins with a `<` is cut at an end of its own. -/
theorem exists_of_nextEvent (h : nextEvent position '<' s = .ok (e, rest)) : ∃ used,
    s = used ++ rest ∧ ∀ position t, nextEvent position '<' (used ++ t) = .ok (e, t) := by
  rw [nextEvent, if_pos rfl] at h
  obtain ⟨used, rfl, hused⟩ := exists_of_tag h
  refine ⟨used, rfl, fun position t => ?_⟩
  rw [nextEvent, if_pos rfl, hused]

/-- An event does not depend on its position. -/
theorem nextEvent_position (h : nextEvent position c s = .ok (e, rest)) (position' : Nat) :
    nextEvent position' c s = .ok (e, rest) := by
  by_cases hc : c = '<'
  · subst hc
    obtain ⟨used, rfl, hused⟩ := exists_of_nextEvent h
    exact hused position' rest
  · rw [nextEvent, if_neg hc] at h ⊢
    exact h

theorem utf8Length_append (s t : List Char) :
    utf8Length (s ++ t) = utf8Length s + utf8Length t := by
  induction s with
  | nil => simp [utf8Length]
  | cons c s ih => simp [utf8Length, ih, Nat.add_assoc]

/-- A text begins with some events whatever follows it, and the events of what follows come next. -/
def Passes (s : List Char) (position : Nat) (events : List Located) (next : Nat) : Prop :=
  ∀ t, eventsFrom position (s ++ t) = (events ++ (eventsFrom next t).1, (eventsFrom next t).2)

theorem eventsFrom_cons_append (h : nextEvent position c (s ++ rest) = .ok (e, rest)) :
    eventsFrom position (c :: (s ++ rest)) =
      (⟨position, e⟩ :: (eventsFrom (position + utf8Length (c :: s)) rest).1,
        (eventsFrom (position + utf8Length (c :: s)) rest).2) := by
  have hnext : position + (utf8Length (c :: (s ++ rest)) - utf8Length rest) =
      position + utf8Length (c :: s) := by
    rw [← List.cons_append, utf8Length_append]
    omega
  rw [eventsFrom_cons h, hnext]

theorem Passes.event {front : List Char} {events : List Located} {next : Nat}
    (h : Passes front (position + utf8Length (c :: s)) events next)
    (hcut : ∀ t, nextEvent position c (s ++ (front ++ t)) = .ok (e, front ++ t)) :
    Passes (c :: (s ++ front)) position (⟨position, e⟩ :: events) next := by
  intro t
  rw [List.cons_append, List.append_assoc, eventsFrom_cons_append (hcut t), h]
  rfl

/-- Where nothing fails there is a first event. -/
theorem exists_nextEvent_of_failure (h : (eventsFrom position (c :: s)).2 = none) :
    ∃ e rest, nextEvent position c s = .ok (e, rest) := by
  rw [eventsFrom] at h
  split at h
  · cases h
  · next hok => exact ⟨_, _, hok⟩

/-- A markup without a failure is passed up to the end of its last tag; what is left is text. -/
theorem exists_passes (position : Nat) (s : List Char) (h : (eventsFrom position s).2 = none) :
    ∃ front tail events next, s = front ++ tail ∧ '<' ∉ tail ∧
      Passes front position events next := by
  obtain ⟨n, hn⟩ : ∃ n, s.length = n := ⟨_, rfl⟩
  induction n using Nat.strong_induction_on generalizing position s with
  | _ n ih =>
    by_cases hmem : '<' ∈ s
    swap
    · exact ⟨[], s, [], position, rfl, hmem, fun t => rfl⟩
    subst hn
    obtain ⟨raw, body, rfl, hraw⟩ := List.eq_append_cons_of_mem hmem
    cases raw with
    | nil =>
      obtain ⟨e, rest, hnext⟩ := exists_nextEvent_of_failure h
      obtain ⟨used, rfl, hused⟩ := exists_of_nextEvent hnext
      rw [List.nil_append, eventsFrom_cons_append hnext] at h
      have hshorter : rest.length < ([] ++ '<' :: (used ++ rest)).length := by
        simp only [List.nil_append, List.length_cons, List.length_append]
        omega
      obtain ⟨front, tail, events, next, rfl, htail, hpasses⟩ := ih _ hshorter _ rest h rfl
      exact ⟨'<' :: (used ++ front), tail, _, next, by simp, htail,
        hpasses.event fun t => hused position _⟩
    | cons c raw =>
      have hnext := nextEvent_text position hraw (Or.inr ⟨body, rfl⟩)
      rw [List.cons_append, eventsFrom_cons_append hnext] at h
      have hshorter : ('<' :: body).length < (c :: raw ++ '<' :: body).length := by
        simp only [List.cons_append, List.length_cons, List.length_append]
        omega
      obtain ⟨front, tail, events, next, hbody, htail, hpasses⟩ := ih _ hshorter _ _ h rfl
      cases front with
      | nil =>
        rw [List.nil_append] at hbody
        rw [← hbody] at htail
        exact absurd (List.mem_cons_self ..) htail
      | cons first front =>
        obtain ⟨rfl, rfl⟩ := List.cons_eq_cons.1 hbody
        exact ⟨c :: (raw ++ '<' :: front), tail, _, next, by simp, htail,
          hpasses.event fun t => nextEvent_text position hraw (Or.inr ⟨front ++ t, rfl⟩)⟩

end LiveMarkup.Markup
