import Mathlib.Tactic.SplitIfs
import LiveMarkup.Markup.Entity

/-! Escaped texts. Nothing in them begins or ends a tag or a value, each `&` in them begins a
reference that stands for one character of the text, and reading them gives the text back. -/
namespace LiveMarkup.Markup

variable {inAttribute : Bool} {c : Char} {s before after : List Char}

@[simp] theorem escape_nil (inAttribute : Bool) : escape inAttribute [] = [] := rfl

theorem escape_append (inAttribute : Bool) (s t : List Char) :
    escape inAttribute (s ++ t) = escape inAttribute s ++ escape inAttribute t :=
  List.flatMap_append

theorem escapeChar_ne_nil (inAttribute : Bool) (c : Char) : escapeChar inAttribute c ≠ [] := by
  unfold escapeChar
  split_ifs <;> exact List.cons_ne_nil _ _

theorem escape_eq_nil_iff : escape inAttribute s = [] ↔ s = [] := by
  cases s with
  | nil => exact iff_of_true rfl rfl
  | cons c s => simp [escape, escapeChar_ne_nil]

/-- No tag begins or ends in an escaped text. -/
theorem not_mem_escape (hc : c = '<' ∨ c = '>' ∨ c = '"' ∧ inAttribute = true) :
    c ∉ escape inAttribute s := by
  rw [escape, List.mem_flatMap]
  rintro ⟨d, -, hmem⟩
  unfold escapeChar at hmem
  split_ifs at hmem <;> grind

/-- The references that are written in the place of characters. -/
def references (inAttribute : Bool) : List (List Char) :=
  [['&', 'a', 'm', 'p', ';'], ['&', 'l', 't', ';'], ['&', 'g', 't', ';']] ++
    if inAttribute then [['&', 'q', 'u', 'o', 't', ';']] else []

/-- A character is written as a reference, with its one `&` in front, or as it is. -/
theorem escapeChar_cases (inAttribute : Bool) (c : Char) :
    (∃ name, '&' ∉ name ∧ escapeChar inAttribute c = '&' :: name ∧
      escapeChar inAttribute c ∈ references inAttribute) ∨
    c ≠ '&' ∧ escapeChar inAttribute c = [c] := by
  unfold escapeChar
  split_ifs with hamp hlt hgt hquot
  · exact Or.inl ⟨_, by decide, rfl, by simp [references]⟩
  · exact Or.inl ⟨_, by decide, rfl, by simp [references]⟩
  · exact Or.inl ⟨_, by decide, rfl, by simp [references]⟩
  · exact Or.inl ⟨_, by decide, rfl, by simp [references, hquot.2]⟩
  · exact Or.inr ⟨hamp, rfl⟩

theorem escapeChar_eq_append (h : escapeChar inAttribute c = before ++ '&' :: after) :
    before = [] ∧ escapeChar inAttribute c ∈ references inAttribute := by
  rcases escapeChar_cases inAttribute c with ⟨name, hname, hchar, hmem⟩ | ⟨hamp, hchar⟩
  · refine ⟨?_, hmem⟩
    rw [hchar] at h
    cases before with
    | nil => rfl
    | cons d before =>
      obtain ⟨-, rfl⟩ := List.cons.inj h
      exact absurd (List.mem_append_right _ (List.mem_cons_self ..)) hname
  · have hmem : '&' ∈ [c] := by
      rw [← hchar, h]
      exact List.mem_append_right _ (List.mem_cons_self ..)
    exact absurd (List.mem_singleton.1 hmem).symm hamp

/-- Each `&` of an escaped text begins the reference for a character of the text. -/
theorem exists_of_ampersand (h : escape inAttribute s = before ++ '&' :: after) :
    ∃ t c u, s = t ++ c :: u ∧ before = escape inAttribute t ∧
      '&' :: after = escapeChar inAttribute c ++ escape inAttribute u ∧
      escapeChar inAttribute c ∈ references inAttribute := by
  induction s generalizing before with
  | nil => exact absurd h.symm (List.append_ne_nil_of_right_ne_nil _ (List.cons_ne_nil _ _))
  | cons c s ih =>
    have hsplit : (∃ rest, before = escapeChar inAttribute c ++ rest ∧
          escape inAttribute s = rest ++ '&' :: after) ∨
        ∃ rest, escapeChar inAttribute c = before ++ '&' :: rest ∧
          after = rest ++ escape inAttribute s := by
      rw [escape, List.flatMap_cons, ← escape, List.append_eq_append_iff] at h
      rcases h with hbehind | ⟨_ | ⟨d, rest⟩, hchar, hrest⟩
      · exact Or.inl hbehind
      · exact Or.inl ⟨[], by simpa using hchar.symm, by simpa using hrest.symm⟩
      · obtain ⟨rfl, hafter⟩ := List.cons.inj hrest
        exact Or.inr ⟨rest, hchar, hafter⟩
    rcases hsplit with ⟨rest, rfl, hrest⟩ | ⟨rest, hchar, rfl⟩
    · obtain ⟨t, d, u, rfl, rfl, hafter, hmem⟩ := ih hrest
      exact ⟨c :: t, d, u, rfl, rfl, hafter, hmem⟩
    · obtain ⟨rfl, hmem⟩ := escapeChar_eq_append hchar
      refine ⟨[], c, s, rfl, rfl, ?_, hmem⟩
      rw [hchar]
      rfl

theorem entity_of_named {start : Nat} {name : List Char} (hname : name.head? ≠ some '#')
    (h : namedEntity? (String.ofList name) = some c) : entity start name = .ok c := by
  rw [entity, h]
  rintro reference rfl
  exact hname rfl

/-- A reference to one of the named characters is that character. -/
theorem unescapeFrom_reference (length offset : Nat) (name t : List Char)
    (hname : name.all isNameChar = true)
    (hentity : ∀ offset, entity offset name = .ok c) :
    ∃ next, unescapeFrom length offset ('&' :: name ++ ';' :: t) =
      (c :: ·) <$> unescapeFrom length next t := by
  rw [List.all_eq_true] at hname
  have htake : (name ++ ';' :: t).takeWhile isNameChar = name := by
    rw [List.takeWhile_append_of_pos hname, List.takeWhile_cons_of_neg (by decide),
      List.append_nil]
  have hdrop : (name ++ ';' :: t).dropWhile isNameChar = ';' :: t := by
    rw [List.dropWhile_append_of_pos hname, List.dropWhile_cons_of_neg (by decide)]
  refine ⟨offset + utf8Length name + 2, ?_⟩
  rw [List.cons_append, unescapeFrom, if_pos rfl]
  split
  · next tail htail =>
    rw [hdrop, List.cons.injEq] at htail
    obtain rfl := htail.2
    simp only [htake, hentity]
  · next hnot => exact absurd hdrop (hnot t)

theorem unescapeFrom_escapeChar (length offset : Nat) (inAttribute : Bool) (c : Char)
    (t : List Char) : ∃ next, unescapeFrom length offset (escapeChar inAttribute c ++ t) =
      (c :: ·) <$> unescapeFrom length next t := by
  unfold escapeChar
  split_ifs with hamp hlt hgt hquot
  · subst hamp
    exact unescapeFrom_reference length offset ['a', 'm', 'p'] t (by decide)
      fun _ => entity_of_named (by decide) (by decide)
  · subst hlt
    exact unescapeFrom_reference length offset ['l', 't'] t (by decide)
      fun _ => entity_of_named (by decide) (by decide)
  · subst hgt
    exact unescapeFrom_reference length offset ['g', 't'] t (by decide)
      fun _ => entity_of_named (by decide) (by decide)
  · obtain ⟨rfl, -⟩ := hquot
    exact unescapeFrom_reference length offset ['q', 'u', 'o', 't'] t (by decide)
      fun _ => entity_of_named (by decide) (by decide)
  · refine ⟨offset + c.utf8Size, ?_⟩
    rw [List.singleton_append, unescapeFrom, if_neg hamp]

theorem unescapeFrom_escape (length offset : Nat) (inAttribute : Bool) (s : List Char) :
    unescapeFrom length offset (escape inAttribute s) = .ok s := by
  induction s generalizing offset with
  | nil => simp [escape, unescapeFrom]
  | cons c s ih =>
    obtain ⟨next, h⟩ := unescapeFrom_escapeChar length offset inAttribute c (escape inAttribute s)
    rw [escape, List.flatMap_cons, ← escape, h, ih]
    rfl

/-- An escaped text gives the text. -/
theorem unescape_escape (inAttribute : Bool) (s : List Char) :
    unescape (escape inAttribute s) = .ok s :=
  unescapeFrom_escape _ _ inAttribute s

/-- Escaping is undone by reading. An escaped text has no `<` and no `>` in it, and in an attribute
value no quote; each `&` in it begins one of the references that are written, in the place of a
character of the text; and reading it succeeds and gives the text, whatever that looks like. -/
theorem escape_read_back (inAttribute : Bool) (s : List Char) :
    '<' ∉ escape inAttribute s ∧ '>' ∉ escape inAttribute s ∧
    (inAttribute = true → '"' ∉ escape inAttribute s) ∧
    (∀ before after, escape inAttribute s = before ++ '&' :: after →
      ∃ t c u, s = t ++ c :: u ∧ before = escape inAttribute t ∧
        '&' :: after = escapeChar inAttribute c ++ escape inAttribute u ∧
        escapeChar inAttribute c ∈ references inAttribute) ∧
    unescape (escape inAttribute s) = .ok s :=
  ⟨not_mem_escape (Or.inl rfl), not_mem_escape (Or.inr (Or.inl rfl)),
    fun h => not_mem_escape (Or.inr (Or.inr ⟨rfl, h⟩)), fun _ _ => exists_of_ampersand,
    unescape_escape inAttribute s⟩

/-- A value that looks escaped, with a lone `&` in front of a `;` behind a quote. -/
theorem escape_read_back_lookalike :
    let s := "&lt;\"&;".toList
    let before := "&amp;lt;&quot;".toList
    let after := "amp;;".toList
    escape true s = before ++ '&' :: after ∧ '"' ∉ escape true s ∧
      (∃ t c u, s = t ++ c :: u ∧ before = escape true t ∧
        '&' :: after = escapeChar true c ++ escape true u ∧ escapeChar true c ∈ references true) ∧
      unescape (escape true s) = .ok s := by
  intro s before after
  have hwritten : escape true s = before ++ '&' :: after := by decide
  obtain ⟨-, -, hquote, hampersand, hread⟩ := escape_read_back true s
  exact ⟨hwritten, hquote rfl, hampersand before after hwritten, hread⟩

end LiveMarkup.Markup
