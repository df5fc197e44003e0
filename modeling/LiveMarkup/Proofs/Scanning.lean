import LiveMarkup.Proofs.Detection

/-! Filling is one pass over a text. From the left a text falls in just one way into placeholders
and characters at which none begins; filling puts what the paths resolve to in the place of the
placeholders, keeps the characters in their order, and does not look at what it has put in. -/
namespace LiveMarkup.Placeholder

variable {c : Char} {s rest path path' token token' : List Char} {model : Value} {scope : Scope}

theorem isBlank_eq_false_of_isPathChar (h : isPathChar c = true) : Text.isBlank c = false := by
  rw [← Bool.not_eq_true]
  intro hblank
  simp only [isPathChar, Bool.or_eq_true, Bool.and_eq_true, decide_eq_true_eq, beq_iff_eq] at h
  simp only [Text.isBlank, Bool.or_eq_true, Bool.and_eq_true, decide_eq_true_eq,
    beq_iff_eq] at hblank
  rcases h with ((h | rfl) | rfl) | rfl
  · omega
  all_goals exact absurd hblank (by decide)

theorem isPathChar_eq_false_of_isBlank (h : Text.isBlank c = true) : isPathChar c = false := by
  rw [← Bool.not_eq_true]
  intro hpath
  rw [isBlank_eq_false_of_isPathChar hpath] at h
  cases h

/-- The characters of one kind in front of others end at the first one of another kind. -/
theorem cut_while {p : Char → Bool} {inside : List Char} (rest : List Char)
    (hinside : ∀ c ∈ inside, p c = true) (hrest : ∀ c ∈ rest.head?, p c = false) :
    (inside ++ rest).takeWhile p = inside ∧ (inside ++ rest).dropWhile p = rest := by
  rw [List.takeWhile_append_of_pos hinside, List.dropWhile_append_of_pos hinside]
  cases rest with
  | nil => simp
  | cons c rest =>
    have hc : p c = false := hrest c rfl
    simp [hc]

theorem token?_of_isToken (h : IsToken path token) (rest : List Char) :
    token? (token ++ rest) = some (path, rest) := by
  obtain ⟨left, right, rfl, hne, hpath, hblank⟩ := h
  obtain ⟨first, path', rfl⟩ := List.exists_cons_of_ne_nil hne
  have hopen : pair? '\x7b' (braced (left ++ first :: path' ++ right) ++ rest) =
      some (left ++ (first :: path' ++ (right ++ '\x7d' :: '\x7d' :: rest))) :=
    pair?_eq_some_iff.2 (by simp [braced])
  have hleft := cut_while (first :: path' ++ (right ++ '\x7d' :: '\x7d' :: rest))
    (fun c hc => hblank c (List.mem_append_left right hc)) fun c hc => by
      cases hc
      exact isBlank_eq_false_of_isPathChar (hpath _ (List.mem_cons_self ..))
  have hright := cut_while ('\x7d' :: '\x7d' :: rest)
    (fun c hc => hblank c (List.mem_append_right left hc)) fun c hc => by
      cases hc
      decide
  have hmiddle := cut_while (right ++ '\x7d' :: '\x7d' :: rest) hpath fun c hc => by
    cases right with
    | nil =>
      cases hc
      decide
    | cons b right =>
      cases hc
      exact isPathChar_eq_false_of_isBlank (hblank _ (by simp))
  have hclose : pair? '\x7d' ('\x7d' :: '\x7d' :: rest) = some rest := pair?_eq_some_iff.2 rfl
  rw [token?, hopen]
  simp only [Option.bind_eq_bind, Option.bind_some, hleft.2, hmiddle.1, hmiddle.2, hright.2, hclose]
  rfl

theorem token?_eq_some_iff :
    token? s = some (path, rest) ↔ ∃ token, IsToken path token ∧ s = token ++ rest := by
  constructor
  · exact isToken_of_token?
  · rintro ⟨token, htoken, rfl⟩
    exact token?_of_isToken htoken rest

/-- A text begins with one placeholder at most. -/
theorem IsToken.unique (h : IsToken path token) (h' : IsToken path' token') {rest' : List Char}
    (heq : token ++ rest = token' ++ rest') : path = path' ∧ token = token' ∧ rest = rest' := by
  have hread := token?_of_isToken h rest
  rw [heq, token?_of_isToken h' rest'] at hread
  cases hread
  exact ⟨rfl, List.append_cancel_right heq, rfl⟩

theorem IsToken.exists_cons (h : IsToken path token) : ∃ inner, token = '\x7b' :: inner := by
  obtain ⟨left, right, rfl, -⟩ := h
  exact ⟨_, rfl⟩

theorem token?_eq_none_iff :
    token? s = none ↔ ∀ path token, IsToken path token → ¬ token <+: s := by
  rw [Option.eq_none_iff_forall_ne_some]
  constructor
  · rintro hnone path token htoken ⟨rest, rfl⟩
    exact hnone (path, rest) (token?_eq_some_iff.2 ⟨token, htoken, rfl⟩)
  · rintro h ⟨path, rest⟩ hread
    obtain ⟨token, htoken, rfl⟩ := token?_eq_some_iff.1 hread
    exact h path token htoken (List.prefix_append ..)

/-- A character that stays, or the placeholder of a path as it is written. -/
inductive Part where
  | kept (c : Char)
  | token (path written : List Char)

namespace Part

def written : Part → List Char
  | .kept c => [c]
  | .token _ written => written

/-- A placeholder shows what its path resolves to, and nothing where that is nothing. -/
def filled (model : Value) (scope : Scope) : Part → List Char
  | .kept c => [c]
  | .token path _ =>
    ((Path.resolve (String.ofList path) model scope).map Value.displayChars).getD []

end Part

/-- The parts make up the text, and its placeholders are taken from the left, none of them over
another: where a character is kept no placeholder begins. -/
structure Cuts (s : List Char) (parts : List Part) : Prop where
  written : parts.flatMap Part.written = s
  tokens : ∀ path token, .token path token ∈ parts → IsToken path token
  leftmost : ∀ before c after, parts = before ++ .kept c :: after →
    ∀ path token, IsToken path token → ¬ token <+: c :: after.flatMap Part.written

variable {parts : List Part}

theorem cuts_nil : Cuts [] [] where
  written := rfl
  tokens _ _ h := by cases h
  leftmost before c after h := by simp at h

theorem cuts_kept_iff : Cuts s (.kept c :: parts) ↔
    ∃ rest, s = c :: rest ∧ token? (c :: rest) = none ∧ Cuts rest parts := by
  constructor
  · rintro ⟨rfl, htokens, hleftmost⟩
    refine ⟨_, rfl, token?_eq_none_iff.2 (hleftmost [] c parts rfl), rfl,
      fun path token hmem => htokens path token (List.mem_cons_of_mem _ hmem), ?_⟩
    rintro before c' after rfl
    exact hleftmost (.kept c :: before) c' after rfl
  · rintro ⟨_, rfl, hnone, rfl, htokens, hleftmost⟩
    refine ⟨rfl, fun path token hmem => ?_, fun before c' after heq => ?_⟩
    · cases hmem with
      | tail _ hmem => exact htokens path token hmem
    · cases before with
      | nil =>
        obtain ⟨hc, rfl⟩ := List.cons.inj heq
        cases hc
        exact token?_eq_none_iff.1 hnone
      | cons first before => exact hleftmost before c' after (List.cons.inj heq).2

theorem cuts_token_iff : Cuts s (.token path token :: parts) ↔
    ∃ rest, s = token ++ rest ∧ IsToken path token ∧ Cuts rest parts := by
  constructor
  · rintro ⟨rfl, htokens, hleftmost⟩
    refine ⟨_, rfl, htokens path token (List.mem_cons_self ..), rfl,
      fun path' token' hmem => htokens path' token' (List.mem_cons_of_mem _ hmem), ?_⟩
    rintro before c' after rfl
    exact hleftmost (.token path token :: before) c' after rfl
  · rintro ⟨_, rfl, htoken, rfl, htokens, hleftmost⟩
    refine ⟨rfl, fun path' token' hmem => ?_, fun before c' after heq => ?_⟩
    · cases hmem with
      | head => exact htoken
      | tail _ hmem => exact htokens path' token' hmem
    · cases before with
      | nil => cases (List.cons.inj heq).1
      | cons first before => exact hleftmost before c' after (List.cons.inj heq).2

theorem filled_token (path written : List Char) (model : Value) (scope : Scope) :
    Part.filled model scope (.token path written) = shown path model scope := by
  rw [Part.filled, shown]
  cases Path.resolve (String.ofList path) model scope <;> rfl

/-- A text has one cut, and it is filled part by part. -/
theorem exists_cuts (s : List Char) (model : Value) (scope : Scope) : ∃ parts, Cuts s parts ∧
    (∀ parts', Cuts s parts' → parts' = parts) ∧
      fillChars s model scope = parts.flatMap (Part.filled model scope) := by
  induction s using pieces.induct with
  | case1 =>
    refine ⟨[], cuts_nil, fun parts' hcuts => ?_, by simp [fillChars, pieces]⟩
    cases parts' with
    | nil => rfl
    | cons part parts' =>
      cases part with
      | kept c =>
        obtain ⟨rest, hs, -⟩ := cuts_kept_iff.1 hcuts
        cases hs
      | token path token =>
        obtain ⟨rest, hs, htoken, -⟩ := cuts_token_iff.1 hcuts
        obtain ⟨inner, rfl⟩ := htoken.exists_cons
        cases hs
  | case2 c rest path tail hread hlt ih =>
    obtain ⟨parts, hcuts, hunique, hfill⟩ := ih
    obtain ⟨token, htoken, hs⟩ := isToken_of_token? hread
    refine ⟨.token path token :: parts, cuts_token_iff.2 ⟨tail, hs, htoken, hcuts⟩,
      fun parts' hcuts' => ?_, ?_⟩
    · cases parts' with
      | nil => cases hcuts'.written
      | cons part parts' =>
        cases part with
        | kept c' =>
          obtain ⟨rest', hs', hnone, -⟩ := cuts_kept_iff.1 hcuts'
          rw [← hs', hread] at hnone
          cases hnone
        | token path' token' =>
          obtain ⟨tail', hs', htoken', htail⟩ := cuts_token_iff.1 hcuts'
          obtain ⟨rfl, rfl, rfl⟩ := htoken.unique htoken' (hs.symm.trans hs')
          rw [hunique parts' htail]
    · rw [fillChars, pieces_of_token? hread, List.flatMap_cons, List.flatMap_cons, ← fillChars,
        hfill, filled_token]
      rfl
  | case3 c rest hnone ih =>
    obtain ⟨parts, hcuts, hunique, hfill⟩ := ih
    refine ⟨.kept c :: parts, cuts_kept_iff.2 ⟨rest, rfl, hnone, hcuts⟩, fun parts' hcuts' => ?_,
      ?_⟩
    · cases parts' with
      | nil => cases hcuts'.written
      | cons part parts' =>
        cases part with
        | kept c' =>
          obtain ⟨rest', hs', -, hrest⟩ := cuts_kept_iff.1 hcuts'
          cases hs'
          rw [hunique parts' hrest]
        | token path' token' =>
          obtain ⟨tail', hs', htoken', -⟩ := cuts_token_iff.1 hcuts'
          rw [hs', token?_of_isToken htoken' tail'] at hnone
          cases hnone
    · rw [fillChars, pieces_of_token?_eq_none hnone, List.flatMap_cons, List.flatMap_cons,
        ← fillChars, hfill]
      rfl

/-- Characters that open no brace are kept. -/
theorem Cuts.literal (h : Cuts rest parts) {literal : List Char} (hopen : '\x7b' ∉ literal) :
    Cuts (literal ++ rest) (literal.map .kept ++ parts) := by
  induction literal with
  | nil => exact h
  | cons c literal ih =>
    rw [List.mem_cons, not_or] at hopen
    refine cuts_kept_iff.2 ⟨_, rfl, token?_eq_none_iff.2 fun path token htoken hprefix => ?_,
      ih hopen.2⟩
    obtain ⟨inner, rfl⟩ := htoken.exists_cons
    exact hopen.1 (List.cons_prefix_cons.1 hprefix).1

/-- A literal with a placeholder behind it. -/
structure Stretch where
  literal : List Char
  path : List Char
  token : List Char

namespace Stretch

/-- The literal has no opening brace. -/
def Valid (x : Stretch) : Prop := '\x7b' ∉ x.literal ∧ IsToken x.path x.token

def written (x : Stretch) : List Char := x.literal ++ x.token

def cut (x : Stretch) : List Part := x.literal.map .kept ++ [.token x.path x.token]

end Stretch

theorem cuts_stretches {row : List Stretch} {last : List Char} (hrow : ∀ x ∈ row, x.Valid)
    (hlast : '\x7b' ∉ last) :
    Cuts (row.flatMap Stretch.written ++ last) (row.flatMap Stretch.cut ++ last.map .kept) := by
  induction row with
  | nil =>
    have h := cuts_nil.literal hlast
    rwa [List.append_nil, List.append_nil] at h
  | cons x row ih =>
    obtain ⟨⟨hliteral, htoken⟩, hrest⟩ := List.forall_mem_cons.1 hrow
    have h := (cuts_token_iff.2 ⟨_, rfl, htoken, ih hrest⟩).literal hliteral
    simpa [Stretch.written, Stretch.cut] using h

theorem flatMap_filled_kept (model : Value) (scope : Scope) (literal : List Char) :
    (literal.map Part.kept).flatMap (Part.filled model scope) = literal := by
  rw [List.flatMap_map]
  exact List.flatMap_singleton' literal

/-- A text is cut in one way into its leftmost placeholders and the characters between them, and
what is filled is what the parts show, one after another. So literals without an opening brace and
the placeholders between them give the literals and what the paths resolve to. -/
theorem fill_one_pass (text : String) (model : Value) (scope : Scope) :
    (∃! parts, Cuts text.toList parts) ∧
    (∀ parts, Cuts text.toList parts →
      (fill text model scope).toList = parts.flatMap (Part.filled model scope)) ∧
    ∀ (row : List Stretch) (last : List Char), (∀ x ∈ row, x.Valid) → '\x7b' ∉ last →
      text.toList = row.flatMap Stretch.written ++ last →
      (fill text model scope).toList = row.flatMap (fun x =>
        x.literal ++ Part.filled model scope (.token x.path x.token)) ++ last := by
  obtain ⟨parts, hcuts, hunique, hfill⟩ := exists_cuts text.toList model scope
  have hshown : ∀ parts', Cuts text.toList parts' →
      (fill text model scope).toList = parts'.flatMap (Part.filled model scope) := by
    intro parts' hcuts'
    rw [hunique parts' hcuts', ← hfill, fill, String.toList_ofList]
  refine ⟨⟨parts, hcuts, hunique⟩, hshown, fun row last hrow hlast htext => ?_⟩
  rw [hshown _ (htext ▸ cuts_stretches hrow hlast), List.flatMap_append, flatMap_filled_kept,
    List.flatMap_assoc]
  congr 2
  funext x
  rw [Stretch.cut, List.flatMap_append, flatMap_filled_kept, List.flatMap_singleton]

/-- A value that looks like a placeholder, put between braces. -/
theorem fill_one_pass_lookalike :
    let model := Value.map [("name", .string "\x7b\x7bname\x7d\x7d")]
    let text := "\x7d\x7b\x7b name\n\x7d\x7d\x7b\x7ba..b\x7d\x7d\x7d"
    let row : List Stretch := [⟨"\x7d".toList, "name".toList, "\x7b\x7b name\n\x7d\x7d".toList⟩,
      ⟨[], "a..b".toList, "\x7b\x7ba..b\x7d\x7d".toList⟩]
    (∀ x ∈ row, x.Valid) ∧ '\x7b' ∉ ['\x7d'] ∧
      text.toList = row.flatMap Stretch.written ++ ['\x7d'] ∧
      (fill text model .empty).toList = "\x7d\x7b\x7bname\x7d\x7d\x7d".toList := by
  intro model text row
  have hrow : ∀ x ∈ row, x.Valid := by
    simp only [row, List.forall_mem_cons]
    refine ⟨⟨by decide, [' '], ['\n'], by decide, by decide, List.all_eq_true.1 ?_,
      List.all_eq_true.1 ?_⟩, ⟨by decide, [], [], by decide, by decide, List.all_eq_true.1 ?_,
      nofun⟩, nofun⟩
    all_goals decide
  have hlast : '\x7b' ∉ ['\x7d'] := by decide
  have htext : text.toList = row.flatMap Stretch.written ++ ['\x7d'] := by decide
  refine ⟨hrow, hlast, htext, ?_⟩
  rw [(fill_one_pass text model .empty).2.2 row ['\x7d'] hrow hlast htext]
  decide +kernel

end LiveMarkup.Placeholder
