import LiveMarkup.Proofs.Filling
import LiveMarkup.Proofs.Document.Reachable

/-! Which texts are taken for sources: those where two opening braces are closed on the same line.
Every text that filling changes holds a placeholder; it is taken for a source unless each of its
braced parts, that placeholder too, runs over the end of a line. -/
namespace LiveMarkup.Placeholder

variable {c : Char} {s rest path token inner : List Char} {text : String} {model : Value}
  {scope : Scope}

/-- Something between two opening and two closing braces. -/
def braced (inner : List Char) : List Char := '\x7b' :: '\x7b' :: (inner ++ ['\x7d', '\x7d'])

/-- How the placeholder of a path may be written. -/
def IsToken (path token : List Char) : Prop :=
  ∃ left right, token = braced (left ++ path ++ right) ∧ path ≠ [] ∧
    (∀ c ∈ path, isPathChar c = true) ∧ ∀ c ∈ left ++ right, Text.isBlank c = true

/-- Every braced part of a text runs over the end of a line. -/
def Broken (text : String) : Prop := ∀ inner, braced inner <:+: text.toList → '\n' ∈ inner

theorem pair?_eq_some_iff : pair? c s = some rest ↔ s = c :: c :: rest := by
  constructor
  · intro h
    unfold pair? at h
    split at h
    · next a b rest' =>
      split at h
      · next heq =>
        obtain ⟨rfl, rfl⟩ := heq
        rw [Option.some.inj h]
      · cases h
    · cases h
  · rintro rfl
    exact if_pos ⟨rfl, rfl⟩

theorem closesOnLine_iff :
    closesOnLine s = true ↔ ∃ inner, inner ++ ['\x7d', '\x7d'] <+: s ∧ '\n' ∉ inner := by
  induction s with
  | nil => simp [closesOnLine]
  | cons c rest ih =>
    rw [closesOnLine]
    by_cases hc : c = '\n'
    · subst hc
      rw [if_pos rfl]
      refine iff_of_false (by decide) ?_
      rintro ⟨inner, hprefix, hline⟩
      cases inner with
      | nil => exact absurd (List.cons_prefix_cons.1 hprefix).1 (by decide)
      | cons a inner =>
        exact hline ((List.cons_prefix_cons.1 hprefix).1 ▸ List.mem_cons_self ..)
    · rw [if_neg hc, Bool.or_eq_true, ih, Option.isSome_iff_exists]
      constructor
      · rintro (⟨tail, htail⟩ | ⟨inner, hprefix, hline⟩)
        · rw [pair?_eq_some_iff.1 htail]
          exact ⟨[], ⟨tail, rfl⟩, by simp⟩
        · exact ⟨c :: inner, List.cons_prefix_cons.2 ⟨rfl, hprefix⟩,
            by simp [Ne.symm hc, hline]⟩
      · rintro ⟨inner, hprefix, hline⟩
        cases inner with
        | nil =>
          obtain ⟨tail, htail⟩ := hprefix
          exact Or.inl ⟨tail, pair?_eq_some_iff.2 htail.symm⟩
        | cons a inner =>
          obtain ⟨-, hrest⟩ := List.cons_prefix_cons.1 hprefix
          exact Or.inr ⟨inner, hrest, fun h => hline (List.mem_cons_of_mem a h)⟩

theorem braced_prefix_iff : braced inner <+: s ↔
    ∃ rest, pair? '\x7b' s = some rest ∧ inner ++ ['\x7d', '\x7d'] <+: rest := by
  constructor
  · rintro ⟨tail, rfl⟩
    exact ⟨_, pair?_eq_some_iff.2 rfl, List.prefix_append ..⟩
  · rintro ⟨rest, hrest, hprefix⟩
    rw [pair?_eq_some_iff.1 hrest]
    exact List.cons_prefix_cons.2 ⟨rfl, List.cons_prefix_cons.2 ⟨rfl, hprefix⟩⟩

theorem appears_cons : appears (c :: rest) = true ↔
    (∃ inner, braced inner <+: c :: rest ∧ '\n' ∉ inner) ∨ appears rest = true := by
  simp only [braced_prefix_iff]
  rw [appears, Bool.or_eq_true]
  refine or_congr_left ?_
  cases hpair : pair? '\x7b' (c :: rest) with
  | none => simp
  | some after => simp [closesOnLine_iff]

theorem appears_iff : appears s = true ↔ ∃ inner, braced inner <:+: s ∧ '\n' ∉ inner := by
  induction s with
  | nil => simp [appears, braced]
  | cons c rest ih =>
    rw [appears_cons, ih, ← exists_or]
    exact exists_congr fun inner => by rw [List.infix_cons_iff, or_and_right]

theorem appearsIn_eq_false_iff : appearsIn text = false ↔ Broken text := by
  rw [← Bool.not_eq_true, appearsIn, appears_iff]
  simp [Broken]

instance : Decidable (Broken text) := decidable_of_iff _ appearsIn_eq_false_iff

theorem ite_appearsIn {α : Type} (filled kept : α) :
    (if appearsIn text then filled else kept) = if Broken text then kept else filled := by
  by_cases h : appearsIn text = true
  · rw [if_pos h, if_neg fun hbroken => by simp [appearsIn_eq_false_iff.2 hbroken] at h]
  · rw [if_neg h, if_pos (appearsIn_eq_false_iff.1 (by simpa using h))]

theorem isToken_of_token? (h : token? s = some (path, rest)) :
    ∃ token, IsToken path token ∧ s = token ++ rest := by
  simp only [token?, Option.bind_eq_bind, Option.bind_eq_some_iff] at h
  obtain ⟨inner, hopen, tail, hclose, h⟩ := h
  split at h
  · cases h
  · next hpath =>
    cases h
    rw [pair?_eq_some_iff] at hopen hclose
    refine ⟨_, ⟨inner.takeWhile Text.isBlank,
      ((inner.dropWhile Text.isBlank).dropWhile isPathChar).takeWhile Text.isBlank, rfl,
      by simpa using hpath, fun c => List.mem_takeWhile_imp, fun c hc => ?_⟩, ?_⟩
    · exact (List.mem_append.1 hc).elim List.mem_takeWhile_imp List.mem_takeWhile_imp
    · have hcut : inner = inner.takeWhile Text.isBlank ++
          (inner.dropWhile Text.isBlank).takeWhile isPathChar ++
          ((inner.dropWhile Text.isBlank).dropWhile isPathChar).takeWhile Text.isBlank ++
          '\x7d' :: '\x7d' :: rest := by
        rw [← hclose, List.append_assoc, List.takeWhile_append_dropWhile, List.append_assoc,
          List.takeWhile_append_dropWhile, List.takeWhile_append_dropWhile]
      rw [hopen]
      conv_lhs => rw [hcut]
      simp [braced]

theorem pieces_of_token? {tail : List Char} (h : token? (c :: rest) = some (path, tail)) :
    pieces (c :: rest) = .token path :: pieces tail := by
  rw [pieces]
  split
  · next heq =>
    cases h.symm.trans heq
    rfl
  · next heq => cases h.symm.trans heq

theorem pieces_of_token?_eq_none (h : token? (c :: rest) = none) :
    pieces (c :: rest) = .plain c :: pieces rest := by
  rw [pieces]
  split
  · next heq => cases h.symm.trans heq
  · rfl

/-- What filling changes holds a placeholder that shows something else than itself. -/
theorem exists_token_of_fillChars_ne (h : fillChars s model scope ≠ s) :
    ∃ path token, IsToken path token ∧ token <:+: s ∧ shown path model scope ≠ token := by
  induction s using pieces.induct with
  | case1 => exact absurd (by simp [fillChars, pieces]) h
  | case2 c rest path tail htoken hlt ih =>
    obtain ⟨token, hpath, hs⟩ := isToken_of_token? htoken
    rw [fillChars, pieces_of_token? htoken, List.flatMap_cons] at h
    rw [hs] at h ⊢
    by_cases hshown : shown path model scope = token
    · have htail : fillChars tail model scope ≠ tail := fun heq =>
        h (congrArg₂ (· ++ ·) hshown heq)
      obtain ⟨path', token', hpath', hpart, hne⟩ := ih htail
      exact ⟨path', token', hpath', hpart.trans (List.suffix_append ..).isInfix, hne⟩
    · exact ⟨path, token, hpath, (List.prefix_append ..).isInfix, hshown⟩
  | case3 c rest hnone ih =>
    rw [fillChars, pieces_of_token?_eq_none hnone, List.flatMap_cons] at h
    have hrest : fillChars rest model scope ≠ rest := fun heq => h (congrArg (c :: ·) heq)
    obtain ⟨path', token', hpath', hpart, hne⟩ := ih hrest
    exact ⟨path', token', hpath', List.infix_cons hpart, hne⟩

/-- A path and the braces stand on one line, so that the line ends among the blanks. -/
theorem IsToken.line_feed_of_broken (htoken : IsToken path token) (hpart : token <:+: text.toList)
    (h : Broken text) : ∃ left right, token = braced (left ++ path ++ right) ∧
      '\n' ∈ left ++ right := by
  obtain ⟨left, right, rfl, -, hpath, -⟩ := htoken
  refine ⟨left, right, rfl, ?_⟩
  have hline := h _ hpart
  have hnot : '\n' ∉ path := fun hmem => absurd (hpath _ hmem) (by decide)
  simpa [hnot] using hline

end LiveMarkup.Placeholder

namespace LiveMarkup

open Placeholder

namespace Document

variable {d : Document} {id : NodeId} {p : Option NodeId} {kind kind' : NodeKind}
  {notes : List (String × String)} {kids : List Shape}

theorem directText_of_textFilled {source : String} {model : Value} {scope : Scope} {d' : Document}
    {notes' : List (String × String)} {kids' : List Shape} {p' : Option NodeId}
    (hs : (⟨id, kind, notes, kids⟩ : Shape).In d p)
    (hkids : Shape.TextFilled source model scope kids kids')
    (hs' : (⟨id, kind', notes', kids'⟩ : Shape).In d' p') : d'.directText id =
      if appearsIn source then Text.trim (Placeholder.fill source model scope)
      else d.directText id := by
  rw [directText_of_shape hs, directText_of_shape hs']
  rw [Shape.TextFilled] at hkids
  split at hkids
  · next happears =>
    obtain ⟨new, hnew, rfl⟩ := hkids
    rw [if_pos happears, Shape.filterMap_content?_replaceWhere hnew.isText, hnew.filterMap_content?]
  · next happears => rw [if_neg happears, hkids]

theorem attributes_of_shape (hs : (⟨id, kind, notes, kids⟩ : Shape).In d p) :
    d.attributes id = match kind with
      | .element _ attributes => attributes
      | _ => [] := by
  rw [Document.attributes, hs.1]
  cases kind <;> rfl

/-- The source of a node's direct text. -/
def textSourceOf (d : Document) (id : NodeId) : String :=
  d.sourceOr id textSource (d.directText id)

/-- The source of an attribute of a node. -/
def attributeSourceOf (d : Document) (id : NodeId) (a : String × String) : String :=
  d.sourceOr id (attributeSource a.1) a.2

/-- What filling a node that is not a text leaves of its direct text and its attributes. -/
theorem Sound.runs_fill_shown (hd : d.Sound) (hid : d.text? id = none) (model : Value)
    (scope : Scope) : Runs (fill id model scope) d fun _ d' =>
      (d'.directText id = if appearsIn (d.textSourceOf id)
        then Text.trim (Placeholder.fill (d.textSourceOf id) model scope) else d.directText id) ∧
      ∀ a ∈ d.attributes id, d'.attribute? id a.1 = some (if appearsIn (d.attributeSourceOf id a)
        then Placeholder.fill (d.attributeSourceOf id a) model scope else a.2) := by
  by_cases hlive : d.contains id = true
  · obtain ⟨⟨id, kind, notes, kids⟩, rfl, hs⟩ := hd.exists_shape hlive
    rw [Shape.id_mk] at hid hs ⊢
    have hkind : ∀ content, kind ≠ .text content := by
      rintro content rfl
      simp [text?, hs.1] at hid
    simp only [textSourceOf, attributeSourceOf, sourceOr_eq_noted hs, attributes_of_shape hs]
    have htext : noted notes textSource (Tree.directText (Shape.treesAll kids)) =
        noted notes textSource (d.directText id) := by rw [hd.directText_eq hs]
    cases kind with
    | text content => exact absurd rfl (hkind content)
    | root =>
      refine (hd.runs_fillText hs hkind htext model scope).bind ?_
      rintro - d' ⟨-, kids', hkids, hs', -⟩
      refine .get ?_
      rw [attributes_of_shape hs']
      exact .pure ⟨directText_of_textFilled hs hkids hs', fun a ha => absurd ha List.not_mem_nil⟩
    | element tag attributes =>
      refine (hd.runs_fill hs htext model scope).mono ?_
      rintro - d' ⟨hd', kids', hkids, hs', -⟩
      refine ⟨directText_of_textFilled hs hkids hs', fun a ha => ?_⟩
      have hnodup := hd'.nodup_keys id
      rw [attribute?]
      rw [attributes_of_shape hs'] at hnodup ⊢
      exact Entries.get?_of_mem hnodup (List.mem_map_of_mem (f := fillPair notes model scope) ha)
  · have hdead : d.node? id = none := not_contains_iff.1 (by simpa using hlive)
    have htext : d.directText id = "" := by simp [directText, children, hdead]
    have hsource : d.textSourceOf id = "" := by simp [textSourceOf, sourceOr, note?, hdead, htext]
    have hattributes : d.attributes id = [] := by simp [attributes, hdead]
    have hnot : ¬ appearsIn "" = true := by decide
    rw [hsource, hattributes, if_neg hnot]
    have htextRun : Runs (fillText id model scope) d fun _ d' => d' = d := by
      refine .get ?_
      rw [← textSourceOf, hsource, if_neg hnot]
      exact .pure rfl
    refine htextRun.bind ?_
    rintro - d' rfl
    refine .get ?_
    rw [hattributes]
    exact .pure ⟨rfl, fun a ha => absurd ha List.not_mem_nil⟩

/-- What filling changes in a text is a placeholder that shows something else than itself, and the
text is taken for a source unless all its braced parts run over the end of a line, its placeholders
among their blanks. Filling a node that is not a text, where it does not stop for want of slots,
fills all sources but these. -/
theorem Reachable.fill_noticed (hd : d.Reachable) (hid : d.text? id = none) (model : Value)
    (scope : Scope) :
    (∀ text, Placeholder.fill text model scope ≠ text →
      (∃ path token, IsToken path token ∧ token <:+: text.toList ∧
        shown path model scope ≠ token) ∧
      (appearsIn text = true ↔ ¬ Broken text) ∧
      (Broken text → ∀ path token, IsToken path token → token <:+: text.toList →
        ∃ left right, token = braced (left ++ path ++ right) ∧ '\n' ∈ left ++ right)) ∧
    ((∃ d', fill id model scope d = .error .outOfSlots d') ∨
      ∃ d', fill id model scope d = .ok ⟨⟩ d' ∧
        (d'.directText id = if Broken (d.textSourceOf id) then d.directText id
          else Text.trim (Placeholder.fill (d.textSourceOf id) model scope)) ∧
        ∀ a ∈ d.attributes id, d'.attribute? id a.1 = some (if Broken (d.attributeSourceOf id a)
          then a.2 else Placeholder.fill (d.attributeSourceOf id a) model scope)) := by
  refine ⟨fun text hne => ⟨?_, ?_, fun hbroken path token htoken hpart =>
    htoken.line_feed_of_broken hpart hbroken⟩, ?_⟩
  · refine exists_token_of_fillChars_ne fun heq => hne ?_
    rw [Placeholder.fill, heq, String.ofList_toList]
  · rw [← appearsIn_eq_false_iff, Bool.not_eq_false]
  · obtain ⟨⟨⟩, d', hok, htext, hattributes⟩ | ⟨d', herror, -⟩ :=
      (hd.sound.runs_fill_shown hid model scope).cases
    · simp only [ite_appearsIn] at htext hattributes
      exact Or.inr ⟨d', hok, htext, hattributes⟩
    · exact Or.inl ⟨d', herror⟩

/-- An attribute with its placeholder on one line, a text with its placeholder on two. -/
theorem fill_noticed_two_lines :
    let one := "\x7b\x7bname\x7d\x7d"
    let two := "\x7b\x7b\nname\x7d\x7d"
    let model := Value.map [("name", .string "x")]
    ∃ d d', read ⟨0⟩ ("<p class=\"" ++ one ++ "\">" ++ two ++ "</p>") = .ok d ∧ d.Reachable ∧
      d.text? ⟨1, 0⟩ = none ∧ fill ⟨1, 0⟩ model .empty d = .ok ⟨⟩ d' ∧
      d'.attribute? ⟨1, 0⟩ "class" = some "x" ∧ d'.directText ⟨1, 0⟩ = two := by
  intro one two model
  have hrun : (read ⟨0⟩ ("<p class=\"" ++ one ++ "\">" ++ two ++ "</p>")).toOption.any (fun d =>
      d.text? ⟨1, 0⟩ = none && d.attributes ⟨1, 0⟩ = [("class", one)] &&
        d.attributeSourceOf ⟨1, 0⟩ ("class", one) = one && d.textSourceOf ⟨1, 0⟩ = two &&
        d.directText ⟨1, 0⟩ = two &&
        Succeeds (fill ⟨1, 0⟩ model .empty) d fun _ _ => true) = true := by
    decide +kernel
  obtain ⟨d, hread, htest⟩ := exists_of_toOption_any hrun
  simp only [Bool.and_eq_true, decide_eq_true_eq] at htest
  obtain ⟨⟨⟨⟨⟨hid, hattributes⟩, hclass⟩, htext⟩, hdirect⟩, hsucceeds⟩ := htest
  obtain ⟨⟨⟩, d', hok, -⟩ := exists_of_succeeds hsucceeds
  have hd : d.Reachable := .of_read hread
  refine ⟨d, d', hread, hd, hid, hok, ?_⟩
  obtain ⟨_, herror⟩ | ⟨d₁, hok₁, hnow, hvalue⟩ := (hd.fill_noticed hid model .empty).2
  · cases hok.symm.trans herror
  · cases hok.symm.trans hok₁
    have hone : ¬ Broken one := by decide
    have htwo : Broken two := by decide
    have hfill : Placeholder.fill one model .empty = "x" := by decide +kernel
    constructor
    · rw [hvalue ("class", one) (by simp [hattributes]), hclass, if_neg hone, hfill]
    · rw [hnow, htext, if_pos htwo, hdirect]

/-- A placeholder with the end of a line among its blanks is filled, but not noticed. -/
theorem not_appearsIn_of_fill_ne : ¬ ∀ (text : String) (model : Value) (scope : Scope),
    Placeholder.fill text model scope ≠ text → appearsIn text = true := fun h =>
  absurd (h "\x7b\x7b\nname\x7d\x7d" (.map [("name", .string "x")]) .empty (by decide +kernel))
    (by decide)

end Document
end LiveMarkup
