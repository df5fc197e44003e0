import LiveMarkup.Markup.Error

/-! Markup as a row of events: texts, data sections, opening, empty and closing tags, and pieces
that leave nothing in a document. A byte-order mark at the beginning is dropped and not counted;
positions count the bytes of UTF-8. -/
namespace LiveMarkup.Markup

inductive Event where
  /-- Text with its references still in it. -/
  | text (raw : List Char)
  /-- Text that is taken as it is. -/
  | data (content : List Char)
  /-- The content of an opening tag, name first. -/
  | opening (content : List Char)
  | empty (content : List Char)
  | closing (name : List Char)
  /-- A comment, a processing instruction, a declaration or a document type. -/
  | skipped
  deriving DecidableEq

/-- An event and the byte at which it begins. -/
structure Located where
  position : Nat
  event : Event
  deriving DecidableEq

/-- Where a row of events breaks off. -/
structure Failure where
  position : Nat
  cause : Malformation
  deriving DecidableEq

/-- The text before the first occurrence of a mark, and the text after it. -/
def cutAt (mark : List Char) : List Char → Option (List Char × List Char)
  | [] => none
  | c :: rest =>
    if mark.isPrefixOf (c :: rest) then some ([], (c :: rest).drop mark.length)
    else (cutAt mark rest).map fun (before, after) => (c :: before, after)

/-- The content of a tag up to the first `>` outside quotes, and the text after it. -/
def cutTag (quote : Option Char) : List Char → Option (List Char × List Char)
  | [] => none
  | c :: rest =>
    match quote with
    | some q =>
      (cutTag (if c = q then none else some q) rest).map fun (inner, t) => (c :: inner, t)
    | none =>
      if c = '>' then some ([], rest)
      else
        let quote := if c = '"' ∨ c = '\x27' then some c else none
        (cutTag quote rest).map fun (inner, t) => (c :: inner, t)

/-- The content of a document type up to the `>` that balances its `<`. -/
def cutBalanced (depth : Nat) : List Char → Option (List Char × List Char)
  | [] => none
  | c :: rest =>
    if c = '>' ∧ depth = 0 then some ([], rest)
    else
      let depth := if c = '<' then depth + 1 else if c = '>' then depth - 1 else depth
      (cutBalanced depth rest).map fun (inner, t) => (c :: inner, t)

/-- The letters of ASCII without regard to case. -/
def lower (c : Char) : Char :=
  if 65 ≤ c.toNat ∧ c.toNat ≤ 90 then Char.ofNat (c.toNat + 32) else c

/-- The text after a beginning, given in lower case, of either case. -/
def afterWord? (word s : List Char) : Option (List Char) :=
  if (s.take word.length).map lower = word then some (s.drop word.length) else none

/-- The text after a beginning. -/
def after? (mark s : List Char) : Option (List Char) :=
  if mark.isPrefixOf s then some (s.drop mark.length) else none

/-- Blanks at the end of a closing name do not belong to it, unless there is nothing else. -/
def closingName (content : List Char) : List Char :=
  if content.all isSpace then content else (content.reverse.dropWhile isSpace).reverse

/-- An event for the content of a tag: a slash in front closes, a slash at the end makes empty. -/
def tagEvent (content : List Char) : Event :=
  match content with
  | '/' :: name => .closing (closingName name)
  | content =>
    if content.getLast? = some '/' then .empty content.dropLast else .opening content

/-- A document type, from behind `<!` on; it must have a name. -/
def doctype (position : Nat) (s : List Char) : Except Failure (Event × List Char) :=
  match afterWord? ['d', 'o', 'c', 't', 'y', 'p', 'e'] s with
  | none => .error ⟨position, .doctypeNotClosed⟩
  | some body =>
    match cutBalanced 0 body with
    | none => .error ⟨position, .doctypeNotClosed⟩
    | some (content, rest) =>
      if content.all isSpace then
        .error ⟨position + 9 + utf8Length content, .doctypeWithoutName⟩
      else .ok (.skipped, rest)

/-- A declaration, from behind `<!` on: data, comment or document type by its next character. -/
def declaration (position : Nat) (s : List Char) : Except Failure (Event × List Char) :=
  match s with
  | [] => .error ⟨position, .unknownMark⟩
  | c :: _ =>
    if c = '[' then
      match (after? ['[', 'C', 'D', 'A', 'T', 'A', '['] s).bind (cutAt [']', ']', '>']) with
      | some (content, rest) => .ok (.data content, rest)
      | none => .error ⟨position, .dataNotClosed⟩
    else if c = '-' then
      match (after? ['-', '-'] s).bind (cutAt ['-', '-', '>']) with
      | some (_, rest) => .ok (.skipped, rest)
      | none => .error ⟨position, .commentNotClosed⟩
    else if lower c = 'd' then doctype position s
    else .error ⟨position, .unknownMark⟩

/-- A processing instruction, from behind `<?` on; its closing mark needs a mark of its own. -/
def instruction (position : Nat) (s : List Char) : Except Failure (Event × List Char) :=
  if s.head? = some '>' then .error ⟨position, .instructionNotClosed⟩
  else match cutAt ['?', '>'] s with
    | some (_, rest) => .ok (.skipped, rest)
    | none => .error ⟨position, .instructionNotClosed⟩

/-- The event that begins with a `<`, from behind it on, and the text after the event. -/
def tag (position : Nat) (s : List Char) : Except Failure (Event × List Char) :=
  match s with
  | '!' :: rest => declaration position rest
  | '?' :: rest => instruction position rest
  | s =>
    match cutTag none s with
    | some (content, rest) => .ok (tagEvent content, rest)
    | none => .error ⟨position, .tagNotClosed⟩

/-- The first event of a text that is not empty, and the text after the event. -/
def nextEvent (position : Nat) (c : Char) (rest : List Char) :
    Except Failure (Event × List Char) :=
  if c = '<' then tag position rest
  else .ok (.text (c :: rest.takeWhile (· != '<')), rest.dropWhile (· != '<'))

theorem cutAt_length {mark s before rest : List Char} (h : cutAt mark s = some (before, rest)) :
    rest.length ≤ s.length := by
  induction s generalizing before with
  | nil => cases h
  | cons c s ih =>
    simp only [cutAt] at h
    split at h
    · simp only [Option.some.injEq, Prod.mk.injEq] at h
      rw [← h.2, List.length_drop]
      omega
    · obtain ⟨⟨b, r⟩, hr, he⟩ := Option.map_eq_some_iff.1 h
      cases he
      exact Nat.le_succ_of_le (ih hr)

theorem cutTag_length {quote : Option Char} {s inner rest : List Char}
    (h : cutTag quote s = some (inner, rest)) : rest.length ≤ s.length := by
  induction s generalizing quote inner with
  | nil => cases h
  | cons c s ih =>
    cases quote with
    | some q =>
      obtain ⟨⟨b, r⟩, hr, he⟩ := Option.map_eq_some_iff.1 h
      cases he
      exact Nat.le_succ_of_le (ih hr)
    | none =>
      simp only [cutTag] at h
      split at h
      · cases h
        exact Nat.le_succ _
      · obtain ⟨⟨b, r⟩, hr, he⟩ := Option.map_eq_some_iff.1 h
        cases he
        exact Nat.le_succ_of_le (ih hr)

theorem cutBalanced_length {depth : Nat} {s inner rest : List Char}
    (h : cutBalanced depth s = some (inner, rest)) : rest.length ≤ s.length := by
  induction s generalizing depth inner with
  | nil => cases h
  | cons c s ih =>
    simp only [cutBalanced] at h
    split at h
    · cases h
      exact Nat.le_succ _
    · obtain ⟨⟨b, r⟩, hr, he⟩ := Option.map_eq_some_iff.1 h
      cases he
      exact Nat.le_succ_of_le (ih hr)

theorem doctype_length {position : Nat} {s rest : List Char} {e : Event}
    (h : doctype position s = .ok (e, rest)) : rest.length ≤ s.length := by
  simp only [doctype, afterWord?] at h
  split at h
  · cases h
  · next body hbody =>
    split at hbody
    · cases hbody
      split at h
      · cases h
      · next hcut =>
        split at h
        · cases h
        · cases h
          have := cutBalanced_length hcut
          rw [List.length_drop] at this
          omega
    · cases hbody

theorem length_of_after_cutAt {word mark s before rest : List Char}
    (h : (after? word s).bind (cutAt mark) = some (before, rest)) : rest.length ≤ s.length := by
  obtain ⟨body, hbody, hcut⟩ := Option.bind_eq_some_iff.1 h
  have hle := cutAt_length hcut
  simp only [after?] at hbody
  split at hbody
  · cases hbody
    rw [List.length_drop] at hle
    omega
  · cases hbody

theorem declaration_length {position : Nat} {s rest : List Char} {e : Event}
    (h : declaration position s = .ok (e, rest)) : rest.length ≤ s.length := by
  unfold declaration at h
  split at h
  · cases h
  · split at h
    · split at h
      · next hcut =>
        cases h
        exact length_of_after_cutAt hcut
      · cases h
    · split at h
      · split at h
        · next hcut =>
          cases h
          exact length_of_after_cutAt hcut
        · cases h
      · split at h
        · exact doctype_length h
        · cases h

theorem tag_length {position : Nat} {s rest : List Char} {e : Event}
    (h : tag position s = .ok (e, rest)) : rest.length ≤ s.length := by
  unfold tag at h
  split at h
  · exact Nat.le_succ_of_le (declaration_length h)
  · unfold instruction at h
    split at h
    · cases h
    · split at h
      · next hcut =>
        cases h
        exact Nat.le_succ_of_le (cutAt_length hcut)
      · cases h
  · split at h
    · next hcut =>
      cases h
      exact cutTag_length hcut
    · cases h

/-- An event takes at least one character. -/
theorem nextEvent_length {position : Nat} {c : Char} {s rest : List Char} {e : Event}
    (h : nextEvent position c s = .ok (e, rest)) : rest.length ≤ s.length := by
  unfold nextEvent at h
  split at h
  · exact tag_length h
  · cases h
    exact (List.dropWhile_sublist _).length_le

/-- All events in their order, up to the first failure. The position of an event is what its
predecessors take in bytes. -/
def eventsFrom (position : Nat) (s : List Char) : List Located × Option Failure :=
  match s with
  | [] => ([], none)
  | c :: rest =>
    match h : nextEvent position c rest with
    | .error failure => ([], some failure)
    | .ok (event, tail) =>
      have := nextEvent_length h
      let next := position + (utf8Length (c :: rest) - utf8Length tail)
      let (events, failure) := eventsFrom next tail
      (⟨position, event⟩ :: events, failure)
termination_by s.length
decreasing_by (simp only [List.length_cons]; omega)

/-- The text without a byte-order mark in front. -/
def withoutMark (s : List Char) : List Char :=
  match s with
  | '\ufeff' :: rest => rest
  | s => s

def events (text : String) : List Located × Option Failure :=
  eventsFrom 0 (withoutMark text.toList)

end LiveMarkup.Markup
