import LiveMarkup.Proofs.Markup.Spelling

/-! How the events of a markup nest: what a single event is worth, which elements are open after
some events, and the row of trees that stands behind events whose tags pair off. -/
namespace LiveMarkup

namespace Markup

/-- The attribute that a written one means: its name must be valid, and so must the references in
its value be. -/
def RawAttribute.meant? (a : RawAttribute) : Option (String × String) :=
  if isAttributeName a.name then
    (unescape a.value).toOption.map fun value => (a.name, String.ofList value)
  else none

/-- The tag and the attributes that the content of a tag means, if all of it is valid. -/
def meantTag? (content : List Char) : Option (String × List (String × String)) :=
  if isTagName (String.ofList (tagName content)) ∧ (tagAttributes content).2 = none then
    ((tagAttributes content).1.mapM RawAttribute.meant?).map (String.ofList (tagName content), ·)
  else none

/-- Whether an event is valid by itself. -/
def Event.isValid : Event → Bool
  | .text raw => (unescape raw).toOption.isSome
  | .opening content => (meantTag? content).isSome
  | .empty content => (meantTag? content).isSome
  | .data _ => true
  | .closing _ => true
  | .skipped => true

/-- The names of the open elements after an event, innermost first. An element is closed by its own
name only, and only when it is the innermost one. -/
def Event.nest (names : List String) : Event → Option (List String)
  | .opening content => some (String.ofList (tagName content) :: names)
  | .closing found =>
    match names with
    | [] => none
    | name :: outer => if name = String.ofList found then some outer else none
  | _ => some names

/-- The names of the elements that events leave open, innermost first; none if a closing tag among
them has nothing to close. -/
def openNames (names : List String) (events : List Located) : Option (List String) :=
  events.foldlM (fun names e => e.event.nest names) names

/-- The row of trees that events read as, if their tags nest. Texts are still in pieces. -/
inductive Nests : List Located → List Tree → Prop
  | nil : Nests [] []
  | text {position : Nat} {raw content : List Char} {events : List Located} {row : List Tree}
      (hraw : unescape raw = .ok content) (h : Nests events row) :
      Nests (⟨position, .text raw⟩ :: events) (.text (String.ofList content) :: row)
  | data {position : Nat} {content : List Char} {events : List Located} {row : List Tree}
      (h : Nests events row) :
      Nests (⟨position, .data content⟩ :: events) (.text (String.ofList content) :: row)
  | skipped {position : Nat} {events : List Located} {row : List Tree} (h : Nests events row) :
      Nests (⟨position, .skipped⟩ :: events) row
  | empty {position : Nat} {content : List Char} {tag : String}
      {attributes : List (String × String)} {events : List Located} {row : List Tree}
      (htag : meantTag? content = some (tag, attributes)) (h : Nests events row) :
      Nests (⟨position, .empty content⟩ :: events) (.element tag attributes [] :: row)
  | element {position position' : Nat} {content name : List Char} {tag : String}
      {attributes : List (String × String)} {inner events : List Located}
      {children row : List Tree} (htag : meantTag? content = some (tag, attributes))
      (hname : String.ofList name = tag) (hinner : Nests inner children) (h : Nests events row) :
      Nests (⟨position, .opening content⟩ :: inner ++ ⟨position', .closing name⟩ :: events)
        (.element tag attributes children :: row)

variable {tag : String} {attributes : List (String × String)} {content : List Char}
  {events : List Located} {row : List Tree} {names : List String} {e : Located}

theorem meantTag?_eq_some_iff : meantTag? content = some (tag, attributes) ↔
    String.ofList (tagName content) = tag ∧ isTagName tag = true ∧
      (tagAttributes content).2 = none ∧
      (tagAttributes content).1.mapM RawAttribute.meant? = some attributes := by
  rw [meantTag?]
  split
  · next h =>
    rw [Option.map_eq_some_iff]
    constructor
    · rintro ⟨attributes', hattributes, heq⟩
      cases heq
      exact ⟨rfl, h.1, h.2, hattributes⟩
    · rintro ⟨rfl, -, -, hattributes⟩
      exact ⟨attributes, hattributes, rfl⟩
  · next h =>
    refine iff_of_false nofun ?_
    rintro ⟨rfl, htag, hfault, -⟩
    exact h ⟨htag, hfault⟩

theorem RawAttribute.meant?_eq_some_iff {a : RawAttribute} {b : String × String} :
    a.meant? = some b ↔ isAttributeName a.name = true ∧
      ∃ value, unescape a.value = .ok value ∧ b = (a.name, String.ofList value) := by
  rw [RawAttribute.meant?]
  split
  · next hname =>
    cases unescape a.value with
    | error e => simp [Except.toOption]
    | ok value => simp [Except.toOption, hname, eq_comm]
  · next hname => simp [hname]

theorem Event.isValid_text_iff {raw : List Char} :
    (Event.text raw).isValid = true ↔ ∃ content, unescape raw = .ok content := by
  rw [Event.isValid]
  cases unescape raw with
  | error e => simp [Except.toOption]
  | ok content => simp [Except.toOption]

/-- What is meant by written attributes bears their names, and these are valid. -/
theorem keys_of_mapM_meant? {raws : List RawAttribute}
    (h : raws.mapM RawAttribute.meant? = some attributes) :
    Entries.keys attributes = raws.map RawAttribute.name ∧
      ∀ a ∈ raws, isAttributeName a.name = true := by
  induction raws generalizing attributes with
  | nil =>
    cases h
    exact ⟨rfl, nofun⟩
  | cons a raws ih =>
    rw [List.mapM_cons, Option.bind_eq_bind, Option.bind_eq_some_iff] at h
    obtain ⟨b, hb, h⟩ := h
    rw [Option.bind_eq_bind, Option.bind_eq_some_iff] at h
    obtain ⟨others, hothers, h⟩ := h
    cases h
    obtain ⟨hname, value, -, rfl⟩ := RawAttribute.meant?_eq_some_iff.1 hb
    obtain ⟨hkeys, hnames⟩ := ih hothers
    rw [List.map_cons, ← hkeys]
    exact ⟨rfl, List.forall_mem_cons.2 ⟨hname, hnames⟩⟩

theorem readAttribute_new {seen : List (List Char × Nat)} {start : Nat} {first : Char}
    {rest key value : List Char} {r : Rest}
    (h : readAttribute seen start first rest = .ok (key, value, r)) :
    Entries.get? key seen = none := by
  simp only [readAttribute] at h
  split at h
  · cases h
  · split at h
    · cases h
    · split at h
      · cases h
      · next hnew =>
        generalize readValue _ = value at h
        cases value with
        | error e => cases h
        | ok value =>
          cases h
          exact hnew

/-- No attribute is read whose name has been seen, and none is read twice. -/
theorem readAttributes_new (seen : List (List Char × Nat)) (r : Rest) :
    (∀ a ∈ (readAttributes seen r).1, Entries.get? a.name.toList seen = none) ∧
      ((readAttributes seen r).1.map RawAttribute.name).Nodup := by
  fun_induction readAttributes seen r with
  | case1 => exact ⟨nofun, List.nodup_nil⟩
  | case2 => exact ⟨nofun, List.nodup_nil⟩
  | case3 seen r first rest hskip start key value r' hread hlt others fault hrest ih =>
    have hnew := readAttribute_new hread
    rw [hrest] at ih
    have hother : ∀ a ∈ others, a.name ≠ String.ofList key ∧
        Entries.get? a.name.toList seen = none := by
      intro a ha
      have hseen := ih.1 a ha
      rw [Entries.get?] at hseen
      split at hseen
      · cases hseen
      · next hne =>
        refine ⟨fun heq => hne ?_, hseen⟩
        rw [heq, String.toList_ofList]
    refine ⟨List.forall_mem_cons.2 ⟨?_, fun a ha => (hother a ha).2⟩,
      List.nodup_cons.2 ⟨fun hmem => ?_, ih.2⟩⟩
    · rwa [String.toList_ofList]
    · obtain ⟨a, ha, hname⟩ := List.mem_map.1 hmem
      exact (hother a ha).1 hname

/-- A tag that means something may be written. -/
theorem validTag_of_meantTag? (h : meantTag? content = some (tag, attributes)) :
    ValidTag tag attributes := by
  obtain ⟨-, htag, -, hattributes⟩ := meantTag?_eq_some_iff.1 h
  obtain ⟨hkeys, hnames⟩ := keys_of_mapM_meant? hattributes
  refine ⟨htag, ?_, ?_⟩
  · rw [hkeys]
    exact (readAttributes_new [] _).2
  · rw [hkeys]
    exact List.forall_mem_map.2 hnames

/-- A tag as it is written means what was written. -/
theorem ValidTag.meantTag?_tagContent (h : ValidTag tag attributes) :
    meantTag? (tagContent tag attributes) = some (tag, attributes) := by
  have hmeant : (attributes.map rawAttribute).mapM RawAttribute.meant? = some attributes := by
    have hnames := h.attribute
    clear h
    induction attributes with
    | nil => rfl
    | cons a attributes ih =>
      rw [List.forall_mem_cons] at hnames
      have ha : (rawAttribute a).meant? = some a := RawAttribute.meant?_eq_some_iff.2
        ⟨hnames.1, a.2.toList, unescape_escape true a.2.toList, by
          rw [rawAttribute, String.ofList_toList]⟩
      rw [List.map_cons, List.mapM_cons, ha, ih hnames.2]
      rfl
  have hread := tagAttributes_tagContent h.tag h.attribute h.nodup
  rw [meantTag?_eq_some_iff, tagName_tagContent h.tag, hread]
  exact ⟨String.ofList_toList, h.tag, rfl, hmeant⟩

/-- Events that spell a row read as it. -/
theorem Spells.nests (h : Spells events row) : Nests events row := by
  induction h with
  | nil => exact .nil
  | @text position raw content events row hraw hcontent hrow h ih =>
    have hnext : Nests (⟨position, .text raw⟩ :: events)
        (.text (String.ofList content.toList) :: row) := .text hraw ih
    rwa [String.ofList_toList] at hnext
  | empty htag h ih => exact .empty htag.meantTag?_tagContent ih
  | element htag hinner h ihinner ih =>
    exact .element htag.meantTag?_tagContent String.ofList_toList ihinner ih

theorem openNames_cons (names : List String) (e : Located) (events : List Located) :
    openNames names (e :: events) = (e.event.nest names).bind (openNames · events) :=
  List.foldlM_cons

theorem openNames_append (names : List String) (before events : List Located) :
    openNames names (before ++ events) = (openNames names before).bind (openNames · events) :=
  List.foldlM_append

/-- A valid event that opens and closes nothing may stand in front of such events. -/
theorem Nests.wellNested_cons (hvalid : e.event.isValid = true)
    (hnest : ∀ names, e.event.nest names = some names)
    (h : (∀ e ∈ events, e.event.isValid = true) ∧ ∀ names, openNames names events = some names) :
    (∀ e' ∈ e :: events, e'.event.isValid = true) ∧
      ∀ names, openNames names (e :: events) = some names := by
  refine ⟨List.forall_mem_cons.2 ⟨hvalid, h.1⟩, fun names => ?_⟩
  rw [openNames_cons, hnest, Option.bind_some, h.2]

/-- Events that read as a row are valid, and they leave open what was open before. -/
theorem Nests.wellNested (h : Nests events row) :
    (∀ e ∈ events, e.event.isValid = true) ∧ ∀ names, openNames names events = some names := by
  induction h with
  | nil => exact ⟨nofun, fun _ => rfl⟩
  | text hraw h ih => exact wellNested_cons (Event.isValid_text_iff.2 ⟨_, hraw⟩) (fun _ => rfl) ih
  | data h ih => exact wellNested_cons rfl (fun _ => rfl) ih
  | skipped h ih => exact wellNested_cons rfl (fun _ => rfl) ih
  | empty htag h ih => exact wellNested_cons (by rw [Event.isValid, htag]; rfl) (fun _ => rfl) ih
  | @element position position' content name tag attributes inner events children row htag hname
      hinner h ihinner ih =>
    refine ⟨List.forall_mem_cons.2 ⟨by rw [Event.isValid, htag]; rfl, List.forall_mem_append.2
      ⟨ihinner.1, List.forall_mem_cons.2 ⟨rfl, ih.1⟩⟩⟩, fun names => ?_⟩
    have hsame := (meantTag?_eq_some_iff.1 htag).1.trans hname.symm
    rw [List.cons_append, openNames_cons, Event.nest, Option.bind_some, openNames_append,
      ihinner.2, Option.bind_some, openNames_cons, Event.nest, if_pos hsame, Option.bind_some, ih.2]

/-- Events that close elements which are open, one after another, each behind further nodes of
its own. -/
inductive Closes : List String → List Located → Prop
  | done {events : List Located} {row : List Tree} (h : Nests events row) : Closes [] events
  | close {position : Nat} {name : List Char} {names : List String} {inner events : List Located}
      {children : List Tree} (hinner : Nests inner children) (h : Closes names events) :
      Closes (String.ofList name :: names) (inner ++ ⟨position, .closing name⟩ :: events)

/-- What may stand in front of nested events may stand in front of closing ones. -/
theorem Closes.prepend (h : Closes names events) (chunk : List Located)
    (hchunk : ∀ {inner : List Located} {children : List Tree}, Nests inner children →
      ∃ row, Nests (chunk ++ inner) row) : Closes names (chunk ++ events) := by
  cases h with
  | done h =>
    obtain ⟨row, hrow⟩ := hchunk h
    exact .done hrow
  | close hinner h =>
    obtain ⟨row, hrow⟩ := hchunk hinner
    rw [← List.append_assoc]
    exact .close hrow h

/-- Before events that close an element its opening tag may stand, and the others are left. -/
theorem Closes.opening (h : Closes (tag :: names) events)
    (htag : meantTag? content = some (tag, attributes)) (position : Nat) :
    Closes names (⟨position, .opening content⟩ :: events) := by
  generalize hopen : tag :: names = opened at h
  cases h with
  | done => cases hopen
  | @close position' name outer inner events children hinner h =>
    cases hopen
    have hnext := h.prepend
      (⟨position, .opening content⟩ :: inner ++ [⟨position', .closing name⟩])
      fun h => ⟨_, by simpa using Nests.element htag rfl hinner h⟩
    simpa using hnext

theorem closes_of_openNames (hvalid : ∀ e ∈ events, e.event.isValid = true)
    (h : openNames names events = some []) : Closes names events := by
  induction events generalizing names with
  | nil =>
    cases h
    exact .done .nil
  | cons e events ih =>
    obtain ⟨position, event⟩ := e
    rw [List.forall_mem_cons] at hvalid
    rw [openNames_cons, Option.bind_eq_some_iff] at h
    obtain ⟨names', hnest, hrest⟩ := h
    have hcloses := ih hvalid.2 hrest
    have hevent := hvalid.1
    cases event with
    | text raw =>
      cases hnest
      obtain ⟨content, hraw⟩ := Event.isValid_text_iff.1 hevent
      exact hcloses.prepend [⟨position, .text raw⟩] fun h => ⟨_, .text hraw h⟩
    | data content =>
      cases hnest
      exact hcloses.prepend [⟨position, .data content⟩] fun h => ⟨_, .data h⟩
    | skipped =>
      cases hnest
      exact hcloses.prepend [⟨position, .skipped⟩] fun h => ⟨_, .skipped h⟩
    | empty content =>
      cases hnest
      obtain ⟨⟨tag, attributes⟩, htag⟩ := Option.isSome_iff_exists.1 hevent
      exact hcloses.prepend [⟨position, .empty content⟩] fun h => ⟨_, .empty htag h⟩
    | opening content =>
      cases hnest
      obtain ⟨⟨tag, attributes⟩, htag⟩ := Option.isSome_iff_exists.1 hevent
      obtain ⟨hname, -⟩ := meantTag?_eq_some_iff.1 htag
      rw [hname] at hcloses
      exact hcloses.opening htag position
    | closing found =>
      cases names with
      | nil => cases hnest
      | cons name outer =>
        rw [Event.nest] at hnest
        split at hnest
        · next hname =>
          cases hnest
          rw [hname]
          exact .close .nil hcloses
        · cases hnest

/-- Valid events whose tags pair off read as a row of trees. -/
theorem exists_nests (hvalid : ∀ e ∈ events, e.event.isValid = true)
    (h : openNames [] events = some []) : ∃ row, Nests events row := by
  cases closes_of_openNames hvalid h with
  | done h => exact ⟨_, h⟩

end Markup

namespace Tree

theorem joinedAll_textTrees_append (gathered : String) (tag : String)
    (attributes : List (String × String)) (children row : List Tree) :
    joinedAll "" (textTrees gathered ++ element tag attributes children :: row) =
      textTrees gathered ++ element tag attributes (joinedAll "" children) :: joinedAll "" row := by
  unfold textTrees
  split
  · simp [joinedAll, joined, textTrees]
  · next hgathered => simp [joinedAll, joined, textTrees, hgathered]

/-- Joining a joined row changes nothing. -/
theorem joinedAll_joinedAll (gathered : String) (row : List Tree) :
    joinedAll "" (joinedAll gathered row) = joinedAll gathered row := by
  match row with
  | [] =>
    rw [joinedAll, textTrees]
    split
    · rfl
    · next hgathered => simp [joinedAll, textTrees, hgathered]
  | text content :: row =>
    rw [joinedAll]
    exact joinedAll_joinedAll (gathered ++ content) row
  | element tag attributes children :: row =>
    simp only [joinedAll, joined, joinedAll_textTrees_append, joinedAll_joinedAll "" children,
      joinedAll_joinedAll "" row]

theorem joinedAll_concat_element (gathered : String) (row : List Tree) (tag : String)
    (attributes : List (String × String)) (children : List Tree) :
    joinedAll gathered (row ++ [element tag attributes children]) =
      joinedAll gathered row ++ [element tag attributes (joinedAll "" children)] := by
  match row with
  | [] => simp [joinedAll, joined, textTrees]
  | text content :: row =>
    rw [List.cons_append, joinedAll, joinedAll, joinedAll_concat_element]
  | element tag' attributes' children' :: row =>
    simp [joinedAll, joinedAll_concat_element]

/-- A joined row ends with a text that may be empty: the one that goes on when a text follows. -/
theorem exists_joinedAll_concat_text (gathered : String) (row : List Tree) : ∃ before last,
    (∀ tree ∈ before.getLast?, tree.content? = none) ∧
    joinedAll gathered row = before ++ textTrees last ∧
    ∀ content, joinedAll gathered (row ++ [text content]) =
      before ++ textTrees (last ++ content) := by
  match row with
  | [] => exact ⟨[], gathered, nofun, by simp [joinedAll], fun content => by simp [joinedAll]⟩
  | text content :: row =>
    obtain ⟨before, last, hend, hrow, hnext⟩ :=
      exists_joinedAll_concat_text (gathered ++ content) row
    exact ⟨before, last, hend, by rw [joinedAll, hrow], fun more => by
      rw [List.cons_append, joinedAll, hnext]⟩
  | element tag attributes children :: row =>
    obtain ⟨before, last, hend, hrow, hnext⟩ := exists_joinedAll_concat_text "" row
    refine ⟨textTrees gathered ++ (element tag attributes children).joined :: before, last, ?_, ?_,
      fun more => ?_⟩
    · rw [List.getLast?_append_of_ne_nil _ (List.cons_ne_nil _ _)]
      intro tree htree
      cases before with
      | nil =>
        cases htree
        rfl
      | cons first before =>
        rw [List.getLast?_cons_cons] at htree
        exact hend tree htree
    · simp [joinedAll, hrow]
    · simp [joinedAll, hnext]

end Tree

end LiveMarkup
