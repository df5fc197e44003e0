import LiveMarkup.Tree
import LiveMarkup.Markup.Event
import LiveMarkup.Markup.Attribute
import LiveMarkup.Proofs.Markup.Escape

/-! What is written is read back piece by piece: a tag ends at its own `>`, with its name and its
attributes in it as they were. -/
namespace LiveMarkup.Markup

variable {c : Char} {s t : List Char} {tag : String} {attributes : List (String × String)}

/-- Quotes that open in a piece close in it, and no `>` stands outside of them. -/
def Whole (s : List Char) : Prop :=
  ∀ t, cutTag none (s ++ t) = (cutTag none t).map fun (inner, rest) => (s ++ inner, rest)

theorem Whole.nil : Whole [] := fun t => by simp

theorem Whole.append (hs : Whole s) (ht : Whole t) : Whole (s ++ t) := fun u => by
  rw [List.append_assoc, hs, ht, Option.map_map]
  simp [Function.comp_def]

/-- A tag ends behind a whole piece. -/
theorem Whole.cutTag_eq (hs : Whole s) (rest : List Char) :
    cutTag none (s ++ '>' :: rest) = some (s, rest) := by
  rw [hs]
  simp [cutTag]

theorem whole_singleton (hgt : c ≠ '>') (hquote : c ≠ '"') (hsingle : c ≠ '\x27') : Whole [c] :=
  fun t => by simp [cutTag, hgt, hquote, hsingle]

theorem whole_of_forall (h : ∀ c ∈ s, Whole [c]) : Whole s := by
  induction s with
  | nil => exact .nil
  | cons c s ih =>
    exact (h c (List.mem_cons_self ..)).append (t := s)
      (ih fun d hd => h d (List.mem_cons_of_mem _ hd))

theorem cutTag_quoted (hs : '"' ∉ s) (t : List Char) : cutTag (some '"') (s ++ '"' :: t) =
    (cutTag none t).map fun (inner, rest) => (s ++ '"' :: inner, rest) := by
  induction s with
  | nil => simp [cutTag]
  | cons c s ih =>
    rw [List.mem_cons, not_or] at hs
    rw [List.cons_append, cutTag, if_neg (Ne.symm hs.1), ih hs.2, Option.map_map]
    rfl

theorem whole_quoted (hs : '"' ∉ s) : Whole ('"' :: s ++ ['"']) := fun t => by
  have hopen : cutTag none ('"' :: (s ++ '"' :: t)) =
      (cutTag (some '"') (s ++ '"' :: t)).map fun (inner, rest) => ('"' :: inner, rest) := rfl
  rw [List.append_assoc, List.cons_append, List.singleton_append, hopen, cutTag_quoted hs,
    Option.map_map]
  simp [Function.comp_def]

theorem isTagName_iff : isTagName tag = true ↔ ∃ c s, tag.toList = c :: s ∧
    isAsciiLetter c = true ∧ ∀ d ∈ s, isTagChar d = true := by
  rw [isTagName]
  cases tag.toList with
  | nil => simp
  | cons c s => grind

theorem isTagChar_of_isTagName (h : isTagName tag = true) :
    ∀ c ∈ tag.toList, isTagChar c = true := by
  obtain ⟨c, s, htag, hc, hs⟩ := isTagName_iff.1 h
  rw [htag]
  rintro d (_ | ⟨_, hd⟩)
  · simp [isTagChar, hc]
  · exact hs d hd

/-- A character of a kind is none that is not of the kind. -/
theorem ne_of_not {p : Char → Bool} {d : Char} (hc : p c = true) (hd : p d = false) : c ≠ d := by
  rintro rfl
  rw [hc] at hd
  cases hd

theorem not_isSpace_of_isTagChar (h : isTagChar c = true) : isSpace c = false := by
  simp [isSpace, ne_of_not h (d := ' ') (by decide), ne_of_not h (d := '\t') (by decide),
    ne_of_not h (d := '\r') (by decide), ne_of_not h (d := '\n') (by decide)]

theorem whole_of_isTagChar (h : isTagChar c = true) : Whole [c] :=
  whole_singleton (ne_of_not h (by decide)) (ne_of_not h (by decide)) (ne_of_not h (by decide))

theorem not_isSpace_of_isAttributeChar (h : isAttributeChar c = true) : isSpace c = false := by
  simp [isSpace, ne_of_not h (d := ' ') (by decide), ne_of_not h (d := '\t') (by decide),
    ne_of_not h (d := '\r') (by decide), ne_of_not h (d := '\n') (by decide)]

theorem isKeyChar_of_isAttributeChar (h : isAttributeChar c = true) : isKeyChar c = true := by
  simp [isKeyChar, not_isSpace_of_isAttributeChar h, ne_of_not h (d := '=') (by decide)]

theorem whole_of_isAttributeChar (h : isAttributeChar c = true) : Whole [c] :=
  whole_singleton (ne_of_not h (by decide)) (ne_of_not h (by decide)) (ne_of_not h (by decide))

theorem isAttributeName_iff {name : String} : isAttributeName name = true ↔
    name.toList ≠ [] ∧ ∀ c ∈ name.toList, isAttributeChar c = true := by
  simp [isAttributeName]

/-- What a tag with valid names holds between its marks. -/
def tagContent (tag : String) (attributes : List (String × String)) : List Char :=
  tag.toList ++ attributes.flatMap Tree.attributeMarkup

theorem whole_attributeMarkup {a : String × String} (h : isAttributeName a.1 = true) :
    Whole (Tree.attributeMarkup a) := by
  have hname : Whole a.1.toList :=
    whole_of_forall fun c hc => whole_of_isAttributeChar ((isAttributeName_iff.1 h).2 c hc)
  have hvalue : Whole ('"' :: escape true a.2.toList ++ ['"']) :=
    whole_quoted (not_mem_escape (Or.inr (Or.inr ⟨rfl, rfl⟩)))
  have hspace : Whole [' '] := whole_singleton (by decide) (by decide) (by decide)
  have hequals : Whole ['='] := whole_singleton (by decide) (by decide) (by decide)
  have := (hspace.append hname).append (hequals.append hvalue)
  simpa [Tree.attributeMarkup] using this

theorem whole_tagContent (htag : isTagName tag = true)
    (hnames : ∀ a ∈ attributes, isAttributeName a.1 = true) :
    Whole (tagContent tag attributes) := by
  have hname : Whole tag.toList :=
    whole_of_forall fun c hc => whole_of_isTagChar (isTagChar_of_isTagName htag c hc)
  refine hname.append ?_
  induction attributes with
  | nil => exact .nil
  | cons a attributes ih =>
    rw [List.flatMap_cons]
    exact (whole_attributeMarkup (hnames a (List.mem_cons_self ..))).append
      (ih fun b hb => hnames b (List.mem_cons_of_mem _ hb))

/-- What follows the name of a tag is empty or begins with a space. -/
theorem flatMap_attributeMarkup_eq (attributes : List (String × String)) :
    attributes.flatMap Tree.attributeMarkup = [] ∨
      ∃ t, attributes.flatMap Tree.attributeMarkup = ' ' :: t := by
  cases attributes with
  | nil => exact Or.inl rfl
  | cons a attributes => exact Or.inr ⟨_, rfl⟩

theorem tagName_tagContent (htag : isTagName tag = true) :
    tagName (tagContent tag attributes) = tag.toList := by
  have hname : ∀ c ∈ tag.toList, (!isSpace c) = true := fun c hc => by
    rw [not_isSpace_of_isTagChar (isTagChar_of_isTagName htag c hc)]
    rfl
  rw [tagName, tagContent, List.takeWhile_append_of_pos hname]
  rcases flatMap_attributeMarkup_eq attributes with h | ⟨t, h⟩
  · rw [h, List.takeWhile_nil, List.append_nil]
  · rw [h, List.takeWhile_cons_of_neg (by decide), List.append_nil]

theorem dropWhile_tagContent (htag : isTagName tag = true) :
    (tagContent tag attributes).dropWhile (fun c => !isSpace c) =
      attributes.flatMap Tree.attributeMarkup := by
  have hname : ∀ c ∈ tag.toList, (!isSpace c) = true := fun c hc => by
    rw [not_isSpace_of_isTagChar (isTagChar_of_isTagName htag c hc)]
    rfl
  rw [tagContent, List.dropWhile_append_of_pos hname]
  rcases flatMap_attributeMarkup_eq attributes with h | ⟨t, h⟩
  · rw [h, List.dropWhile_nil]
  · rw [h, List.dropWhile_cons_of_neg (by decide)]

/-- An attribute as it is written, with its value still escaped. -/
def rawAttribute (a : String × String) : RawAttribute := ⟨a.1, escape true a.2.toList⟩

theorem readValue_quoted (offset : Nat) (hs : '"' ∉ s) (t : List Char) :
    ∃ next, readValue ⟨offset, '"' :: s ++ '"' :: t⟩ = .ok (s, ⟨next, t⟩) := by
  have hs' : ∀ c ∈ s, (c != '"') = true := fun c hc => bne_iff_ne.2 fun h => hs (h ▸ hc)
  have htake : (s ++ '"' :: t).takeWhile (· != '"') = s := by
    rw [List.takeWhile_append_of_pos hs', List.takeWhile_cons_of_neg (by decide), List.append_nil]
  have hdrop : (s ++ '"' :: t).dropWhile (· != '"') = '"' :: t := by
    rw [List.dropWhile_append_of_pos hs', List.dropWhile_cons_of_neg (by decide)]
  apply Exists.intro
  simp only [readValue, Rest.skipWhile, List.cons_append]
  rw [List.dropWhile_cons_of_neg (by decide)]
  simp only [true_or, if_true, htake, hdrop]
  rfl

theorem readAttribute_written {seen : List (List Char × Nat)} (start : Nat) {first : Char}
    {key : List Char} (hkey : ∀ c ∈ key, isAttributeChar c = true)
    (hnew : Entries.get? (first :: key) seen = none) (hs : '"' ∉ s) (t : List Char) :
    ∃ next, readAttribute seen start first (key ++ '=' :: '"' :: s ++ '"' :: t) =
      .ok (first :: key, s, ⟨next, t⟩) := by
  have hkey' : ∀ c ∈ key, isKeyChar c = true := fun c hc => isKeyChar_of_isAttributeChar (hkey c hc)
  simp only [readAttribute, Rest.skipWhile, List.append_assoc, List.cons_append]
  rw [List.takeWhile_append_of_pos hkey', List.takeWhile_cons_of_neg (by decide), List.append_nil,
    List.dropWhile_append_of_pos hkey', List.dropWhile_cons_of_neg (by decide),
    List.dropWhile_cons_of_neg (by decide)]
  simp only [ne_eq, not_true_eq_false, if_false, hnew]
  obtain ⟨next, h⟩ := readValue_quoted _ hs t
  rw [List.cons_append] at h
  rw [h]
  exact ⟨next, rfl⟩

theorem readAttributes_of_ok {seen : List (List Char × Nat)} {r r' : Rest} {first : Char}
    {rest key value : List Char} (hskip : (r.skipWhile isSpace).chars = first :: rest)
    (hread : readAttribute seen (r.skipWhile isSpace).offset first rest = .ok (key, value, r')) :
    readAttributes seen r =
      (⟨String.ofList key, value⟩ ::
        (readAttributes ((key, (r.skipWhile isSpace).offset) :: seen) r').1,
        (readAttributes ((key, (r.skipWhile isSpace).offset) :: seen) r').2) := by
  rw [readAttributes]
  split
  · next hnil =>
    rw [hskip] at hnil
    cases hnil
  · next hcons =>
    rw [hskip] at hcons
    obtain ⟨rfl, rfl⟩ := List.cons.inj hcons
    dsimp only
    split
    · next herror =>
      rw [hread] at herror
      cases herror
    · next hok =>
      rw [hread] at hok
      cases hok
      rfl

theorem readAttributes_written {seen : List (List Char × Nat)} (offset : Nat)
    (hnames : ∀ a ∈ attributes, isAttributeName a.1 = true)
    (hnodup : (Entries.keys attributes).Nodup)
    (hnew : ∀ a ∈ attributes, Entries.get? a.1.toList seen = none) :
    readAttributes seen ⟨offset, attributes.flatMap Tree.attributeMarkup⟩ =
      (attributes.map rawAttribute, none) := by
  induction attributes generalizing seen offset with
  | nil => simp [readAttributes, Rest.skipWhile]
  | cons a attributes ih =>
    obtain ⟨name, value⟩ := a
    obtain ⟨hne, hchars⟩ := isAttributeName_iff.1 (hnames (name, value) (List.mem_cons_self ..))
    obtain ⟨first, key, hname⟩ := List.exists_cons_of_ne_nil hne
    rw [hname, List.forall_mem_cons] at hchars
    obtain ⟨hnot, hnodup⟩ := List.nodup_cons.1 hnodup
    have hskip : (Rest.mk offset (((name, value) :: attributes).flatMap
        Tree.attributeMarkup)).skipWhile isSpace =
      ⟨offset + 1, first :: (key ++ '=' :: '"' :: escape true value.toList ++ '"' ::
        attributes.flatMap Tree.attributeMarkup)⟩ := by
      simp [Rest.skipWhile, Tree.attributeMarkup, hname, utf8Length,
        not_isSpace_of_isAttributeChar hchars.1, show isSpace ' ' = true by decide,
        show ' '.utf8Size = 1 from rfl]
    have hfirst := hnew (name, value) (List.mem_cons_self ..)
    rw [hname] at hfirst
    obtain ⟨next, hread⟩ := readAttribute_written (offset + 1) hchars.2 hfirst
      (not_mem_escape (s := value.toList) (Or.inr (Or.inr ⟨rfl, rfl⟩)))
      (attributes.flatMap Tree.attributeMarkup)
    rw [readAttributes_of_ok (congrArg Rest.chars hskip) (by rw [hskip]; exact hread),
      ih next (fun b hb => hnames b (List.mem_cons_of_mem _ hb)) hnodup fun b hb => ?_,
      List.map_cons, rawAttribute, ← hname, String.ofList_toList]
    have hne : first :: key ≠ b.1.toList := fun h =>
      hnot (List.mem_map.2 ⟨b, hb, String.toList_inj.1 (h.symm.trans hname.symm)⟩)
    rw [Entries.get?, if_neg hne]
    exact hnew b (List.mem_cons_of_mem _ hb)

/-- The attributes of a tag are those that were written. -/
theorem tagAttributes_tagContent (htag : isTagName tag = true)
    (hnames : ∀ a ∈ attributes, isAttributeName a.1 = true)
    (hnodup : (Entries.keys attributes).Nodup) :
    tagAttributes (tagContent tag attributes) = (attributes.map rawAttribute, none) := by
  rw [tagAttributes, dropWhile_tagContent htag]
  exact readAttributes_written _ hnames hnodup fun _ _ => rfl

end LiveMarkup.Markup
