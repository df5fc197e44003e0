import LiveMarkup.Proofs.Json.Token
import LiveMarkup.Value

/-! The data form of a value is read back. The value may hold any texts, under any keys; its numbers
are whole and held exactly, and its containers are not nested deeper than the reader goes. -/
namespace LiveMarkup

namespace Value

/-- A value is inside of another one, or the same, with a number of containers around it. -/
inductive Part : Nat → Value → Value → Prop where
  | self (v : Value) : Part 0 v v
  | item {depth : Nat} {part item : Value} {items : List Value} (hmem : item ∈ items)
      (h : Part depth part item) : Part (depth + 1) part (list items)
  | entry {depth : Nat} {part : Value} {e : String × Value} {entries : List (String × Value)}
      (hmem : e ∈ entries) (h : Part depth part e.2) : Part (depth + 1) part (map entries)

/-- Induction on the parts of a value. -/
@[elab_as_elim, induction_eliminator]
theorem induction {motive : Value → Prop} (null : motive null) (bool : ∀ b, motive (bool b))
    (number : ∀ n, motive (number n)) (string : ∀ s, motive (string s))
    (list : ∀ items, (∀ item ∈ items, motive item) → motive (list items))
    (map : ∀ entries, (∀ e ∈ entries, motive e.2) → motive (map entries)) : ∀ v, motive v := by
  refine @Value.rec motive (fun items => ∀ item ∈ items, motive item)
    (fun entries => ∀ e ∈ entries, motive e.2) (fun e => motive e.2) null bool number string list
    map nofun (fun item rest hitem hrest => ?_) nofun (fun e rest he hrest => ?_)
    fun key v hv => hv
  · exact List.forall_mem_cons.2 ⟨hitem, hrest⟩
  · exact List.forall_mem_cons.2 ⟨he, hrest⟩

end Value

/-- Neither undefined nor infinite, without a fraction, and below 2^53. -/
def Number.IsWhole : Number → Prop
  | finite _ x => ∃ n : Nat, x.value = n ∧ n < 0x20000000000000
  | _ => False

/-- Zero of either sign as the one without a sign; the two are equal as numbers. -/
def Number.unsignZero : Number → Number
  | finite negative x => finite (negative && x.significand ≠ 0) x
  | n => n

namespace Value

mutual

/-- A value whose zeros have no sign. -/
def unsignZeros : Value → Value
  | number n => number n.unsignZero
  | list items => list (unsignItems items)
  | map entries => map (unsignEntries entries)
  | v => v

def unsignItems : List Value → List Value
  | [] => []
  | item :: rest => item.unsignZeros :: unsignItems rest

def unsignEntries : List (String × Value) → List (String × Value)
  | [] => []
  | (key, v) :: rest => (key, v.unsignZeros) :: unsignEntries rest

end

theorem unsignItems_eq_map (items : List Value) : unsignItems items = items.map unsignZeros := by
  induction items with
  | nil => rfl
  | cons item rest ih => rw [unsignItems, ih, List.map_cons]

theorem unsignEntries_eq_map (entries : List (String × Value)) :
    unsignEntries entries = entries.map fun e => (e.1, e.2.unsignZeros) := by
  induction entries with
  | nil => rfl
  | cons e rest ih => rw [unsignEntries, ih, List.map_cons]

theorem keys_unsignEntries (entries : List (String × Value)) :
    Entries.keys (unsignEntries entries) = Entries.keys entries := by
  rw [unsignEntries_eq_map, Entries.keys, List.map_map]
  rfl

/-- Without negative zeros nothing changes. -/
theorem unsignZeros_eq_self {v : Value}
    (h : ∀ depth, ¬ Part depth (number (.finite true .zero)) v) : v.unsignZeros = v := by
  induction v with
  | null | bool _ | string _ => rfl
  | number n =>
    cases n with
    | nan | infinite _ => rfl
    | finite negative x =>
      have hsign : (negative && decide (x.significand ≠ 0)) = negative := by
        cases negative with
        | false => rfl
        | true =>
          have hne : x.significand ≠ 0 := by
            intro hzero
            obtain rfl := Magnitude.eq_zero hzero
            exact h 0 (.self _)
          simp [hne]
      rw [unsignZeros, Number.unsignZero, hsign]
  | list items ih =>
    have hitems : items.map unsignZeros = items.map id :=
      List.map_congr_left fun item hmem => ih item hmem fun depth hpart =>
        h (depth + 1) (.item hmem hpart)
    rw [unsignZeros, unsignItems_eq_map, hitems, List.map_id]
  | map entries ih =>
    have hentries : entries.map (fun e => (e.1, e.2.unsignZeros)) = entries.map id :=
      List.map_congr_left fun e hmem => Prod.ext rfl (ih e hmem fun depth hpart =>
        h (depth + 1) (.entry hmem hpart))
    rw [unsignZeros, unsignEntries_eq_map, hentries, List.map_id]

/-- Whole numbers are written as their digits, negative ones but zero with a sign in front. -/
theorem numberData_of_whole {x : Magnitude} {n : Nat} (hx : x.value = n)
    (hn : n < 0x20000000000000) (negative : Bool) : numberData (.finite negative x) =
      (if negative && x.significand ≠ 0 then ['-'] else []) ++ Text.decimal n := by
  rw [numberData, Layout.finite]
  by_cases hzero : x.significand = 0
  · obtain rfl : n = 0 := by simpa [Magnitude.value, hzero, eq_comm] using hx
    have hdigits : Text.decimal 0 = ['0'] := by decide +kernel
    simp [hzero, hdigits]
  · have hbelow : n < dataLayout.wholeBelow := hn
    simp [hzero, Magnitude.natural?_eq_some_iff.2 hx, hbelow]

end Value

namespace Json

variable {fuel room : Nat} {rest : List Char}

theorem skipSpace_cons {c : Char} (hc : isSpace c = false) (rest : List Char) :
    skipSpace (c :: rest) = c :: rest := by
  rw [skipSpace, List.dropWhile_cons_of_neg (by simp [hc])]

theorem isSpace_of_isDigit {c : Char} (hc : Text.isDigit c = true) : isSpace c = false := by
  rw [Bool.eq_false_iff]
  intro hspace
  simp only [isSpace, Bool.or_eq_true, beq_iff_eq] at hspace
  obtain ((rfl | rfl) | rfl) | rfl := hspace <;> cases hc

/-- A number without a sign is told by its first digit. -/
theorem readValue_digit {c : Char} (hc : Text.isDigit c = true) (fuel room : Nat)
    (rest : List Char) : readValue (fuel + 1) room (c :: rest) =
      (readNumeral false (c :: rest)).map fun (n, t) => (number n, t) := by
  rw [readValue, skipSpace_cons (isSpace_of_isDigit hc)]
  split <;> simp_all [Text.isDigit]

theorem endsNumber_cons {c : Char} (hc : c = ',' ∨ c = ']' ∨ c = '\x7d') (rest : List Char) :
    EndsNumber (c :: rest) := by
  rintro d ⟨⟩
  obtain rfl | rfl | rfl := hc <;> decide

theorem readItems_last {s : List Char} {j : Json}
    (h : readValue fuel room s = some (j, ']' :: rest)) :
    readItems (fuel + 1) room s = some ([j], rest) := by
  rw [readItems, h]
  rfl

theorem readItems_comma {s t : List Char} {j : Json} {js : List Json}
    (h : readValue fuel room s = some (j, ',' :: t)) (ht : readItems fuel room t = some (js, rest)) :
    readItems (fuel + 1) room s = some (j :: js, rest) := by
  have hspace : skipSpace (',' :: t) = ',' :: t := rfl
  rw [readItems, h]
  simp only [Option.bind_eq_bind, Option.bind_some, hspace, ht, Option.map_some]

theorem readValue_array {c : Char} {s : List Char} {js : List Json} (hspace : isSpace c = false)
    (hc : c ≠ ']') (h : readItems fuel room (c :: s) = some (js, rest)) :
    readValue (fuel + 1) (room + 1) ('[' :: c :: s) = some (array js, rest) := by
  rw [readValue, skipSpace_cons rfl]
  simp only [skipSpace_cons hspace, Nat.add_one_ne_zero, if_false, Nat.add_sub_cancel]
  split
  · next heq => exact absurd (List.cons.inj heq).1 hc
  · rw [h, Option.map_some]

/-- A member with its key read. -/
theorem readMembers_quote (fuel room : Nat) (key : String) (s : List Char) :
    readMembers (fuel + 1) room (quote key ++ ':' :: s) = (readValue fuel room s).bind fun (j, t) =>
      match skipSpace t with
      | '\x7d' :: rest => some ([(key, j)], rest)
      | ',' :: rest => (readMembers fuel room rest).map fun (ms, t) => ((key, j) :: ms, t)
      | _ => none := by
  have hcolon : skipSpace (':' :: s) = ':' :: s := rfl
  rw [quote, List.cons_append, List.cons_append, List.append_assoc, List.singleton_append,
    readMembers, skipSpace_cons rfl]
  simp only [readString_flatMap, Option.bind_eq_bind, Option.bind_some, hcolon,
    String.ofList_toList]
  rfl

theorem readMembers_last {s : List Char} {key : String} {j : Json}
    (h : readValue fuel room s = some (j, '\x7d' :: rest)) :
    readMembers (fuel + 1) room (quote key ++ ':' :: s) = some ([(key, j)], rest) := by
  rw [readMembers_quote, h]
  rfl

theorem readMembers_comma {s t : List Char} {key : String} {j : Json} {ms : List (String × Json)}
    (h : readValue fuel room s = some (j, ',' :: t))
    (ht : readMembers fuel room t = some (ms, rest)) :
    readMembers (fuel + 1) room (quote key ++ ':' :: s) = some ((key, j) :: ms, rest) := by
  have hcomma : skipSpace (',' :: t) = ',' :: t := rfl
  rw [readMembers_quote, h]
  simp only [Option.bind_some, hcomma, ht, Option.map_some]

theorem readValue_object {key : String} {s : List Char} {ms : List (String × Json)}
    (h : readMembers fuel room (quote key ++ s) = some (ms, rest)) :
    readValue (fuel + 1) (room + 1) ('\x7b' :: (quote key ++ s)) = some (object ms, rest) := by
  have hspace (t : List Char) : skipSpace ('"' :: t) = '"' :: t := rfl
  rw [quote, List.cons_append, List.cons_append] at h ⊢
  rw [readValue, skipSpace_cons rfl]
  simp only [hspace, Nat.add_one_ne_zero, if_false, Nat.add_sub_cancel]
  split
  · next heq => cases heq
  · rw [h, Option.map_some]

end Json

namespace Value

/-- The data of a value is read back, with whatever behind it cannot go on with a number. It begins
with neither a space nor the end of a sequence. -/
structure Reads (v : Value) (room : Nat) : Prop where
  head : ∃ c tail, v.data = c :: tail ∧ Json.isSpace c = false ∧ c ≠ ']'
  read : ∀ fuel rest, 2 * v.data.length ≤ fuel → Json.EndsNumber rest →
    ∃ j, Json.readValue fuel room (v.data ++ rest) = some (j, rest) ∧ ofJson j = v.unsignZeros

variable {room : Nat} {items : List Value} {entries : List (String × Value)}

/-- A reader that has taken the first character has twice the rest of the data left as fuel. -/
theorem Reads.of_cons {v : Value} {c : Char} {tail : List Char} (hdata : v.data = c :: tail)
    (hspace : Json.isSpace c = false) (hc : c ≠ ']')
    (hread : ∀ fuel rest, 2 * tail.length < fuel → Json.EndsNumber rest →
      ∃ j, Json.readValue (fuel + 1) room (c :: (tail ++ rest)) = some (j, rest) ∧
        ofJson j = v.unsignZeros) : v.Reads room where
  head := ⟨c, tail, hdata, hspace, hc⟩
  read fuel rest hfuel hrest := by
    rw [hdata, List.length_cons] at hfuel
    obtain ⟨fuel, rfl⟩ : ∃ n, fuel = n + 1 := Nat.exists_eq_add_of_le' (by omega)
    rw [hdata, List.cons_append]
    exact hread fuel rest (by omega) hrest

theorem reads_null (room : Nat) : null.Reads room :=
  .of_cons rfl rfl (by decide) fun _ _ _ _ => ⟨.null, rfl, rfl⟩

theorem reads_bool (b : Bool) (room : Nat) : (bool b).Reads room := by
  cases b with
  | false => exact .of_cons rfl rfl (by decide) fun _ _ _ _ => ⟨.bool false, rfl, rfl⟩
  | true => exact .of_cons rfl rfl (by decide) fun _ _ _ _ => ⟨.bool true, rfl, rfl⟩

theorem reads_string (s : String) (room : Nat) : (string s).Reads room := by
  have hdata : (string s).data = '"' :: (s.toList.flatMap Json.escapeChar ++ ['"']) := rfl
  refine .of_cons hdata rfl (by decide) fun fuel rest _ _ => ⟨.string s, ?_, rfl⟩
  rw [List.append_assoc, List.singleton_append, Json.readValue, Json.skipSpace_cons rfl]
  simp only [Json.readString_flatMap, Option.map_some, String.ofList_toList]

theorem reads_number {n : Number} (hn : n.IsWhole) (room : Nat) : (number n).Reads room := by
  obtain _ | _ | ⟨negative, x⟩ := n
  · cases hn
  · cases hn
  · obtain ⟨n, hx, hn⟩ := hn
    obtain ⟨d, ds, hdigits⟩ := List.exists_cons_of_ne_nil (Text.decimal_ne_nil n)
    have hdigit : Text.isDigit d = true := by
      have := Text.all_isDigit_decimal n
      rw [hdigits, List.all_cons, Bool.and_eq_true] at this
      exact this.1
    have hread {rest : List Char} (hrest : Json.EndsNumber rest) (sign : Bool) :=
      Json.readNumeral_decimal hx (Nat.lt_trans hn (by decide)) hrest sign
    have hunsign : ofJson (.number ⟨negative && x.significand ≠ 0, x, some n⟩) =
        (number (.finite negative x)).unsignZeros := rfl
    have hdata : (number (.finite negative x)).data = _ := numberData_of_whole hx hn negative
    rw [hdigits] at hread hdata
    cases hsign : (negative && x.significand ≠ 0 : Bool) with
    | true =>
      rw [hsign, if_pos rfl, List.singleton_append] at hdata
      rw [hsign] at hunsign
      refine .of_cons hdata rfl (by decide) fun fuel rest _ hrest => ⟨_, ?_, hunsign⟩
      rw [Json.readValue, Json.skipSpace_cons rfl]
      simp only [hread hrest, Option.map_some]
    | false =>
      rw [hsign, if_neg Bool.false_ne_true, List.nil_append] at hdata
      rw [hsign] at hunsign
      have hne : d ≠ ']' := by
        rintro rfl
        cases hdigit
      refine .of_cons hdata (Json.isSpace_of_isDigit hdigit) hne
        fun fuel rest _ hrest => ⟨_, ?_, hunsign⟩
      rw [Json.readValue_digit hdigit, ← List.cons_append, hread hrest]
      rfl

/-- Items are read up to the bracket behind them. -/
theorem readItems_itemsData (hitems : ∀ item ∈ items, item.Reads room) (hne : items ≠ [])
    (fuel : Nat) (hfuel : 2 * (itemsData items).length < fuel) (rest : List Char) :
    ∃ js, Json.readItems fuel room (itemsData items ++ ']' :: rest) = some (js, rest) ∧
      ofItems js = unsignItems items := by
  induction items generalizing fuel with
  | nil => exact absurd rfl hne
  | cons item items ih =>
    obtain ⟨fuel, rfl⟩ : ∃ n, fuel = n + 1 := Nat.exists_eq_add_of_le' (by omega)
    obtain ⟨hitem, hitems⟩ := List.forall_mem_cons.1 hitems
    cases items with
    | nil =>
      rw [itemsData, List.append_nil] at hfuel ⊢
      obtain ⟨j, hread, hj⟩ := hitem.read fuel (']' :: rest) (by omega)
        (Json.endsNumber_cons (.inr (.inl rfl)) rest)
      exact ⟨[j], Json.readItems_last hread, by rw [ofItems, hj]; rfl⟩
    | cons next items =>
      have htext : itemsData (item :: next :: items) =
        item.data ++ ',' :: itemsData (next :: items) := rfl
      rw [htext, List.length_append, List.length_cons] at hfuel
      rw [htext, List.append_assoc, List.cons_append]
      obtain ⟨j, hread, hj⟩ := hitem.read fuel (',' :: (itemsData (next :: items) ++ ']' :: rest))
        (by omega) (Json.endsNumber_cons (.inl rfl) _)
      obtain ⟨js, hreads, hjs⟩ := ih hitems nofun fuel (by omega)
      exact ⟨j :: js, Json.readItems_comma hread hreads, by rw [ofItems, hj, hjs]; rfl⟩

theorem reads_list (hitems : ∀ item ∈ items, item.Reads room) : (list items).Reads (room + 1) := by
  have hdata : (list items).data = '[' :: (itemsData items ++ [']']) := rfl
  refine .of_cons hdata rfl (by decide) fun fuel rest hfuel _ => ?_
  rw [List.length_append, List.length_singleton] at hfuel
  rw [List.append_assoc, List.singleton_append]
  cases items with
  | nil => exact ⟨.array [], rfl, rfl⟩
  | cons item items =>
    obtain ⟨js, hreads, hjs⟩ := readItems_itemsData hitems nofun fuel (by omega) rest
    refine ⟨.array js, ?_, by rw [ofJson, hjs]; rfl⟩
    obtain ⟨c, tail, hdata, hspace, hc⟩ := (hitems item List.mem_cons_self).head
    obtain ⟨others, htext⟩ : ∃ others, itemsData (item :: items) = item.data ++ others := ⟨_, rfl⟩
    rw [htext, hdata, List.cons_append, List.cons_append] at hreads ⊢
    exact Json.readValue_array hspace hc hreads

/-- Members are read up to the brace behind them. -/
theorem readMembers_entriesData (hentries : ∀ e ∈ entries, e.2.Reads room) (hne : entries ≠ [])
    (fuel : Nat) (hfuel : 2 * (entriesData entries).length < fuel) (rest : List Char) :
    ∃ ms, Json.readMembers fuel room (entriesData entries ++ '\x7d' :: rest) = some (ms, rest) ∧
      ofMembers ms = unsignEntries entries := by
  induction entries generalizing fuel with
  | nil => exact absurd rfl hne
  | cons e entries ih =>
    obtain ⟨key, v⟩ := e
    obtain ⟨fuel, rfl⟩ : ∃ n, fuel = n + 1 := Nat.exists_eq_add_of_le' (by omega)
    obtain ⟨hv, hentries⟩ := List.forall_mem_cons.1 hentries
    change v.Reads room at hv
    cases entries with
    | nil =>
      have htext : entriesData [(key, v)] = Json.quote key ++ ':' :: v.data := by
        simp [entriesData]
      rw [htext, List.length_append, List.length_cons] at hfuel
      rw [htext, List.append_assoc, List.cons_append]
      obtain ⟨j, hread, hj⟩ := hv.read fuel ('\x7d' :: rest) (by omega)
        (Json.endsNumber_cons (.inr (.inr rfl)) rest)
      exact ⟨[(key, j)], Json.readMembers_last hread, by rw [ofMembers, hj]; rfl⟩
    | cons next entries =>
      have htext : entriesData ((key, v) :: next :: entries) =
          Json.quote key ++ ':' :: (v.data ++ ',' :: entriesData (next :: entries)) := by
        simp [entriesData]
      rw [htext, List.length_append, List.length_cons, List.length_append,
        List.length_cons] at hfuel
      rw [htext, List.append_assoc, List.cons_append, List.append_assoc, List.cons_append]
      obtain ⟨j, hread, hj⟩ := hv.read fuel
        (',' :: (entriesData (next :: entries) ++ '\x7d' :: rest)) (by omega)
        (Json.endsNumber_cons (.inl rfl) _)
      obtain ⟨ms, hreads, hms⟩ := ih hentries nofun fuel (by omega)
      exact ⟨(key, j) :: ms, Json.readMembers_comma hread hreads,
        by rw [ofMembers, hj, hms]; rfl⟩

theorem reads_map (hentries : ∀ e ∈ entries, e.2.Reads room)
    (hkeys : (Entries.keys entries).Nodup) : (map entries).Reads (room + 1) := by
  have hdata : (map entries).data = '\x7b' :: (entriesData entries ++ ['\x7d']) := rfl
  refine .of_cons hdata rfl (by decide) fun fuel rest hfuel _ => ?_
  rw [List.length_append, List.length_singleton] at hfuel
  rw [List.append_assoc, List.singleton_append]
  cases entries with
  | nil => exact ⟨.object [], rfl, rfl⟩
  | cons e entries =>
    obtain ⟨ms, hreads, hms⟩ :=
      readMembers_entriesData hentries nofun fuel (by omega) rest
    have hnodup : (Entries.keys (unsignEntries (e :: entries))).Nodup := by
      rwa [keys_unsignEntries]
    refine ⟨.object ms, ?_, by rw [ofJson, hms, Entries.ofList_of_nodup hnodup]; rfl⟩
    obtain ⟨others, htext⟩ :
      ∃ others, entriesData (e :: entries) = Json.quote e.1 ++ others := ⟨_, List.append_assoc ..⟩
    rw [htext, List.append_assoc] at hreads ⊢
    exact Json.readValue_object hreads

/-- A value with whole numbers and distinct keys is read where its containers have room. -/
theorem reads {v : Value} (hwhole : ∀ depth n, Part depth (number n) v → n.IsWhole)
    (hkeys : ∀ depth entries, Part depth (map entries) v → (Entries.keys entries).Nodup)
    (hdeep : ∀ depth u, Part depth u v → u.isContainer = true → depth < room) :
    v.Reads room := by
  induction v generalizing room with
  | null => exact reads_null room
  | bool b => exact reads_bool b room
  | number n => exact reads_number (hwhole 0 n (.self _)) room
  | string s => exact reads_string s room
  | list items ih =>
    obtain ⟨room, rfl⟩ := Nat.exists_eq_add_of_le' (hdeep 0 _ (.self _) rfl)
    refine reads_list fun item hmem => ih item hmem ?_ ?_ ?_
    · exact fun depth n h => hwhole (depth + 1) n (.item hmem h)
    · exact fun depth entries h => hkeys (depth + 1) entries (.item hmem h)
    · exact fun depth u h hu => Nat.lt_of_succ_lt_succ (hdeep (depth + 1) u (.item hmem h) hu)
  | map entries ih =>
    obtain ⟨room, rfl⟩ := Nat.exists_eq_add_of_le' (hdeep 0 _ (.self _) rfl)
    refine reads_map (fun e hmem => ih e hmem ?_ ?_ ?_) (hkeys 0 entries (.self _))
    · exact fun depth n h => hwhole (depth + 1) n (.entry hmem h)
    · exact fun depth entries h => hkeys (depth + 1) entries (.entry hmem h)
    · exact fun depth u h hu => Nat.lt_of_succ_lt_succ (hdeep (depth + 1) u (.entry hmem h) hu)

/-- A value is read back from its data form, its keys in their order, as long as its numbers are
whole and below 2^53 and no more containers are inside of each other than a file may nest. Zeros
come back without their sign, and everything else as it was. -/
theorem json_roundtrip {v : Value} (hwhole : ∀ depth n, Part depth (number n) v → n.IsWhole)
    (hkeys : ∀ depth entries, Part depth (map entries) v → (Entries.keys entries).Nodup)
    (hdeep : ∀ depth u, Part depth u v → u.isContainer = true → depth < Json.nestingLimit) :
    ∃ j, Json.read? Json.nestingLimit v.json = some j ∧ ofJson j = v.unsignZeros ∧
      ((∀ depth, ¬ Part depth (number (.finite true .zero)) v) → ofJson j = v) := by
  obtain ⟨j, hread, hj⟩ := (reads hwhole hkeys hdeep).read (2 * v.data.length + 2) []
    (Nat.le_add_right _ 2) nofun
  refine ⟨j, ?_, hj, fun hsigns => hj.trans (unsignZeros_eq_self hsigns)⟩
  rw [List.append_nil] at hread
  rw [Json.read?, json, String.toList_ofList]
  simp only [hread, Option.bind_eq_bind, Option.bind_some]
  rfl

/-- Keys with escapes and without a character, and a negative number in a sequence. -/
theorem json_roundtrip_nested :
    let v := map [("\"\n\x01", list [number (.finite true ⟨6755399441055744, -51, by decide⟩), null,
      string "\\é"]), ("", map [])]
    ∃ j, Json.read? Json.nestingLimit v.json = some j ∧ ofJson j = v := by
  intro v
  have hparts {depth : Nat} {u : Value} (h : Part depth u v) :
      (u.isContainer = true → depth ≤ 1) ∧
      (∀ n, u = number n → n = .finite true ⟨6755399441055744, -51, by decide⟩) ∧
      ∀ entries, u = map entries → (Entries.keys entries).Nodup := by
    dsimp only [v] at h
    cases h with
    | self => exact ⟨fun _ => by decide, by simp, by rintro _ ⟨⟩; decide⟩
    | entry hmem h =>
      simp only [List.mem_cons, List.not_mem_nil, or_false] at hmem
      obtain rfl | rfl := hmem
      · cases h with
        | self => exact ⟨fun _ => by decide, by simp, by simp⟩
        | item hmem h =>
          simp only [List.mem_cons, List.not_mem_nil, or_false] at hmem
          obtain rfl | rfl | rfl := hmem <;> cases h <;> simp [isContainer]
      · cases h with
        | self => simp [Entries.keys]
        | entry hmem => cases hmem
  obtain ⟨j, hread, -, hsame⟩ := json_roundtrip (v := v)
    (fun depth n h => by
      rw [(hparts h).2.1 n rfl]
      exact ⟨3, Magnitude.natural?_eq_some_iff.1 (by decide +kernel), by decide⟩)
    (fun depth entries h => (hparts h).2.2 entries rfl)
    (fun depth u h hu => Nat.lt_of_le_of_lt ((hparts h).1 hu) (by decide))
  refine ⟨j, hread, hsame fun depth h => ?_⟩
  have hzero := (hparts h).2.1 _ rfl
  simp [Magnitude.zero] at hzero

end Value
end LiveMarkup
