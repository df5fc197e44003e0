import LiveMarkup.Proofs.Addressing

/-! Keys of sequences. The key of an element is its index in decimal, and only that: an index is
read from its one written form, digit by digit within 64 bits, so that no element has two keys. -/
namespace LiveMarkup

namespace Text

variable {key : String} {ds : List Char} {n : Nat}

/-- A number that fits 64 bits. -/
def word? (n : Nat) : Option Nat := if n < 0x10000000000000000 then some n else none

/-- Reads digits from the left, each product and each sum within 64 bits. -/
def readWord? (ds : List Char) : Option Nat :=
  ds.foldlM (fun n d => do word? ((← word? (10 * n)) + digitValue d)) 0

theorem readWord?_append_singleton (ds : List Char) (d : Char) :
    readWord? (ds ++ [d]) = (readWord? ds).bind fun n =>
      (word? (10 * n)).bind fun tens => word? (tens + digitValue d) := by
  simp [readWord?, List.foldlM_append]

/-- Nothing overflows on the way if the number itself fits. -/
theorem readWord?_eq (ds : List Char) : readWord? ds = word? (readDecimal ds) := by
  obtain ⟨reversed, rfl⟩ : ∃ reversed : List Char, ds = reversed.reverse :=
    ⟨_, ds.reverse_reverse.symm⟩
  induction reversed with
  | nil => rfl
  | cons d reversed ih =>
    rw [List.reverse_cons, readWord?_append_singleton, readDecimal_append_singleton, ih]
    generalize readDecimal reversed.reverse = n
    by_cases hfits : 10 * n < 0x10000000000000000
    · have hn : n < 0x10000000000000000 := by omega
      rw [word?, if_pos hn, Option.bind_some, word?, if_pos hfits, Option.bind_some]
    · have hover : ¬ 10 * n + digitValue d < 0x10000000000000000 := by omega
      rw [word?, word?, if_neg hover]
      split
      · rw [Option.bind_some, word?, if_neg hfits, Option.bind_none]
      · rw [Option.bind_none]

/-- An index is read digit by digit, where the digits have the one form that is written. -/
theorem index?_eq_readWord? (key : String) :
    index? key = if isCanonical key.toList then readWord? key.toList else none := by
  rw [readWord?_eq, index?, word?]
  cases isCanonical key.toList <;> simp

theorem isCanonical_eq_false_iff : isCanonical ds = false ↔
    ds = [] ∨ (∃ c ∈ ds, isDigit c = false) ∨ ∃ c rest, ds = '0' :: c :: rest := by
  rcases ds with _ | ⟨c, _ | ⟨d, rest⟩⟩
  · simp [isCanonical]
  · by_cases hc : c = '0' <;> simp [isCanonical, hc]
  · simp [isCanonical]
    grind

/-- What is no index: nothing, what has anything but digits, what has leading zeros, and what does
not fit 64 bits. -/
theorem index?_eq_none_iff : index? key = none ↔
    key = "" ∨ (∃ c ∈ key.toList, isDigit c = false) ∨ (∃ c rest, key.toList = '0' :: c :: rest) ∨
      0x10000000000000000 ≤ readDecimal key.toList := by
  have hform : isCanonical key.toList = false ↔ _ := isCanonical_eq_false_iff
  rw [String.toList_eq_nil_iff] at hform
  rw [← or_assoc, ← or_assoc, or_assoc (a := key = ""), ← hform, ← Nat.not_lt]
  simp only [index?, ite_eq_right_iff, reduceCtorEq, imp_false, Bool.and_eq_true,
    decide_eq_true_eq, Decidable.not_and_iff_not_or_not, Bool.not_eq_true]

theorem toDigits_eq_decimal (n : Nat) : Nat.toDigits 10 n = decimal n := by
  have hdigit {n : Nat} (h : n < 10) : Nat.digitChar n = digit n := by
    match n, h with
    | 0, _ | 1, _ | 2, _ | 3, _ | 4, _ | 5, _ | 6, _ | 7, _ | 8, _ | 9, _ => rfl
  fun_induction decimal n with
  | case1 n h => rw [Nat.toDigits_of_lt_base h, hdigit h]
  | case2 n h ih =>
    have hlt : n % 10 < 10 := Nat.mod_lt n (by decide)
    rw [← ih, ← hdigit hlt, ← Nat.toDigits_of_lt_base hlt,
      Nat.toDigits_append_toDigits (by decide) (by omega) hlt, Nat.div_add_mod]

theorem decimalString_eq_toString (n : Nat) : decimalString n = toString n := by
  rw [decimalString, ← toDigits_eq_decimal]
  rfl

end Text

open Text

variable {key : String} {items : List Value} {v : Value} {n : Nat}

theorem Value.child?_list_eq_some_iff : (Value.list items).child? key = some v ↔
    ∃ n, n < 0x10000000000000000 ∧ key = decimalString n ∧ items[n]? = some v := by
  simp only [child?, Option.bind_eq_some_iff, index?_eq_some_iff, and_assoc]

theorem Handle.get?_list_eq_some_iff {h : Handle} {model : Value} {entry : Entry}
    (hv : h.locate? model = some (.list items)) : h.get? model key = some entry ↔
      ∃ n v, n < 0x10000000000000000 ∧ key = decimalString n ∧ items[n]? = some v ∧
        entry = if v.isContainer then .nested ⟨h.steps ++ [.index n]⟩ else .scalar v := by
  simp only [get?_eq hv, step?, Option.bind_eq_some_iff, Option.map_eq_some_iff,
    index?_eq_some_iff]
  constructor
  · rintro ⟨_, ⟨n, ⟨hn, hkey⟩, rfl⟩, v, hitem, rfl⟩
    exact ⟨n, v, hn, hkey, hitem, rfl⟩
  · rintro ⟨n, v, hn, hkey, hitem, rfl⟩
    exact ⟨_, ⟨n, ⟨hn, hkey⟩, rfl⟩, v, hitem, rfl⟩

theorem Write.index_eq_ok_iff :
    Write.index key = .ok n ↔ n < 0x10000000000000000 ∧ key = decimalString n := by
  rw [← index?_eq_some_iff, index]
  cases index? key <;> simp

/-- Reading an index is the exact inverse of writing one in decimal. A key is read as a number if
and only if it is what is written for it and the number is below 2^64, and this is what comes of
reading digit by digit where every product and every sum must fit. It is read as no number if and
only if it is empty, has anything but ASCII digits in it, begins with a needless zero or means a
number from 2^64 on. So each element of a sequence is found under one key, by templates and
through handles, and written under one key. -/
theorem index_inverts_decimal (key : String) :
    (∀ n, index? key = some n ↔ n < 0x10000000000000000 ∧ key = decimalString n) ∧
    (∀ n, decimalString n = toString n) ∧
    (index? key = if isCanonical key.toList then readWord? key.toList else none) ∧
    (index? key = none ↔ key = "" ∨ (∃ c ∈ key.toList, isDigit c = false) ∨
      (∃ c rest, key.toList = '0' :: c :: rest) ∨
      0x10000000000000000 ≤ readDecimal key.toList) ∧
    (∀ key' n, index? key = some n → index? key' = some n → key' = key) ∧
    (∀ items v, (Value.list items).child? key = some v ↔
      ∃ n, n < 0x10000000000000000 ∧ key = decimalString n ∧ items[n]? = some v) ∧
    (∀ (h : Handle) model items entry, h.locate? model = some (.list items) →
      (h.get? model key = some entry ↔
        ∃ n v, n < 0x10000000000000000 ∧ key = decimalString n ∧ items[n]? = some v ∧
          entry = if v.isContainer then .nested ⟨h.steps ++ [.index n]⟩ else .scalar v)) ∧
    ∀ n, Write.index key = .ok n ↔ n < 0x10000000000000000 ∧ key = decimalString n := by
  refine ⟨fun n => index?_eq_some_iff, decimalString_eq_toString, index?_eq_readWord? key,
    index?_eq_none_iff, fun key' n hkey hkey' => ?_, fun items v => Value.child?_list_eq_some_iff,
    fun h model items entry => Handle.get?_list_eq_some_iff, fun n => Write.index_eq_ok_iff⟩
  rw [(index?_eq_some_iff.1 hkey).2, (index?_eq_some_iff.1 hkey').2]

/-- The last index there is and the first number beyond, a sign, a needless zero and a digit that is
not an ASCII one; and the second element of a sequence, under its one key. -/
theorem index_inverts_decimal_last :
    index? "18446744073709551615" = some 18446744073709551615 ∧
    (∀ key ∈ ["18446744073709551616", "+1", "01", "١"], index? key = none) ∧
    ∀ key, (Value.list [.null, .bool true]).child? key = some (.bool true) ↔ key = "1" := by
  refine ⟨((index_inverts_decimal _).1 _).2 ⟨by decide, by decide +kernel⟩, ?_, fun key => ?_⟩
  · intro key hkey
    refine (index_inverts_decimal key).2.2.2.1.2 ?_
    simp only [List.mem_cons, List.not_mem_nil, or_false] at hkey
    rcases hkey with rfl | rfl | rfl | rfl
    · exact Or.inr (Or.inr (Or.inr (by decide)))
    · exact Or.inr (Or.inl ⟨'+', by decide, by decide⟩)
    · exact Or.inr (Or.inr (Or.inl ⟨'1', [], by decide⟩))
    · exact Or.inr (Or.inl ⟨'١', by decide, by decide⟩)
  · have hone : decimalString 1 = "1" := by decide +kernel
    rw [(index_inverts_decimal key).2.2.2.2.2.1]
    constructor
    · rintro ⟨_ | _ | n, -, rfl, hitem⟩
      · cases hitem
      · exact hone
      · cases hitem
    · rintro rfl
      exact ⟨1, by decide, hone.symm, rfl⟩

end LiveMarkup
