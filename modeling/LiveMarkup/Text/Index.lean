import LiveMarkup.Text.Digits

/-! Sequence indices as text. An index has one written form: its decimal digits, without sign or
leading zeros; it is below 2^64. -/
namespace LiveMarkup.Text

/-- Digits only, at least one, and no leading zero but in zero itself. -/
def isCanonical (ds : List Char) : Bool :=
  !ds.isEmpty && ds.all isDigit && (ds == ['0'] || ds.head? != some '0')

def index? (key : String) : Option Nat :=
  let n := readDecimal key.toList
  if isCanonical key.toList && decide (n < 0x10000000000000000) then some n else none

theorem isCanonical_append_singleton {ds : List Char} {d : Char} :
    isCanonical (ds ++ [d]) = true ↔
      isDigit d = true ∧ (ds = [] ∨ isCanonical ds = true ∧ ds ≠ ['0']) := by
  cases ds with
  | nil => simp [isCanonical, Decidable.em]
  | cons c ds =>
    by_cases hc : c = '0'
    · simp [isCanonical, hc]
    · simp [isCanonical, hc]
      grind

/-- Writing undoes reading, where the digits have the one form that is written. -/
theorem decimal_readDecimal {ds : List Char} (h : isCanonical ds = true) :
    decimal (readDecimal ds) = ds := by
  obtain ⟨reversed, rfl⟩ : ∃ reversed : List Char, ds = reversed.reverse :=
    ⟨_, ds.reverse_reverse.symm⟩
  induction reversed with
  | nil => cases h
  | cons d reversed ih =>
    rw [List.reverse_cons] at h ⊢
    obtain ⟨hd, hds⟩ := isCanonical_append_singleton.1 h
    have hlt := digitValue_lt hd
    rw [readDecimal_append_singleton]
    rcases hds with hnil | ⟨hds, hzero⟩
    · rw [hnil, decimal, if_pos (by simpa [readDecimal] using hlt)]
      simp [readDecimal, digit_digitValue hd]
    · specialize ih hds
      have hpos : readDecimal reversed.reverse ≠ 0 := by
        intro hread
        rw [hread, decimal, if_pos (by decide)] at ih
        exact hzero ih.symm
      rw [decimal, if_neg (by omega), Nat.mul_add_div (by decide), Nat.mul_add_mod,
        Nat.div_eq_of_lt hlt, Nat.mod_eq_of_lt hlt, Nat.add_zero, ih, digit_digitValue hd]

theorem isCanonical_decimal (n : Nat) : isCanonical (decimal n) = true := by
  fun_induction decimal n with
  | case1 n h => simp [isCanonical, isDigit_digit h, Decidable.em]
  | case2 n h ih =>
    refine isCanonical_append_singleton.2 ⟨isDigit_digit (Nat.mod_lt n (by decide)), Or.inr ⟨ih, ?_⟩⟩
    intro hzero
    have hread : readDecimal (decimal (n / 10)) = 0 := by rw [hzero]; rfl
    rw [readDecimal_decimal] at hread
    omega

/-- Every index that fits 64 bits is read back from its written form. -/
theorem index?_decimalString {n : Nat} (h : n < 0x10000000000000000) :
    index? (decimalString n) = some n := by
  simp [index?, decimalString, isCanonical_decimal, readDecimal_decimal, h]

theorem eq_decimalString_of_index? {key : String} {n : Nat} (h : index? key = some n) :
    key = decimalString n := by
  rw [index?, Option.ite_none_right_eq_some, Bool.and_eq_true] at h
  obtain ⟨⟨hcanonical, -⟩, hread⟩ := h
  rw [decimalString, ← Option.some.inj hread, decimal_readDecimal hcanonical, String.ofList_toList]

theorem index?_eq_some_iff {key : String} {n : Nat} :
    index? key = some n ↔ n < 0x10000000000000000 ∧ key = decimalString n := by
  constructor
  · intro h
    refine ⟨?_, eq_decimalString_of_index? h⟩
    rw [index?, Option.ite_none_right_eq_some, Bool.and_eq_true, decide_eq_true_eq] at h
    exact Option.some.inj h.2 ▸ h.1.2
  · rintro ⟨h, rfl⟩
    exact index?_decimalString h

example : index? "0" = some 0 ∧ index? "10" = some 10 ∧ index? "01" = none ∧ index? "" = none ∧
    index? "+1" = none ∧ index? "18446744073709551615" = some 18446744073709551615 ∧
    index? "18446744073709551616" = none := by decide +kernel

end LiveMarkup.Text
