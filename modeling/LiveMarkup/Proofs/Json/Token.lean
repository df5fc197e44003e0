import LiveMarkup.Json.Reader
import LiveMarkup.Proofs.Number.Exact
import LiveMarkup.Text.Index

/-! The tokens of JSON read back. A string between its quotes is read character by character, each
from its escape; whole numbers are read from their digits up to what cannot go on with a number. -/
namespace LiveMarkup.Json

variable {c : Char} {rest : List Char} {n : Nat}

theorem hexValue?_hexDigit : ∀ n < 16, hexValue? (hexDigit n) = some n := by decide

/-- A control is read from the number that it was escaped by. -/
theorem readCodePoint_control (hc : c.toNat < 0x20) (rest : List Char) :
    readCodePoint ('0' :: '0' :: hexDigit (c.toNat / 16) :: hexDigit (c.toNat % 16) :: rest) =
      some (c, rest) := by
  have hhigh := hexValue?_hexDigit (c.toNat / 16) (by omega)
  have hlow := hexValue?_hexDigit (c.toNat % 16) (by omega)
  have hzero : hexValue? '0' = some 0 := rfl
  have hunit : readUnit
      ('0' :: '0' :: hexDigit (c.toNat / 16) :: hexDigit (c.toNat % 16) :: rest) =
        some (c.toNat, rest) := by
    simp only [readUnit, hzero, hhigh, hlow, Option.bind_eq_bind, Option.bind_some,
      Option.pure_def]
    congr 2
    omega
  rw [readCodePoint, hunit]
  simp only [Option.bind_eq_bind, Option.bind_some]
  rw [if_neg (by omega), if_neg (by omega), Char.ofNat_toNat]
  rfl

theorem readString_escape {escape tail : List Char} (h : readEscape escape = some (c, tail)) :
    readString ('\\' :: escape) = (readString tail).map fun (cs, t) => (c :: cs, t) := by
  rw [readString, if_neg (by decide), if_pos rfl]
  split
  · next hnone => rw [h] at hnone; cases hnone
  · next hsome =>
    rw [h] at hsome
    cases hsome
    rfl

/-- One character of a string is read from what it is written as. -/
theorem readString_escapeChar (c : Char) (rest : List Char) :
    readString (escapeChar c ++ rest) = (readString rest).map fun (cs, t) => (c :: cs, t) := by
  rw [escapeChar.eq_def]
  split
  · exact readString_escape rfl
  · exact readString_escape rfl
  · exact readString_escape rfl
  · exact readString_escape rfl
  · exact readString_escape rfl
  · exact readString_escape rfl
  · exact readString_escape rfl
  · next hquote hbackslash _ _ _ _ _ =>
    split
    · next hc => exact readString_escape (readCodePoint_control hc rest)
    · next hc => rw [List.singleton_append, readString, if_neg hquote, if_neg hbackslash, if_neg hc]

/-- The characters of a string are read up to its closing quote. -/
theorem readString_flatMap (s rest : List Char) :
    readString (s.flatMap escapeChar ++ '"' :: rest) = some (s, rest) := by
  induction s with
  | nil => rw [List.flatMap_nil, List.nil_append, readString, if_pos rfl]
  | cons c s ih =>
    rw [List.flatMap_cons, List.append_assoc, readString_escapeChar, ih]
    rfl

/-- What cannot go on with a number: neither a digit nor a point nor an exponent is in front. -/
def EndsNumber (rest : List Char) : Prop :=
  ∀ c ∈ rest.head?, Text.isDigit c = false ∧ c ≠ '.' ∧ c ≠ 'e' ∧ c ≠ 'E'

theorem takeWhile_isDigit_append {ds : List Char} (hds : ds.all Text.isDigit = true)
    (hrest : EndsNumber rest) :
    (ds ++ rest).takeWhile Text.isDigit = ds ∧ (ds ++ rest).dropWhile Text.isDigit = rest := by
  have hall : ∀ d ∈ ds, Text.isDigit d = true := List.all_eq_true.1 hds
  rw [List.takeWhile_append_of_pos hall, List.dropWhile_append_of_pos hall]
  cases rest with
  | nil => simp
  | cons c rest => simp [(hrest c rfl).1]

theorem readFraction_of_ends (hrest : EndsNumber rest) : readFraction rest = some ([], rest) := by
  rw [readFraction.eq_def]
  split
  · exact absurd rfl (hrest '.' rfl).2.1
  · rfl

theorem readExponent_of_ends (hrest : EndsNumber rest) : readExponent rest = some (none, rest) := by
  cases rest with
  | nil => rfl
  | cons c rest =>
    obtain ⟨-, -, he, hE⟩ := hrest c rfl
    simp [readExponent, he, hE]

theorem le_foldl_digits (ds : List Char) (n : Nat) :
    n ≤ ds.foldl (fun n d => 10 * n + Text.digitValue d) n := by
  induction ds generalizing n with
  | nil => exact Nat.le_refl n
  | cons d ds ih =>
    have hstep : n ≤ 10 * n + Text.digitValue d := by omega
    exact Nat.le_trans hstep (ih _)

/-- Digits are all taken where the number that they make fits. -/
theorem takeFitting_eq (ds : List Char) (n : Nat)
    (h : ds.foldl (fun n d => 10 * n + Text.digitValue d) n < 0x10000000000000000) :
    Decimal.takeFitting n ds = (ds.foldl (fun n d => 10 * n + Text.digitValue d) n, []) := by
  induction ds generalizing n with
  | nil => rfl
  | cons d ds ih =>
    rw [List.foldl_cons] at h
    rw [Decimal.takeFitting, List.foldl_cons, if_pos (Nat.lt_of_le_of_lt (le_foldl_digits ds _) h),
      ih _ h]

theorem ofLiteral_decimal (h : n < 0x10000000000000000) :
    Decimal.ofLiteral (Text.decimal n) [] 0 = ⟨n, 0⟩ := by
  have hread := Text.readDecimal_decimal n
  rw [Text.readDecimal] at hread
  have htake := takeFitting_eq (Text.decimal n) 0 (by rw [hread]; exact h)
  rw [hread] at htake
  simp [Decimal.ofLiteral, htake, Decimal.takeFitting]

/-- A whole number that is a magnitude is read from its digits. -/
theorem readNumeral_decimal {x : Magnitude} (hx : x.value = n)
    (hn : n < 0x10000000000000000) (hrest : EndsNumber rest) (negative : Bool) :
    readNumeral negative (Text.decimal n ++ rest) = some (⟨negative, x, some n⟩, rest) := by
  obtain ⟨htake, hdrop⟩ := takeWhile_isDigit_append (Text.all_isDigit_decimal n) hrest
  have hcanonical := Text.isCanonical_decimal n
  have hwhole : ((Text.decimal n).isEmpty ||
      (Text.decimal n).head? == some '0' && (Text.decimal n).length != 1) = false := by
    simp only [Text.isCanonical, Bool.and_eq_true, Bool.or_eq_true, beq_iff_eq] at hcanonical
    obtain ⟨⟨hne, -⟩, hzero | hzero⟩ := hcanonical
    · rw [hzero]
      rfl
    · simp_all
  rw [readNumeral]
  simp only [htake, hdrop, hwhole, readFraction_of_ends hrest, readExponent_of_ends hrest,
    ofLiteral_decimal hn, Magnitude.ofDecimal?_natural hx, Text.readDecimal_decimal,
    Option.bind_eq_bind, Option.bind_some, Option.getD_none]
  rfl

end LiveMarkup.Json
