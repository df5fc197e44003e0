/-! Natural numbers in decimal, and digits of other bases. -/
namespace LiveMarkup.Text

/-- The digit for a number below ten. -/
def digit (n : Nat) : Char := Char.ofNat (n + 48)

/-- The number that an ASCII digit stands for. -/
def digitValue (c : Char) : Nat := c.toNat - 48

def isDigit (c : Char) : Bool := 48 ≤ c.toNat && c.toNat ≤ 57

/-- Decimal digits, most significant first; zero has one. -/
def decimal (n : Nat) : List Char :=
  if n < 10 then [digit n] else decimal (n / 10) ++ [digit (n % 10)]
termination_by n

theorem decimal_ne_nil (n : Nat) : decimal n ≠ [] := by
  rw [decimal]
  split <;> simp

/-- Reads digits from the most significant one on. -/
def readDecimal (ds : List Char) : Nat := ds.foldl (fun n d => 10 * n + digitValue d) 0

theorem toNat_digit {n : Nat} (h : n < 10) : (digit n).toNat = n + 48 := by
  match n, h with
  | 0, _ | 1, _ | 2, _ | 3, _ | 4, _ | 5, _ | 6, _ | 7, _ | 8, _ | 9, _ => rfl

theorem digitValue_digit {n : Nat} (h : n < 10) : digitValue (digit n) = n := by
  simp [digitValue, toNat_digit h]

theorem isDigit_digit {n : Nat} (h : n < 10) : isDigit (digit n) = true := by
  simp [isDigit, toNat_digit h]; omega

theorem digit_digitValue {c : Char} (h : isDigit c = true) : digit (digitValue c) = c := by
  simp only [isDigit, Bool.and_eq_true, decide_eq_true_eq] at h
  rw [digit, digitValue, Nat.sub_add_cancel h.1, Char.ofNat_toNat]

theorem digitValue_lt {c : Char} (h : isDigit c = true) : digitValue c < 10 := by
  simp only [isDigit, Bool.and_eq_true, decide_eq_true_eq] at h
  rw [digitValue]
  omega

theorem readDecimal_append_singleton (ds : List Char) (d : Char) :
    readDecimal (ds ++ [d]) = 10 * readDecimal ds + digitValue d := by
  simp [readDecimal]

/-- Reading undoes writing. -/
theorem readDecimal_decimal (n : Nat) : readDecimal (decimal n) = n := by
  fun_induction decimal n with
  | case1 n h => simp [readDecimal, digitValue_digit h]
  | case2 n h ih =>
    rw [readDecimal_append_singleton, ih, digitValue_digit (Nat.mod_lt _ (by decide))]
    omega

theorem all_isDigit_decimal (n : Nat) : (decimal n).all isDigit = true := by
  fun_induction decimal n with
  | case1 n h => simp [isDigit_digit h]
  | case2 n h ih => simp [ih, isDigit_digit (Nat.mod_lt n (by decide : 0 < 10))]

/-- The value of a digit in a base up to sixteen. -/
def digitIn? (base : Nat) (c : Char) : Option Nat :=
  let n := c.toNat
  let value :=
    if 48 ≤ n ∧ n ≤ 57 then some (n - 48)
    else if 97 ≤ n ∧ n ≤ 102 then some (n - 87)
    else if 65 ≤ n ∧ n ≤ 70 then some (n - 55)
    else none
  value.filter (· < base)

/-- Reads digits in a base. -/
def readDigits? (base : Nat) (s : List Char) : Option Nat :=
  s.foldlM (fun n c => (digitIn? base c).map (base * n + ·)) 0

def decimalString (n : Nat) : String := String.ofList (decimal n)

end LiveMarkup.Text
