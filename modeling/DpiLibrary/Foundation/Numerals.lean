import Mathlib.Tactic.IntervalCases

/-!
# Numerals

`strtol` and its relatives read the longest numeral at the beginning of a text, after blanks and a
sign, and leave the rest. They are given here for any base, with what they make of the numerals
that are written for a number.
-/

namespace DpiLibrary
namespace Numerals

/-- `isspace`. -/
def isSpace (c : Char) : Bool :=
  c = ' ' || c = '\t' || c = '\n' || c = '\x0b' || c = '\x0c' || c = '\r'

/-- The value of a digit of any base up to 36. -/
def digitValue (c : Char) : ℕ :=
  if c.isDigit then c.toNat - '0'.toNat
  else if c.isLower then c.toNat - 'a'.toNat + 10
  else if c.isUpper then c.toNat - 'A'.toNat + 10
  else 36

def isDigitOf (base : ℕ) (c : Char) : Bool := digitValue c < base

/-- The value of the digits at the beginning. -/
def value (base : ℕ) (cs : List Char) : ℕ :=
  (cs.takeWhile (isDigitOf base)).foldl (fun n c => n * base + digitValue c) 0

/-- A sign, which is minus or not, and what follows it. -/
def sign : List Char → Bool × List Char
  | '-' :: cs => (true, cs)
  | '+' :: cs => (false, cs)
  | cs => (false, cs)

/-- The base that a prefix tells, and the digits. -/
def basePrefix : List Char → ℕ × List Char
  | '0' :: x :: c :: cs =>
    if (x = 'x' || x = 'X') && isDigitOf 16 c then (16, c :: cs) else (8, '0' :: x :: c :: cs)
  | '0' :: cs => (8, '0' :: cs)
  | cs => (10, cs)

/-- A number in base ten; nothing when there is no digit. -/
def readInt (text : List Char) : Option ℤ :=
  let (negative, cs) := sign (text.dropWhile isSpace)
  if (cs.head?.any (isDigitOf 10)) then
    some (if negative then -(value 10 cs : ℤ) else value 10 cs)
  else none

/-- `stoi`: `none` when it throws. -/
def stoi (text : List Char) : Option ℤ :=
  (readInt text).filter fun n => -2 ^ 31 ≤ n && n < 2 ^ 31

/-- `strtoul` with base zero. -/
def strtoul (text : List Char) : ℕ :=
  let (negative, cs) := sign (text.dropWhile isSpace)
  let (base, cs) := basePrefix cs
  let n := value base cs
  if n < 2 ^ 64 then if negative then (2 ^ 64 - n) % 2 ^ 64 else n else 2 ^ 64 - 1

/-- The decimal numeral of a number, as a stream writes it. -/
def decimal : ℤ → List Char
  | .ofNat n => Nat.toDigits 10 n
  | .negSucc n => '-' :: Nat.toDigits 10 (n + 1)

theorem digitValue_digitChar {d : ℕ} (h : d < 10) : digitValue (Nat.digitChar d) = d := by
  interval_cases d <;> rfl

theorem isDigitOf_ten {c : Char} (h : c.isDigit = true) : isDigitOf 10 c = true := by
  obtain ⟨hlow, hhigh⟩ : 48 ≤ c.toNat ∧ c.toNat ≤ 57 := by
    simp only [Char.isDigit, Bool.and_eq_true, decide_eq_true_eq, UInt32.le_iff_toNat_le,
      ge_iff_le] at h
    exact h
  have hzero : '0'.toNat = 48 := rfl
  simp only [isDigitOf, digitValue, h, if_true, hzero, decide_eq_true_eq]
  omega

theorem isDigitOf_of_mem {n : ℕ} {c : Char} (h : c ∈ Nat.toDigits 10 n) :
    isDigitOf 10 c = true :=
  isDigitOf_ten (Nat.isDigit_of_mem_toDigits (by decide) (by decide) h)

theorem foldl_toDigits (n : ℕ) :
    (Nat.toDigits 10 n).foldl (fun n c => n * 10 + digitValue c) 0 = n := by
  induction n using Nat.strong_induction_on with
  | h n ih =>
    rw [Nat.toDigits_eq_if (by decide)]
    split_ifs with hlt
    · simp [digitValue_digitChar hlt]
    · rw [List.foldl_append, ih (n / 10) (by omega)]
      simp only [List.foldl_cons, List.foldl_nil, digitValue_digitChar (Nat.mod_lt n (by decide))]
      omega

/-- A numeral is read back, whatever follows it. -/
theorem value_toDigits (n : ℕ) (rest : List Char) (hrest : rest.head?.all (! isDigitOf 10 ·)) :
    value 10 (Nat.toDigits 10 n ++ rest) = n := by
  have htake : (Nat.toDigits 10 n ++ rest).takeWhile (isDigitOf 10) = Nat.toDigits 10 n := by
    rw [List.takeWhile_append_of_pos fun c hc => isDigitOf_of_mem hc]
    cases rest with
    | nil => simp
    | cons c rest => simp_all
  rw [value, htake, foldl_toDigits]

/-- A numeral does not begin with a blank or a sign, and with a zero only when it is zero. -/
theorem toDigits_head (n : ℕ) : ∃ c cs, Nat.toDigits 10 n = c :: cs ∧ c.isDigit = true ∧
    (c = '0' → n = 0) := by
  induction n using Nat.strong_induction_on with
  | h n ih =>
    rw [Nat.toDigits_eq_if (by decide)]
    split_ifs with hlt
    · refine ⟨_, [], rfl, ?_, ?_⟩
      · interval_cases n <;> rfl
      · interval_cases n <;> simp [Nat.digitChar]
    · obtain ⟨c, cs, heq, hdigit, hzero⟩ := ih (n / 10) (by omega)
      refine ⟨c, cs ++ [Nat.digitChar (n % 10)], by rw [heq]; rfl, hdigit, fun hc => ?_⟩
      have hdiv := hzero hc
      omega

theorem not_isSpace_of_isDigit {c : Char} (h : c.isDigit = true) : isSpace c = false := by
  by_contra hspace
  simp only [isSpace, Bool.not_eq_false, Bool.or_eq_true, decide_eq_true_eq] at hspace
  rcases hspace with ((((rfl | rfl) | rfl) | rfl) | rfl) | rfl <;> simp [Char.isDigit] at h

theorem sign_of_isDigit {c : Char} {cs : List Char} (h : c.isDigit = true) :
    sign (c :: cs) = (false, c :: cs) := by
  unfold sign
  split
  · next heq =>
    cases heq
    simp [Char.isDigit] at h
  · next heq =>
    cases heq
    simp [Char.isDigit] at h
  · rfl

theorem mem_decimal {z : ℤ} {c : Char} (h : c ∈ decimal z) : c = '-' ∨ c.isDigit = true := by
  cases z with
  | ofNat n => exact .inr (Nat.isDigit_of_mem_toDigits (by decide) (by decide) h)
  | negSucc n =>
    rcases List.mem_cons.mp h with rfl | h
    · exact .inl rfl
    · exact .inr (Nat.isDigit_of_mem_toDigits (by decide) (by decide) h)

theorem decimal_ne_nil (z : ℤ) : decimal z ≠ [] := by
  cases z with
  | ofNat n =>
    obtain ⟨c, cs, heq, -⟩ := toDigits_head n
    simp [decimal, heq]
  | negSucc n => simp [decimal]

theorem readInt_decimal (z : ℤ) (rest : List Char) (hrest : rest.head?.all (! isDigitOf 10 ·)) :
    readInt (decimal z ++ rest) = some z := by
  cases z with
  | ofNat n =>
    obtain ⟨c, cs, heq, hdigit, -⟩ := toDigits_head n
    have hvalue := value_toDigits n rest hrest
    simp only [decimal, heq, List.cons_append] at hvalue ⊢
    simp [readInt, not_isSpace_of_isDigit hdigit, sign_of_isDigit hdigit, isDigitOf_ten hdigit,
      hvalue]
  | negSucc n =>
    obtain ⟨c, cs, heq, hdigit, -⟩ := toDigits_head (n + 1)
    have hvalue := value_toDigits (n + 1) rest hrest
    simp only [decimal, heq, List.cons_append] at hvalue ⊢
    have hspace : isSpace '-' = false := rfl
    simp [readInt, hspace, sign, isDigitOf_ten hdigit, hvalue]
    omega

/-- `stoi` reads back what was written for an `int`. -/
theorem stoi_decimal {z : ℤ} (hlow : -2 ^ 31 ≤ z) (hhigh : z < 2 ^ 31) (rest : List Char)
    (hrest : rest.head?.all (! isDigitOf 10 ·)) : stoi (decimal z ++ rest) = some z := by
  rw [stoi, readInt_decimal z rest hrest, Option.filter_some, if_pos]
  simp only [hlow, hhigh, decide_true, Bool.and_self]

/-- `strtoul` takes a numeral for a decimal one: it begins with a zero only when it is zero. -/
theorem strtoul_toDigits {n : ℕ} (h : n < 2 ^ 64) : strtoul (Nat.toDigits 10 n) = n := by
  obtain ⟨c, cs, heq, hdigit, hzero⟩ := toDigits_head n
  have hvalue := value_toDigits n [] rfl
  rw [List.append_nil] at hvalue
  by_cases hc : c = '0'
  · rw [hzero hc]
    rfl
  · have hprefix : basePrefix (c :: cs) = (10, c :: cs) := by
      unfold basePrefix
      split
      · next heq' =>
        cases heq'
        exact absurd rfl hc
      · next heq' =>
        cases heq'
        exact absurd rfl hc
      · rfl
    rw [heq] at hvalue ⊢
    have hspaces : (c :: cs).dropWhile isSpace = c :: cs :=
      List.dropWhile_cons_of_neg (by simp [not_isSpace_of_isDigit hdigit])
    simp only [strtoul, hspaces, sign_of_isDigit hdigit, hprefix, hvalue, if_pos h,
      Bool.false_eq_true, if_false]

end Numerals
end DpiLibrary
