/-!
Numerals. Digits are read with the highest place first and may be as many as memory holds.
-/

namespace ContractAbi.Text

/-- The value of a decimal numeral; a text with another character in it, or none, has no value. -/
def decimal? (digits : List Char) : Option Nat :=
  if digits ≠ [] ∧ digits.all Char.isDigit then some (Nat.ofDigitChars 10 digits 0) else none

theorem decimal?_toDigits (n : Nat) : decimal? (Nat.toDigits 10 n) = some n := by
  have hd : (Nat.toDigits 10 n).all Char.isDigit = true :=
    List.all_eq_true.2 fun c hc => Nat.isDigit_of_mem_toDigits (by decide) (by decide) hc
  simp [decimal?, Nat.toDigits_ne_nil, hd, Nat.ofDigitChars_toDigits]

/-- The value of a decimal numeral that a word of 64 bits can hold. -/
def word64? (digits : List Char) : Option UInt64 :=
  (decimal? digits).bind fun n => if n < UInt64.size then some (UInt64.ofNat n) else none

/-- The digit that a character stands for, of either case. -/
def digitValue? (c : Char) : Option Nat :=
  if '0' ≤ c ∧ c ≤ '9' then some (c.toNat - '0'.toNat)
  else if 'a' ≤ c ∧ c ≤ 'f' then some (c.toNat - 'a'.toNat + 10)
  else if 'A' ≤ c ∧ c ≤ 'F' then some (c.toNat - 'A'.toNat + 10)
  else none

def digitBelow? (base : Nat) (c : Char) : Option Nat :=
  (digitValue? c).filter (· < base)

/-- Continues a numeral whose places so far are worth `n`. Underscores divide digits and count for
nothing. -/
def groupedFrom? (base n : Nat) : List Char → Option Nat
  | [] => some n
  | '_' :: rest => groupedFrom? base n rest
  | c :: rest => (digitBelow? base c).bind fun d => groupedFrom? base (base * n + d) rest

/-- A numeral with an optional plus sign before it, a digit first, and underscores between its
digits. -/
def grouped? (base : Nat) (text : List Char) : Option Nat :=
  let places := match text with
    | '+' :: rest => rest
    | _ => text
  match places with
  | [] => none
  | c :: rest => (digitBelow? base c).bind fun d => groupedFrom? base d rest

end ContractAbi.Text
