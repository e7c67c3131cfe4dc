import ContractAbi.Binary64

/-!
The shortest decimal that reads back as a given magnitude. Decimals of one length lie on a grid; the
first grid with a point in the interval of numbers that round to the magnitude is taken, and of its
points the one nearest to the magnitude.
-/

namespace ContractAbi

/-- The number `coefficient · 10 ^ exponent`. -/
structure Decimal where
  coefficient : Nat
  exponent : Int
deriving DecidableEq, Repr

namespace Magnitude

/-- Whether a magnitude is the least of its binade and so twice as far from the next number above as
from the one below. -/
def atBinadeStart (x : Magnitude) : Bool :=
  x.significand == Nat.pow 2 52 && decide (-1074 < x.exponent)

/-- In quarters of the last binary place: how far below the magnitude the numbers go that round to
it. Above, it is always half a place. -/
def quartersBelow (x : Magnitude) : Nat := if x.atBinadeStart then 1 else 2

/-- A number of grid steps of ten to the `p`, brought to a common scale with `quarterScale`. -/
def stepScale (x : Magnitude) (p : Int) (steps : Nat) : Nat :=
  steps * Nat.pow 10 p.toNat * Nat.pow 2 (2 - x.exponent).toNat

/-- A number of quarters of the last binary place. -/
def quarterScale (x : Magnitude) (p : Int) (quarters : Nat) : Nat :=
  quarters * Nat.pow 2 (x.exponent - 2).toNat * Nat.pow 10 (-p).toNat

/-- Whether a grid point rounds to the magnitude; the ends do so if the significand is even. -/
def covers (x : Magnitude) (p : Int) (steps : Nat) : Bool :=
  let point := x.stepScale p steps
  let low := x.quarterScale p (4 * x.significand - x.quartersBelow)
  let high := x.quarterScale p (4 * x.significand + 2)
  if x.significand % 2 = 0 then low ≤ point && point ≤ high else low < point && point < high

/-- The point on the grid of step ten to the `p` that rounds to the magnitude and is nearest to it;
of two equally near points the even one. -/
def onGrid? (x : Magnitude) (p : Int) : Option Nat :=
  let target := x.quarterScale p (4 * x.significand)
  let below := target / x.stepScale p 1
  let above := below + 1
  let gapBelow := target - x.stepScale p below
  let gapAbove := x.stepScale p above - target
  match x.covers p below, x.covers p above with
  | true, true =>
    some (if gapBelow < gapAbove ∨ (gapBelow = gapAbove ∧ below % 2 = 0) then below else above)
  | true, false => some below
  | false, true => some above
  | false, false => none

/-- The exponent of the first digit. All magnitudes but zero are above `10 ^ -324`. -/
def leadingExponent (x : Magnitude) : Int :=
  let digits := Nat.toDigits 10
    (x.significand * Nat.pow 2 x.exponent.toNat * Nat.pow 10 324 / Nat.pow 2 (-x.exponent).toNat)
  (digits.length : Int) - 325

/-- Seventeen digits are always enough. -/
def shortest (x : Magnitude) : Decimal :=
  if x.significand = 0 then ⟨0, 0⟩
  else
    let found := (List.range 17).findSome? fun (n : Nat) =>
      let p := x.leadingExponent - n
      (x.onGrid? p).map fun steps => (⟨steps, p⟩ : Decimal)
    found.getD ⟨0, 0⟩

end Magnitude

/-- Digits without zeros at the end, and the exponent of the first of them. -/
def Decimal.scientific (d : Decimal) : List Char × Int :=
  let digits := Nat.toDigits 10 d.coefficient
  let kept := (digits.reverse.dropWhile (· == '0')).reverse
  (kept, d.exponent + digits.length - 1)

end ContractAbi
