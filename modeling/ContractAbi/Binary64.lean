/-!
Finite binary64 numbers, with exact arithmetic and rounding to the nearest, ties to even. A
magnitude is `significand · 2 ^ exponent` with a significand below `2 ^ 53` and the least exponent
that is at least -1074, so that each number has one form.
-/

namespace ContractAbi

structure Magnitude where
  significand : Nat
  exponent : Int
deriving DecidableEq, Repr

structure Binary64 where
  negative : Bool
  magnitude : Magnitude
deriving DecidableEq, Repr

namespace Magnitude

def zero : Magnitude := ⟨0, -1074⟩

/-- The fraction `num / den · 2 ^ e`. -/
def shifted (num den : Nat) (e : Int) : Nat × Nat :=
  (num * Nat.pow 2 e.toNat, den * Nat.pow 2 (-e).toNat)

def roundHalfEven (num den : Nat) : Nat :=
  let quotient := num / den
  let twice := 2 * (num % den)
  if twice < den ∨ (twice = den ∧ quotient % 2 = 0) then quotient else quotient + 1

/-- The least exponent at which the quotient of two positive numbers has no more than 53 bits before
the point. -/
def exponentOf (num den : Nat) : Int :=
  let e := (num.log2 : Int) - den.log2 - 53
  let (n, d) := shifted num den (-e)
  max (-1074) (if n < Nat.pow 2 53 * d then e else e + 1)

/-- The magnitude nearest to `num / den`, unless that lies beyond the largest. -/
def nearest? (num den : Nat) : Option Magnitude :=
  if num = 0 then some zero
  else
    let e := exponentOf num den
    let (n, d) := shifted num den (-e)
    let m := roundHalfEven n d
    let x : Magnitude := if m = Nat.pow 2 53 then ⟨Nat.pow 2 52, e + 1⟩ else ⟨m, e⟩
    if x.exponent ≤ 971 then some x else none

def ofNat? (n : Nat) : Option Magnitude := nearest? n 1

def mul? (x y : Magnitude) : Option Magnitude :=
  let (n, d) := shifted (x.significand * y.significand) 1 (x.exponent + y.exponent)
  nearest? n d

def div? (x y : Magnitude) : Option Magnitude :=
  let (n, d) := shifted x.significand y.significand (x.exponent - y.exponent)
  nearest? n d

end Magnitude

end ContractAbi
