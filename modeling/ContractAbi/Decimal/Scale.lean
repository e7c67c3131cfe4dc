import ContractAbi.Binary64

/-!
Scaling by a power of ten in binary64 steps: the significand is rounded, the power of ten is
rounded, and so is the product or quotient of the two. Powers up to 308 take one step.
-/

namespace ContractAbi.Magnitude

def maxPower : Nat := 308

def timesPower? (x : Magnitude) (k : Nat) : Option Magnitude :=
  if k ≤ maxPower then (ofNat? (Nat.pow 10 k)).bind x.mul?
  else if x = zero then some zero
  else none

/-- Divides by ten to the 308, so many times or until nothing is left. -/
def overMaxPower? : (times : Nat) → Magnitude → Option Magnitude
  | 0, x => some x
  | times + 1, x =>
    if x = zero then some zero
    else ((ofNat? (Nat.pow 10 maxPower)).bind x.div?).bind (overMaxPower? times)

/-- Powers above 308 are divided out 308 at a time. -/
def overPower? (x : Magnitude) (k : Nat) : Option Magnitude :=
  let times := (k - 1) / maxPower
  (overMaxPower? times x).bind fun y => (ofNat? (Nat.pow 10 (k - maxPower * times))).bind y.div?

/-- The significand times ten to the exponent, unless that lies beyond the largest magnitude. -/
def ofDecimal? (significand : Nat) (exponent : Int) : Option Magnitude :=
  (ofNat? significand).bind fun x =>
    if 0 ≤ exponent then x.timesPower? exponent.toNat else x.overPower? (-exponent).toNat

end ContractAbi.Magnitude
