import ContractAbi.Decimal.Scale
import ContractAbi.Json.Source
import ContractAbi.Text.Numeral

/-!
Reading JSON text. Every reader takes characters from the front of a list and returns what is left.
-/

namespace ContractAbi.Json

/-- A character of a text, or half of a pair of escapes for one. -/
inductive Unit16 where
  | char (c : Char)
  | lead (n : Nat)
  | trail (n : Nat)

def Unit16.ofNat (n : Nat) : Unit16 :=
  if 0xD800 ≤ n ∧ n < 0xDC00 then lead (n - 0xD800)
  else if 0xDC00 ≤ n ∧ n < 0xE000 then trail (n - 0xDC00)
  else char (Char.ofNat n)

/-- Joins halves; a half on its own makes the text unreadable. -/
def joinUnits : List Unit16 → Option (List Char)
  | [] => some []
  | .char c :: rest => (joinUnits rest).map (c :: ·)
  | .lead high :: .trail low :: rest =>
    (joinUnits rest).map (Char.ofNat (0x10000 + 0x400 * high + low) :: ·)
  | .lead _ :: _ => none
  | .trail _ :: _ => none

def isSpace (c : Char) : Bool := c == ' ' || c == '\t' || c == '\n' || c == '\r'

def skipSpace (cs : List Char) : List Char := cs.dropWhile isSpace

def hex4? (a b c d : Char) : Option Nat := do
  return 0x1000 * (← Text.digitValue? a) + 0x100 * (← Text.digitValue? b) +
    0x10 * (← Text.digitValue? c) + (← Text.digitValue? d)

def simpleEscape? : Char → Option Char
  | '"' => some '"'
  | '\\' => some '\\'
  | '/' => some '/'
  | 'b' => some '\x08'
  | 'f' => some '\x0c'
  | 'n' => some '\n'
  | 'r' => some '\r'
  | 't' => some '\t'
  | _ => none

/-- The rest of a text after its opening quote. -/
def readUnits? : List Char → Option (List Unit16 × List Char)
  | [] => none
  | '"' :: rest => some ([], rest)
  | '\\' :: 'u' :: a :: b :: c :: d :: rest => do
    let n ← hex4? a b c d
    let (units, rest) ← readUnits? rest
    return (.ofNat n :: units, rest)
  | '\\' :: e :: rest => do
    let c ← simpleEscape? e
    let (units, rest) ← readUnits? rest
    return (.char c :: units, rest)
  | c :: rest => do
    if c.toNat < 0x20 then none
    let (units, rest) ← readUnits? rest
    return (.char c :: units, rest)

def readText? (cs : List Char) : Option (Option String × List Char) := do
  let (units, rest) ← readUnits? cs
  return ((joinUnits units).map String.ofList, rest)

/-- A number as it is written. -/
structure Literal where
  negative : Bool
  whole : List Char
  fraction : List Char
  exponent : Option Int

/-- One digit or more. -/
def readDigits? (cs : List Char) : Option (List Char × List Char) :=
  let digits := cs.takeWhile Char.isDigit
  if digits.isEmpty then none else some (digits, cs.dropWhile Char.isDigit)

/-- No zero stands before another digit. -/
def readWhole? (cs : List Char) : Option (List Char × List Char) := do
  let (digits, rest) ← readDigits? cs
  if 1 < digits.length ∧ digits.head? = some '0' then none
  return (digits, rest)

def readFraction? : List Char → Option (List Char × List Char)
  | '.' :: rest => readDigits? rest
  | cs => some ([], cs)

def readExponent? (cs : List Char) : Option (Option Int × List Char) :=
  match cs with
  | c :: rest =>
    if c = 'e' ∨ c = 'E' then do
      let (negative, rest) := match rest with
        | '+' :: rest => (false, rest)
        | '-' :: rest => (true, rest)
        | _ => (false, rest)
      let (digits, rest) ← readDigits? rest
      let n : Int := Nat.ofDigitChars 10 digits 0
      return (some (if negative then -n else n), rest)
    else some (none, cs)
  | [] => some (none, [])

def readLiteral? (cs : List Char) : Option (Literal × List Char) := do
  let (negative, cs) := match cs with
    | '-' :: rest => (true, rest)
    | _ => (false, cs)
  let (whole, cs) ← readWhole? cs
  let (fraction, cs) ← readFraction? cs
  let (exponent, cs) ← readExponent? cs
  return (⟨negative, whole, fraction, exponent⟩, cs)

/-- Takes digits into a significand as long as it fits into a word; also says how many it took. -/
def takeDigits (significand : Nat) : List Char → Nat × Nat
  | [] => (significand, 0)
  | c :: rest =>
    let next := 10 * significand + (c.toNat - '0'.toNat)
    if next < UInt64.size then
      let (n, taken) := takeDigits next rest
      (n, taken + 1)
    else (significand, 0)

namespace Literal

/-- Digits of the whole part that do not fit count for their places only, digits of the fraction not
at all. -/
def magnitude? (l : Literal) : Option Magnitude :=
  let (n, taken) := takeDigits 0 l.whole
  let (n, takenOfFraction) := takeDigits n l.fraction
  let dropped := l.whole.length - taken
  Magnitude.ofDecimal? n ((dropped : Int) - takenOfFraction + l.exponent.getD 0)

def float? (l : Literal) : Option Number :=
  l.magnitude?.map fun x => .float ⟨l.negative, x⟩

/-- Whole numbers from the least signed to the largest unsigned word are integers, but for the
negative zero. All other numbers are floats, unless they are too large. -/
def number? (l : Literal) : Option Number :=
  let n := Nat.ofDigitChars 10 l.whole 0
  if !l.fraction.isEmpty || l.exponent.isSome then l.float?
  else if l.negative then
    if n = 0 ∨ Nat.pow 2 63 < n then l.float? else some (.int (-n))
  else if n < UInt64.size then some (.int n)
  else l.float?

end Literal

mutual

/-- A value of a text no longer than `fuel`. -/
def readValue? : Nat → List Char → Option (Source × List Char)
  | 0, _ => none
  | fuel + 1, cs =>
    match skipSpace cs with
    | 'n' :: 'u' :: 'l' :: 'l' :: rest => some (.null, rest)
    | 't' :: 'r' :: 'u' :: 'e' :: rest => some (.bool true, rest)
    | 'f' :: 'a' :: 'l' :: 's' :: 'e' :: rest => some (.bool false, rest)
    | '"' :: rest => (readText? rest).map fun (s, rest) => (.str s, rest)
    | '[' :: rest =>
      match skipSpace rest with
      | ']' :: rest => some (.arr [], rest)
      | rest => (readItems? fuel rest).map fun (items, rest) => (.arr items, rest)
    | '\x7b' :: rest =>
      match skipSpace rest with
      | '\x7d' :: rest => some (.obj [], rest)
      | rest => (readMembers? fuel rest).map fun (members, rest) => (.obj members, rest)
    | cs => (readLiteral? cs).map fun (l, rest) => (.num l.number?, rest)

/-- The items that follow, up to the end of their array. -/
def readItems? : Nat → List Char → Option (List Source × List Char)
  | 0, _ => none
  | fuel + 1, cs => do
    let (item, rest) ← readValue? fuel cs
    match skipSpace rest with
    | ',' :: rest =>
      let (items, rest) ← readItems? fuel rest
      return (item :: items, rest)
    | ']' :: rest => return ([item], rest)
    | _ => none

def readMember? : Nat → List Char → Option ((Option String × Source) × List Char)
  | 0, _ => none
  | fuel + 1, cs =>
    match skipSpace cs with
    | '"' :: rest => do
      let (key, rest) ← readText? rest
      match skipSpace rest with
      | ':' :: rest =>
        let (s, rest) ← readValue? fuel rest
        return ((key, s), rest)
      | _ => none
    | _ => none

/-- The members that follow, up to the end of their object. -/
def readMembers? : Nat → List Char → Option (List (Option String × Source) × List Char)
  | 0, _ => none
  | fuel + 1, cs => do
    let (entry, rest) ← readMember? fuel cs
    match skipSpace rest with
    | ',' :: rest =>
      let (members, rest) ← readMembers? fuel rest
      return (entry :: members, rest)
    | '\x7d' :: rest => return ([entry], rest)
    | _ => none

end

/-- Each level of nesting, and each item, takes a character and no more than three steps. -/
def Source.ofChars? (cs : List Char) : Option Source := do
  let (s, rest) ← readValue? (3 * cs.length + 1) cs
  if (skipSpace rest).isEmpty then return s else none

def Source.ofText? (text : String) : Option Source := Source.ofChars? text.toList

/-- How deep the values of a text may nest. -/
def maxNesting : Nat := 127

def ofText? (text : String) : Option Json := do
  let s ← Source.ofText? text
  s.toJson? maxNesting

end ContractAbi.Json
