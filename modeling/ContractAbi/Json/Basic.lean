import ContractAbi.Decimal.Shortest

/-!
JSON values and their compact text. Integers are kept exactly, other numbers as binary64; the
members of an object are kept in increasing order of their keys.
-/

namespace ContractAbi

inductive Json.Number where
  | int (n : Int)
  | float (x : Binary64)
deriving DecidableEq, Repr

inductive Json where
  | null
  | bool (b : Bool)
  | num (n : Json.Number)
  | str (s : String)
  | arr (items : List Json)
  | obj (members : List (String × Json))

namespace Json

def hexByte (n : Nat) : List Char := [Nat.digitChar (n / 16), Nat.digitChar (n % 16)]

def escapeChar (c : Char) : List Char :=
  match c with
  | '"' => ['\\', '"']
  | '\\' => ['\\', '\\']
  | '\x08' => ['\\', 'b']
  | '\x0c' => ['\\', 'f']
  | '\n' => ['\\', 'n']
  | '\r' => ['\\', 'r']
  | '\t' => ['\\', 't']
  | c => if c.toNat < 0x20 then '\\' :: 'u' :: '0' :: '0' :: hexByte c.toNat else [c]

def quoted (s : String) : List Char :=
  '"' :: s.toList.flatMap escapeChar ++ ['"']

def intChars : Int → List Char
  | .ofNat n => Nat.toDigits 10 n
  | .negSucc n => '-' :: Nat.toDigits 10 (n + 1)

/-- Floats whose first digit is at one of these exponents are written without an exponent. -/
def positional (exponent : Int) : Bool := -5 ≤ exponent && exponent < 16

/-- At least one digit stands on each side of the point. -/
def positionalChars (digits : List Char) (exponent : Int) : List Char :=
  if exponent < 0 then
    '0' :: '.' :: List.replicate (-exponent - 1).toNat '0' ++ digits
  else
    let whole := exponent.toNat + 1
    let padded := digits ++ List.replicate (whole + 1 - digits.length) '0'
    padded.take whole ++ '.' :: padded.drop whole

/-- The exponent carries its sign. -/
def exponentChars (digits : List Char) (exponent : Int) : List Char :=
  let mantissa := match digits with
    | d :: e :: rest => d :: '.' :: e :: rest
    | _ => digits
  mantissa ++ 'e' :: if 0 ≤ exponent then '+' :: intChars exponent else intChars exponent

def magnitudeChars (x : Magnitude) : List Char :=
  if x.significand = 0 then ['0', '.', '0']
  else
    let (digits, exponent) := x.shortest.scientific
    if positional exponent then positionalChars digits exponent else exponentChars digits exponent

def Number.chars : Number → List Char
  | int n => intChars n
  | float x => (if x.negative then ['-'] else []) ++ magnitudeChars x.magnitude

mutual

def chars : Json → List Char
  | null => "null".toList
  | bool true => "true".toList
  | bool false => "false".toList
  | num n => n.chars
  | str s => quoted s
  | arr items => '[' :: [','].intercalate (charsItems items) ++ [']']
  | obj members => '\x7b' :: [','].intercalate (charsMembers members) ++ ['\x7d']

def charsItems : List Json → List (List Char)
  | [] => []
  | j :: rest => j.chars :: charsItems rest

def charsMembers : List (String × Json) → List (List Char)
  | [] => []
  | (key, j) :: rest => (quoted key ++ ':' :: j.chars) :: charsMembers rest

end

def text (j : Json) : String := String.ofList j.chars

end Json

end ContractAbi
