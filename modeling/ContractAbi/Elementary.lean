import ContractAbi.Text.Numeral

/-!
Elementary types: what a parameter is made of where it is neither a tuple nor an array.
-/

namespace ContractAbi

theorem eq_ok_of_toOption {ε α : Type} {r : Except ε α} {a : α} (h : r.toOption = some a) :
    r = .ok a := by
  cases r with
  | error e => cases h
  | ok b => exact congrArg Except.ok (Option.some.inj h)

/-- The sizes of `fixedBytes`, `uint` and `int` are numbers of bytes less one. -/
inductive Elementary where
  | address
  | bool
  | string
  | bytes
  | fixedBytes (size : Fin 32)
  | uint (size : Fin 32)
  | int (size : Fin 32)
deriving DecidableEq, Repr

namespace Elementary

/-- Integers carry their width in bits, byte strings their length in bytes. -/
def text : Elementary → String
  | address => "address"
  | bool => "bool"
  | string => "string"
  | bytes => "bytes"
  | fixedBytes size => "bytes" ++ (size.val + 1).repr
  | uint size => "uint" ++ (8 * (size.val + 1)).repr
  | int size => "int" ++ (8 * (size.val + 1)).repr

/-- A word with the shape of an elementary type, its width not looked at yet. -/
inductive Shape where
  | plain (type : Elementary)
  | bytes (width : List Char)
  | uint (width : List Char)
  | int (width : List Char)

inductive Fault where
  | unknown
  | bytesLength
  | integerWidth
deriving DecidableEq, Repr

/-- What follows `stem` in `word`, if that is nothing but digits. -/
def widthAfter? (stem : String) (word : List Char) : Option (List Char) :=
  (stem.toList.isPrefixOf? word).filter (·.all Char.isDigit)

def shape? (word : String) : Option Shape :=
  match word with
  | "address" => some (.plain .address)
  | "bool" => some (.plain .bool)
  | "string" => some (.plain .string)
  | _ =>
    let cs := word.toList
    ((widthAfter? "bytes" cs).map .bytes).or <|
      ((widthAfter? "uint" cs).map .uint).or ((widthAfter? "int" cs).map .int)

/-- Widths are written without leading zeros. -/
def width? (digits : List Char) : Option Nat :=
  if 1 < digits.length ∧ digits.head? = some '0' then none else Text.decimal? digits

def byteSize? (n : Nat) : Option (Fin 32) :=
  if h : 1 ≤ n ∧ n ≤ 32 then some ⟨n - 1, by omega⟩ else none

def bitSize? (n : Nat) : Option (Fin 32) :=
  if n % 8 = 0 then byteSize? (n / 8) else none

/-- The widest integers, which a bare `uint` or `int` stands for. -/
def widest : Fin 32 := 31

def sized (fault : Fault) (type : Fin 32 → Elementary) (size : Option (Fin 32)) :
    Except Fault Elementary :=
  match size with
  | some n => .ok (type n)
  | none => .error fault

def Shape.check : Shape → Except Fault Elementary
  | plain type => .ok type
  | bytes [] => .ok .bytes
  | bytes width => sized .bytesLength .fixedBytes ((width? width).bind byteSize?)
  | uint [] => .ok (.uint widest)
  | uint width => sized .integerWidth .uint ((width? width).bind bitSize?)
  | int [] => .ok (.int widest)
  | int width => sized .integerWidth .int ((width? width).bind bitSize?)

def ofString (word : String) : Except Fault Elementary :=
  match shape? word with
  | some shape => shape.check
  | none => .error .unknown

theorem ofString_text (t : Elementary) : ofString t.text = .ok t := by
  cases t with
  | fixedBytes n => exact eq_ok_of_toOption (by revert n; decide +kernel)
  | uint n => exact eq_ok_of_toOption (by revert n; decide +kernel)
  | int n => exact eq_ok_of_toOption (by revert n; decide +kernel)
  | _ => rfl

end Elementary

end ContractAbi
