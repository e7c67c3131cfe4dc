/-!
How a function treats the state of the chain and the money sent along.
-/

namespace ContractAbi

inductive Mutability where
  | pure
  | view
  | payable
  | nonpayable
deriving DecidableEq, Repr

namespace Mutability

def name : Mutability → String
  | pure => "pure"
  | view => "view"
  | payable => "payable"
  | nonpayable => "nonpayable"

def all : List Mutability := [pure, view, payable, nonpayable]

def ofName? (text : String) : Option Mutability := all.find? (·.name == text)

theorem ofName?_name (m : Mutability) : ofName? m.name = some m := by cases m <;> rfl

/-- Whether a call leaves the state of the chain as it is. -/
def isConstant (m : Mutability) : Bool := m == pure || m == view

end Mutability

end ContractAbi
