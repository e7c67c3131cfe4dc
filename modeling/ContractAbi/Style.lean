/-!
The styles in which declarations are written.
-/

namespace ContractAbi

/-- `sighash` keeps what identifies a declaration, `minimal` what calling it takes, `full` the names
as well; `json` is the form of interface documents. -/
inductive Style where
  | sighash
  | minimal
  | full
  | json
deriving DecidableEq, Repr

namespace Style

def name : Style → String
  | sighash => "sighash"
  | minimal => "minimal"
  | full => "full"
  | json => "json"

def all : List Style := [sighash, minimal, full, json]

def ofName? (text : String) : Option Style := all.find? (·.name == text)

theorem ofName?_name (s : Style) : ofName? s.name = some s := by cases s <;> rfl

end Style

end ContractAbi
