/-!
The kinds of declarations, and the words that open them.
-/

namespace ContractAbi

/-- Functions that answer calls no other function answers, `receive` among them, are of kind
`fallback`. -/
inductive Declaration.Kind where
  | constructor
  | error
  | event
  | fallback
  | function
  | struct
deriving DecidableEq, Repr

def Declaration.Kind.name : Declaration.Kind → String
  | constructor => "constructor"
  | error => "error"
  | event => "event"
  | fallback => "fallback"
  | function => "function"
  | struct => "struct"

def Declaration.Kind.all : List Declaration.Kind :=
  [constructor, error, event, fallback, function, struct]

def Declaration.Kind.ofName? (text : String) : Option Declaration.Kind := all.find? (·.name == text)

/-- The words that open a declaration of the kind. -/
def Declaration.Kind.words : Declaration.Kind → List String
  | fallback => ["fallback", "receive"]
  | kind => [kind.name]

end ContractAbi
