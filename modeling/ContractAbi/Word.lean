/-!
Words of a signature: identifiers, and the sets of keywords that its parts admit.
-/

namespace ContractAbi

def isWordStart (c : Char) : Bool := c.isAlpha || c == '$' || c == '_'

def isWordChar (c : Char) : Bool := c.isAlphanum || c == '$' || c == '_'

def isIdentifier (text : String) : Bool :=
  match text.toList with
  | [] => false
  | c :: rest => isWordStart c && rest.all isWordChar

structure Identifier where
  text : String
  valid : isIdentifier text = true
deriving DecidableEq

def Identifier.ofString? (text : String) : Option Identifier :=
  if h : isIdentifier text = true then some ⟨text, h⟩ else none

theorem Identifier.ofString?_text (name : Identifier) : ofString? name.text = some name := by
  simp [ofString?, name.valid]

namespace Keyword

/-- Words that open a declaration. -/
def declarations : List String :=
  ["constructor", "error", "event", "fallback", "function", "receive", "struct"]

/-- Words that may follow the inputs of a function. -/
def visibility : List String :=
  ["constant", "external", "internal", "nonpayable", "override", "payable", "private", "public",
    "pure", "view"]

/-- Words that may follow the inputs of a constructor. -/
def deployment : List String := ["external", "override", "payable", "public"]

/-- Words that may follow the type of a parameter. -/
def modifiers : List String := ["calldata", "indexed", "memory", "payable", "storage"]

def structural : List String := ["anonymous", "returns", "tuple"]

/-- The older words for a mutability, of which there may be one; `constant` stands for `view`. -/
def olderMutability : List String := ["constant", "payable", "nonpayable"]

/-- The words for a mutability, of which there may be one. -/
def mutability : List String := ["pure", "view", "payable", "nonpayable"]

end Keyword

def isKeyword (text : String) : Bool :=
  [Keyword.declarations, Keyword.visibility, Keyword.modifiers, Keyword.structural].any
    (·.contains text)

end ContractAbi
