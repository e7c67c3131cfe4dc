/-!
Tokens of a signature. Parentheses know their partner, and the opening parenthesis, the commas and
the closing parenthesis of a group form a chain; links are positions in the list that holds the
token.
-/

namespace ContractAbi

inductive Token.Kind where
  | openParen
  | closeParen
  | bracket
  | comma
  | atSign
  | keyword
  | type
  | identifier
  | number
deriving DecidableEq, Repr

def Token.Kind.name : Token.Kind → String
  | openParen => "OPEN_PAREN"
  | closeParen => "CLOSE_PAREN"
  | bracket => "BRACKET"
  | comma => "COMMA"
  | atSign => "AT"
  | keyword => "KEYWORD"
  | type => "TYPE"
  | identifier => "ID"
  | number => "NUMBER"

/-- The value of a number that fits into a word, or the length in a bracket. `depth` counts the
groups around the token; the parentheses of a group are outside it. -/
structure Token where
  kind : Token.Kind
  text : String
  offset : Nat
  depth : Nat
  partner : Option Nat
  previous : Option Nat
  next : Option Nat
  value : Option UInt64
deriving DecidableEq, Repr

/-- The offset just past the token, when it is written without blanks. -/
def Token.endOffset (t : Token) : Nat := t.offset + t.text.length

end ContractAbi
