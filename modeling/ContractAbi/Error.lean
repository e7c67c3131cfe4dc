import ContractAbi.Declaration.Kind
import ContractAbi.Elementary
import ContractAbi.Mutability
import ContractAbi.Token.Basic
import ContractAbi.Value

/-!
What can go wrong, by cause, and how each cause is worded.
-/

namespace ContractAbi

/-- Faults of a text that does not divide into tokens. -/
inductive LexicalFault where
  | strayCharacter
  | openBracket
  | noOpenBracket
  | arrayLength
  | openGroup
  | noOpenGroup
  | commaOutside
deriving DecidableEq, Repr

def LexicalFault.message : LexicalFault → String
  | strayCharacter => "unexpected token"
  | openBracket => "missing closing bracket"
  | noOpenBracket => "missing opening bracket"
  | arrayLength => "invalid array length"
  | openGroup => "missing closing parenthesis"
  | noOpenGroup => "no matching open bracket"
  | commaOutside => "comma outside of parentheses"

/-- Faults of tokens that form no declaration. -/
inductive GrammarFault where
  | endOfInput
  | expectedKind (expected : Token.Kind) (found : Token.Kind) (text : String)
  | expectedKeyword (allowed : List String) (text : String)
  | expectedDeclaration (expected found : String)
  | openGroup
  | brokenLinks
  | duplicateKeyword (text : String)
  | conflictingKeywords (words : List String)
  | gas
  | leftover (rest : String)
  | receiveInputs
  | receiveMutability
  | fallbackInputs
  | fallbackOutputs
  | fallbackMutability (mutability : Mutability)
deriving DecidableEq, Repr

def GrammarFault.message : GrammarFault → String
  | endOfInput => "unexpected end of input"
  | expectedKind expected found text =>
    "expected " ++ expected.name ++ "; got " ++ found.name ++ " " ++ Text.quote text
  | expectedKeyword allowed text =>
    "expected keyword " ++ "|".intercalate allowed ++ "; got " ++ Text.quote text
  | expectedDeclaration expected found => "expected " ++ expected ++ ", got " ++ found
  | openGroup => "missing closing parenthesis"
  | brokenLinks => "broken parameter links"
  | duplicateKeyword text => "duplicate keywords: " ++ Text.quote text
  | conflictingKeywords words => "conflicting types: " ++ ", ".intercalate words
  | gas => "invalid gas"
  | leftover rest => "unexpected tokens: " ++ rest
  | receiveInputs => "receive cannot have arguments"
  | receiveMutability => "receive must be payable"
  | fallbackInputs => "fallback can only accept bytes"
  | fallbackOutputs => "fallback can only return bytes"
  | fallbackMutability mutability => "fallback cannot be " ++ mutability.name

/-- Faults of a single datum: a type, a name, a flag or a key. -/
inductive ArgumentFault where
  | elementary (fault : Elementary.Fault) (type : String)
  | arrayType (type : String)
  | arrayLength (type : String)
  | noComponents
  | parameterName (name : String)
  | declarationName (kind : Declaration.Kind) (name : String)
  | noName
  | declarationType (expected : List String) (found : String)
  | declarationText (text : String)
  | mutability (text : String)
  | style (text : String)
  | constantPayable
  | constructorMutability (mutability : Mutability)
  | receiveMutability (mutability : Mutability)
  | fallbackMutability (mutability : Mutability)
  | gas (value : Json)
  | noMatch (kind : Declaration.Kind) (key : String)
  | ambiguous (kind : Declaration.Kind) (key : String)

namespace ArgumentFault

def message : ArgumentFault → String
  | elementary .unknown _ => "invalid type"
  | elementary .bytesLength _ => "invalid bytes length"
  | elementary .integerWidth _ => "invalid numeric width"
  | arrayType _ => "invalid type"
  | arrayLength _ => "invalid array length"
  | noComponents => "tuple type requires components"
  | parameterName _ => "invalid name"
  | declarationName kind _ => "invalid " ++ kind.name ++ " name"
  | noName => "missing fragment name"
  | declarationType expected _ => "expected " ++ " or ".intercalate expected ++ " fragment"
  | declarationText _ => "unsupported fragment"
  | mutability _ => "invalid state mutability"
  | style _ => "invalid format type"
  | constantPayable => "cannot have constant payable function"
  | constructorMutability _ => "constructor cannot be view or pure"
  | receiveMutability _ => "receive must be payable"
  | fallbackMutability _ => "fallback cannot be view or pure"
  | gas _ => "invalid gas"
  | noMatch kind _ => "no matching " ++ kind.name
  | ambiguous kind _ => "ambiguous " ++ kind.name ++ " description"

/-- The name of the datum at fault. -/
def subject : ArgumentFault → String
  | elementary _ _ | arrayType _ | arrayLength _ | declarationType _ _ => "type"
  | noComponents => "components"
  | parameterName _ | declarationName _ _ | noName => "name"
  | declarationText _ => "fragment"
  | mutability _ | constructorMutability _ | receiveMutability _ | fallbackMutability _ =>
    "stateMutability"
  | style _ => "format"
  | constantPayable => "value"
  | gas _ => "gas"
  | noMatch _ _ | ambiguous _ _ => "key"

/-- The datum as it was found. -/
def found : ArgumentFault → String
  | elementary _ type | arrayType type | arrayLength type | declarationType _ type => type
  | noComponents => "tuple"
  | parameterName name | declarationName _ name => name
  | noName => ""
  | declarationText text | mutability text | style text => text
  | constructorMutability m | receiveMutability m | fallbackMutability m => m.name
  | constantPayable => "constant+payable"
  | gas value => value.text
  | noMatch _ key | ambiguous _ key => key

end ArgumentFault

/-- Faults of a value that does not have the shape of its type, and the refusals of a transform. -/
inductive ShapeFault where
  | notArray
  | arrayLength
  | tupleLength
  | unnamedComponents
  | missingComponent (name : String)
  | notTuple
  | rejected (message : String)
deriving DecidableEq, Repr

def ShapeFault.message : ShapeFault → String
  | notArray => "invalid array value"
  | arrayLength => "array is wrong length"
  | tupleLength => "tuple is wrong length"
  | unnamedComponents => "cannot use object value with unnamed components"
  | missingComponent name => "missing value for component " ++ name
  | notTuple => "invalid tuple value"
  | rejected message => message

/-- Requests that cannot be met. -/
inductive Unsupported where
  | indexed
  | indexedParameter (name : String)
  | declarationType (type : String)
  | sighash (what : String)
deriving DecidableEq, Repr

def Unsupported.operation : Unsupported → String
  | indexed | indexedParameter _ => "indexed"
  | declarationType _ => "from_json"
  | sighash _ => "format(sighash)"

def Unsupported.message : Unsupported → String
  | indexed => "parameter cannot be indexed outside event inputs"
  | indexedParameter name =>
    "parameter " ++ Text.quote name ++ " cannot be indexed outside event inputs"
  | declarationType type => "unsupported fragment type " ++ Text.quote type
  | sighash what => "cannot format " ++ what ++ " for sighash"

inductive Error where
  | lexical (fault : LexicalFault) (token : String) (offset : Nat)
  | grammar (fault : GrammarFault) (offset : Option Nat)
  | argument (fault : ArgumentFault)
  | shape (fault : ShapeFault) (type : String) (value : Value)
  | unsupported (request : Unsupported)
  | json

def Error.message : Error → String
  | lexical fault token offset =>
    "invalid token " ++ Text.quote token ++ " at " ++ offset.repr ++ ": " ++ fault.message
  | grammar fault (some offset) =>
    "parse error at offset " ++ offset.repr ++ ": " ++ fault.message
  | grammar fault none => "parse error: " ++ fault.message
  | argument fault =>
    fault.message ++ " (" ++ fault.subject ++ "=" ++ Text.quote fault.found ++ ")"
  | shape fault type value =>
    fault.message ++ " for " ++ type ++ " (value=" ++ value.display ++ ")"
  | unsupported request =>
    "unsupported operation " ++ request.operation ++ ": " ++ request.message
  | json => "invalid JSON"

end ContractAbi
