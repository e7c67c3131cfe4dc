import ContractAbi.Declaration.Basic
import ContractAbi.Param.Signature

/-!
Reading declarations from signature text. Each kind has a reader of its own, which takes all tokens;
the word that opens the text decides between them.
-/

namespace ContractAbi.Reader

def constructorDeclaration : Reader Declaration := do
  let _ ← popKeyword ["constructor"]
  let inputs ← parameters false
  let payable := (← keywords Keyword.deployment).contains "payable"
  let gas ← gas
  endOfInput
  liftExcept (Declaration.mkConstructor inputs payable gas)

def errorDeclaration : Reader Declaration := do
  let name ← declaredName "error"
  let inputs ← parameters false
  endOfInput
  liftExcept (Declaration.mkError name inputs)

def structDeclaration : Reader Declaration := do
  let name ← declaredName "struct"
  let inputs ← parameters false
  endOfInput
  liftExcept (Declaration.mkStruct name inputs)

def eventDeclaration : Reader Declaration := do
  let name ← declaredName "event"
  let inputs ← parameters true
  let anonymous ← keyword? "anonymous"
  endOfInput
  liftExcept (Declaration.mkEvent name inputs anonymous)

def functionDeclaration : Reader Declaration := do
  let name ← declaredName "function"
  let inputs ← parameters false
  let mutability ← mutability
  let outputs ← if ← keyword? "returns" then parameters false else pure []
  let gas ← gas
  endOfInput
  liftExcept (Declaration.mkFunction name mutability inputs outputs gas)

/-- Whether parameters are one byte string. -/
def isBytesOnly : List Param → Bool
  | [p] => p.type.isBytes
  | _ => false

def receiveAfter (offset : Option Nat) (inputs : List Param) (mutability : Mutability) :
    Reader Declaration :=
  if !inputs.isEmpty then fail .receiveInputs offset
  else if mutability = .payable then return .receive
  else fail .receiveMutability offset

/-- A fallback may say that it takes and returns one byte string, and nothing else. -/
def fallbackAfter (offset : Option Nat) (inputs : List Param) (mutability : Mutability) :
    Reader Declaration := do
  if !inputs.isEmpty && !isBytesOnly inputs then fail .fallbackInputs offset
  if ← keyword? "returns" then
    let outputs ← parameters false
    if !isBytesOnly outputs then fail .fallbackOutputs offset
  match mutability with
  | .payable => return .fallback true
  | .nonpayable => return .fallback false
  | m => fail (.fallbackMutability m) offset

def fallbackDeclaration : Reader Declaration := do
  let t ← peek
  let word ← popKeyword ["fallback", "receive"]
  let inputs ← parameters false
  let mutability ← mutability
  let d ← if word = "receive" then receiveAfter t.offset inputs mutability
    else fallbackAfter t.offset inputs mutability
  endOfInput
  return d

def declarationOf : Declaration.Kind → Reader Declaration
  | .constructor => constructorDeclaration
  | .error => errorDeclaration
  | .event => eventDeclaration
  | .fallback => fallbackDeclaration
  | .function => functionDeclaration
  | .struct => structDeclaration

def declaration : Reader Declaration := do
  let c ← get
  let word := c.peekKeyword? Keyword.declarations
  match Declaration.Kind.all.find? fun kind => word.any kind.words.contains with
  | some kind => declarationOf kind
  | none => throw (.argument (.declarationText c.display))

end ContractAbi.Reader

namespace ContractAbi

def Declaration.ofSignature (text : String) : Except Error Declaration :=
  Reader.declaration.onText text

end ContractAbi
