import ContractAbi.Cursor.Clause
import ContractAbi.Param.Basic
import ContractAbi.Token.Lexer

/-!
Reading parameters from signature text: a type with its array suffixes, modifiers, and a name.
-/

namespace ContractAbi.Reader

def elementaryType : Reader Ty := do
  let p ← liftExcept (Param.elementary (← popKind .type))
  return p.type

/-- The array suffixes that follow, innermost first. -/
def arrayLengths : Reader (List (Option UInt64)) := do
  let suffixes := (← get).unread.takeWhile (·.kind == .bracket)
  skip suffixes.length
  return suffixes.map Token.value

def indexedFlag (indexable : Bool) : Reader (Option Bool) := do
  let indexed := (← keywords Keyword.modifiers).contains "indexed"
  if indexed && !indexable then throw (.unsupported .indexed)
  return if indexable then some indexed else none

def optionalName : Reader (Option Identifier) := do
  match (← get).peekKind? .identifier with
  | some text =>
    skip 1
    liftExcept (Param.nameOf text)
  | none => return none

/-- A type without array suffixes; `components` reads a group of parameters. -/
def headWith (components : Reader (List Param)) : Reader Ty := do
  let worded ← keyword? "tuple"
  if worded || ((← get).peekKind? .openParen).isSome then Ty.tuple <$> components
  else elementaryType

/-- One parameter, up to the end of the tokens. -/
def parameterWith (components : Reader (List Param)) (indexable : Bool) : Reader Param := do
  let head ← headWith components
  let type := (← arrayLengths).foldl Ty.array head
  let indexed ← indexedFlag indexable
  let name ← optionalName
  endOfInput
  return ⟨name, indexed, type⟩

/-- A group, each item of which `one` reads. -/
def groupOf (one : Reader Param) : Reader (List Param) := do
  (← popItems).mapM (within · one)

/-- A parameter of no more than `depth` groups inside each other. -/
def parameterWithin : Nat → Bool → Reader Param
  | 0, _ => fail .endOfInput none
  | depth + 1, indexable => parameterWith (groupOf (parameterWithin depth false)) indexable

/-- A group is shorter than the tokens around it, so their number bounds the depth. -/
def parameter (indexable : Bool) : Reader Param := do
  parameterWithin ((← get).tokens.length + 1) indexable

def parameters (indexable : Bool) : Reader (List Param) := groupOf (parameter indexable)

/-- Reads all of a text's tokens. -/
def onText {α : Type} (r : Reader α) (text : String) : Except Error α := do
  let tokens ← Token.scan text
  match r.run (Cursor.ofTokens tokens) with
  | .ok a _ => return a
  | .error e _ => throw e

end ContractAbi.Reader

namespace ContractAbi

def Param.ofSignature (indexable : Bool) (text : String) : Except Error Param :=
  (Reader.parameter indexable).onText text

end ContractAbi
