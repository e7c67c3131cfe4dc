import ContractAbi.Descriptor.Basic
import ContractAbi.Param.Signature

/-!
Reading descriptors from signature text. What is read is put together step by step, and each step
goes through one of the ways to construct a descriptor.
-/

namespace ContractAbi.Descriptor

open Reader

def headWith (components : Reader (List Descriptor)) : Reader Descriptor := do
  let worded ← keyword? "tuple"
  if worded || ((← get).peekKind? .openParen).isSome then tuple <$> components
  else Reader.liftExcept (basic (← popKind .type))

/-- Gives the name that follows, if there is one. -/
def named (d : Descriptor) : Reader Descriptor := do
  match (← get).peekKind? .identifier with
  | some text =>
    skip 1
    Reader.liftExcept (d.withName text)
  | none => return d

/-- One parameter, up to the end of the tokens. -/
def descriptorWith (components : Reader (List Descriptor)) (indexable : Bool) :
    Reader Descriptor := do
  let head ← headWith components
  let d := (← arrayLengths).foldl array head
  let d ← named ((← indexedFlag indexable).elim d d.withIndexed)
  endOfInput
  return d

/-- A parameter of no more than `depth` groups inside each other. -/
def descriptorWithin : Nat → Bool → Reader Descriptor
  | 0, _ => fail .endOfInput none
  | depth + 1, indexable =>
    descriptorWith (do (← popItems).mapM (within · (descriptorWithin depth false))) indexable

/-- A group is shorter than the tokens around it, so their number bounds the depth. -/
def ofTokens (indexable : Bool) : Reader Descriptor := do
  descriptorWithin ((← get).tokens.length + 1) indexable

def ofSignature (indexable : Bool) (text : String) : Except Error Descriptor :=
  (ofTokens indexable).onText text

end ContractAbi.Descriptor
