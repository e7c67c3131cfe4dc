import ContractAbi.Declaration.Object
import ContractAbi.Declaration.Print

/-!
A contract's interface: declarations in their order, read from a JSON array or from one signature a
line, and looked up by name or sighash.
-/

namespace ContractAbi

structure Interface where
  declarations : List Declaration
deriving DecidableEq

namespace Interface

/-- The array of a document takes one level of nesting off. -/
def objectsOf? (limit : Nat) : Json.Source → Option (List DeclarationObject) :=
  Json.Source.items? limit DeclarationObject.ofSource?

def ofObjects (objects : List DeclarationObject) : Except Error Interface :=
  (objects.mapM Declaration.ofObject).map mk

def ofJsonText (text : String) : Except Error Interface :=
  match (Json.Source.ofText? text).bind (objectsOf? Json.maxNesting) with
  | some objects => ofObjects objects
  | none => .error .json

def ofJson (j : Json) : Except Error Interface :=
  let source := j.toSource
  match objectsOf? source.nesting source with
  | some objects => ofObjects objects
  | none => .error .json

/-- One declaration from each text, blank ones left out. -/
def ofLines (texts : List String) : Except Error Interface :=
  ((texts.filter fun text => !text.toList.all Text.isBlank).mapM Declaration.parse).map mk

def lines (text : String) : List String := (Text.lines text.toList).map String.ofList

/-- A JSON array if the text begins with a bracket, else lines of signatures. -/
def parse (text : String) : Except Error Interface :=
  if (Text.trimStart text.toList).head? = some '[' then ofJsonText text else ofLines (lines text)

def toJson (i : Interface) : Json := .arr (i.declarations.map Declaration.toJson)

/-- What is written of each declaration. Those without a name are left out of sighashes. -/
def print (style : Style) (i : Interface) : Except Error (List String) :=
  let written := if style = .sighash then i.declarations.filter (·.name?.isSome) else i.declarations
  written.mapM (Declaration.print style)

def ofKind (i : Interface) (kind : Declaration.Kind) : List Declaration :=
  i.declarations.filter fun d => d.kind == kind

def constructor? (i : Interface) : Option Declaration := (i.ofKind .constructor).head?

def fallback? (i : Interface) : Option Declaration :=
  i.declarations.find? fun d => d.word == "fallback"

def receive? (i : Interface) : Option Declaration :=
  i.declarations.find? fun d => d.word == "receive"

/-- Whether a key, which is a sighash if it has a parenthesis and else a name, is that of a
declaration. -/
def answersTo (key : String) (d : Declaration) : Bool :=
  if key.toList.contains '(' then d.sighash? == some key
  else (d.name?.map Identifier.text) == some key

/-- The one declaration of a kind that a key belongs to. -/
def find (i : Interface) (kind : Declaration.Kind) (key : String) : Except Error Declaration :=
  match (i.ofKind kind).filter (answersTo key) with
  | [d] => .ok d
  | [] => .error (.argument (.noMatch kind key))
  | _ => .error (.argument (.ambiguous kind key))

end Interface

end ContractAbi
