import ContractAbi.Declaration.Basic
import ContractAbi.Proofs.Symbol

/-!
The grammar of signatures, as derivations that relate symbols to what they denote. The words are
spelled out here, apart from the tables that the readers use.
-/

namespace ContractAbi.Grammar

/-- Words from a set, each at most once and in any order. -/
structure Words (allowed words : List String) : Prop where
  known : ∀ w ∈ words, w ∈ allowed
  distinct : words.Nodup

/-- Of the words of a group there is no more than one. -/
def AtMostOne (group words : List String) : Prop :=
  ∀ u ∈ group, ∀ v ∈ group, u ∈ words → v ∈ words → u = v

/-- The modifiers of a parameter. Where it may be indexed they say whether it is. -/
inductive Modifiers (indexable : Bool) : List Symbol → Option Bool → Prop where
  | mk {words : List String}
      (h : Words ["calldata", "indexed", "memory", "payable", "storage"] words)
      (allowed : "indexed" ∈ words → indexable = true) :
      Modifiers indexable (words.map .keyword)
        (if indexable then some (decide ("indexed" ∈ words)) else none)

inductive Name : List Symbol → Option Identifier → Prop where
  | unnamed : Name [] none
  | named (name : Identifier) : Name [.identifier name.text] (some name)

mutual

/-- Brackets wrap the type from the inside out, so the last one is the outermost. -/
inductive Parameter : Bool → List Symbol → Param → Prop where
  | mk {indexable : Bool} {hs ms ns : List Symbol} {type : Ty} {flag : Option Bool}
      {name : Option Identifier} (lengths : List (Option UInt64)) (head : Head hs type)
      (modifiers : Modifiers indexable ms flag) (named : Name ns name) :
      Parameter indexable (hs ++ lengths.map .bracket ++ ms ++ ns)
        ⟨name, flag, lengths.foldl Ty.array type⟩

inductive Head : List Symbol → Ty → Prop where
  | elementary {word : String} {type : Elementary} (h : Elementary.ofString word = .ok type) :
      Head [.type word] (.elementary type)
  | tuple {ts : List Symbol} {ps : List Param} (h : Group false ts ps) : Head ts (.tuple ps)
  | wordedTuple {ts : List Symbol} {ps : List Param} (h : Group false ts ps) :
      Head (.keyword "tuple" :: ts) (.tuple ps)

/-- Parameters in parentheses, which may be none. -/
inductive Group : Bool → List Symbol → List Param → Prop where
  | empty {indexable : Bool} : Group indexable [.openParen, .closeParen] []
  | list {indexable : Bool} {ts : List Symbol} {ps : List Param} (h : Parameters indexable ts ps) :
      Group indexable (.openParen :: ts ++ [.closeParen]) ps

/-- One parameter or more, with commas between them. -/
inductive Parameters : Bool → List Symbol → List Param → Prop where
  | one {indexable : Bool} {ts : List Symbol} {p : Param} (h : Parameter indexable ts p) :
      Parameters indexable ts [p]
  | cons {indexable : Bool} {ts us : List Symbol} {p : Param} {ps : List Param}
      (h : Parameter indexable ts p) (hs : Parameters indexable us ps) :
      Parameters indexable (ts ++ .comma :: us) (p :: ps)

end

/-- The mutability that words stand for: that of the first of these which is among them. -/
def precedence : List (String × Mutability) :=
  [("view", .view), ("pure", .pure), ("payable", .payable), ("nonpayable", .nonpayable),
    ("constant", .view)]

def resolve (words : List String) : Mutability :=
  ((precedence.find? fun entry => entry.1 ∈ words).map Prod.snd).getD .nonpayable

inductive Visibility : List Symbol → Mutability → Prop where
  | mk {words : List String}
      (h : Words ["constant", "external", "internal", "nonpayable", "override", "payable",
        "private", "public", "pure", "view"] words)
      (older : AtMostOne ["constant", "payable", "nonpayable"] words)
      (newer : AtMostOne ["pure", "view", "payable", "nonpayable"] words) :
      Visibility (words.map .keyword) (resolve words)

inductive Returns : List Symbol → List Param → Prop where
  | omitted : Returns [] []
  | stated {ts : List Symbol} {ps : List Param} (h : Group false ts ps) :
      Returns (.keyword "returns" :: ts) ps

inductive Gas : List Symbol → Option Nat → Prop where
  | omitted : Gas [] none
  | stated {digits : String} {n : Nat} (h : Text.decimal? digits.toList = some n) :
      Gas [.atSign, .number digits] (some n)

/-- One parameter, which is a byte string. -/
def IsBytes (ps : List Param) : Prop := ∃ p, ps = [p] ∧ p.type = .elementary .bytes

inductive Declares : List Symbol → Declaration → Prop where
  | constructor {is gs : List Symbol} {inputs : List Param} {words : List String}
      {gas : Option Nat} (hi : Group false is inputs)
      (hw : Words ["external", "override", "payable", "public"] words) (hg : Gas gs gas) :
      Declares (.keyword "constructor" :: is ++ words.map .keyword ++ gs)
        (.constructor inputs (decide ("payable" ∈ words)) gas)
  | error {is : List Symbol} {inputs : List Param} (name : Identifier)
      (hi : Group false is inputs) :
      Declares (.keyword "error" :: .identifier name.text :: is) (.error name inputs)
  | struct {is : List Symbol} {inputs : List Param} (name : Identifier)
      (hi : Group false is inputs) :
      Declares (.keyword "struct" :: .identifier name.text :: is) (.struct name inputs)
  | event {is : List Symbol} {inputs : List Param} (name : Identifier) (anonymous : Bool)
      (hi : Group true is inputs) :
      Declares (.keyword "event" :: .identifier name.text :: is ++
          if anonymous then [.keyword "anonymous"] else [])
        (.event name inputs anonymous)
  | function {is vs os gs : List Symbol} {inputs outputs : List Param} {mutability : Mutability}
      {gas : Option Nat} (name : Identifier) (hi : Group false is inputs)
      (hv : Visibility vs mutability) (ho : Returns os outputs) (hg : Gas gs gas) :
      Declares (.keyword "function" :: .identifier name.text :: is ++ vs ++ os ++ gs)
        (.function name mutability inputs outputs gas)
  | fallback {is vs os : List Symbol} {inputs outputs : List Param} (payable : Bool)
      (hi : Group false is inputs) (takes : inputs = [] ∨ IsBytes inputs)
      (hv : Visibility vs (if payable then .payable else .nonpayable))
      (ho : Returns os outputs) (returns : os = [] ∨ IsBytes outputs) :
      Declares (.keyword "fallback" :: is ++ vs ++ os) (.fallback payable)
  | receive {vs : List Symbol} (hv : Visibility vs .payable) :
      Declares (.keyword "receive" :: .openParen :: .closeParen :: vs) .receive

end ContractAbi.Grammar
