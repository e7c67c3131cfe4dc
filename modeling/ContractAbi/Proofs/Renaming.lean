import ContractAbi.Declaration.Print

/-!
Parameters under other names. The styles that write no names give the same text under all of them.
-/

namespace ContractAbi

mutual

/-- Gives other names to the components, at whatever depth. -/
def Ty.rename (f : Option Identifier → Option Identifier) : Ty → Ty
  | .elementary type => .elementary type
  | .tuple components => .tuple (Param.renameAll f components)
  | .array element length => .array (element.rename f) length

def Param.renameAll (f : Option Identifier → Option Identifier) : List Param → List Param
  | [] => []
  | ⟨name, indexed, type⟩ :: rest => ⟨f name, indexed, type.rename f⟩ :: Param.renameAll f rest

end

def Param.rename (f : Option Identifier → Option Identifier) (p : Param) : Param :=
  ⟨f p.name, p.indexed, p.type.rename f⟩

namespace Declaration

/-- Gives other names to the parameters and their components; the declaration keeps its own. -/
def rename (f : Option Identifier → Option Identifier) : Declaration → Declaration
  | constructor inputs payable gas => constructor (Param.renameAll f inputs) payable gas
  | error name inputs => error name (Param.renameAll f inputs)
  | event name inputs anonymous => event name (Param.renameAll f inputs) anonymous
  | fallback payable => fallback payable
  | receive => receive
  | function name mutability inputs outputs gas =>
    function name mutability (Param.renameAll f inputs) (Param.renameAll f outputs) gas
  | struct name inputs => struct name (Param.renameAll f inputs)

/-- Without the names of the parameters and their components. -/
def unnamed (d : Declaration) : Declaration := d.rename fun _ => none

end Declaration

variable {f : Option Identifier → Option Identifier} {style : Style}

theorem Param.renameAll_cons (p : Param) (ps : List Param) :
    renameAll f (p :: ps) = p.rename f :: renameAll f ps := by
  cases p
  rfl

theorem Param.renameAll_eq (ps : List Param) : renameAll f ps = ps.map (rename f) := by
  induction ps with
  | nil => rfl
  | cons p ps ih => rw [renameAll_cons, ih, List.map_cons]

theorem Ty.rename_foldl (lengths : List (Option UInt64)) (type : Ty) :
    (lengths.foldl Ty.array type).rename f = lengths.foldl Ty.array (type.rename f) := by
  induction lengths generalizing type with
  | nil => rfl
  | cons length rest ih => exact ih (.array type length)

theorem Ty.rename_tuple (components : List Param) :
    (Ty.tuple components).rename f = .tuple (components.map (Param.rename f)) :=
  congrArg Ty.tuple (Param.renameAll_eq components)

theorem Param.rename_id_of_type {p : Param} (h : p.type.rename id = p.type) : p.rename id = p := by
  rw [rename, h]
  cases p
  rfl

theorem Ty.rename_id (type : Ty) : type.rename id = type := by
  induction type using Ty.induction with
  | elementary type => rfl
  | array element length ih => rw [rename, ih]
  | tuple components ih =>
    have hid : ∀ p ∈ components, p.rename id = p := fun p hp => Param.rename_id_of_type (ih p hp)
    rw [rename_tuple, List.map_congr_left hid, List.map_id']

theorem Param.rename_id (p : Param) : p.rename id = p := rename_id_of_type p.type.rename_id

theorem Param.renameAll_id (ps : List Param) : renameAll id ps = ps := by
  rw [renameAll_eq, List.map_congr_left fun p _ => p.rename_id, List.map_id']

theorem Declaration.rename_id (d : Declaration) : d.rename id = d := by
  cases d with
  | fallback | receive => rfl
  | _ => simp only [rename, Param.renameAll_id]

theorem Param.signature_mk (style : Style) (name : Option Identifier) (indexed : Option Bool)
    (type : Ty) :
    Param.signature style ⟨name, indexed, type⟩ =
      type.signature style ++ style.label name indexed := rfl

theorem Param.signatures_eq (style : Style) (ps : List Param) :
    Param.signatures style ps = ps.map (Param.signature style) := by
  induction ps with
  | nil => rfl
  | cons p ps ih =>
    cases p
    rw [signatures, ih]
    rfl

theorem Style.label_congr (hs : style ≠ .full) (name other : Option Identifier)
    (indexed : Option Bool) : style.label name indexed = style.label other indexed := by
  cases style with
  | full => exact absurd rfl hs
  | _ => rfl

theorem Param.signature_rename_of_type (hs : style ≠ .full) {p : Param}
    (h : (p.type.rename f).signature style = p.type.signature style) :
    (p.rename f).signature style = p.signature style := by
  rw [signature, signature, rename, h, Style.label_congr hs (f p.name) p.name]

theorem Ty.signature_rename (hs : style ≠ .full) (type : Ty) :
    (type.rename f).signature style = type.signature style := by
  induction type using Ty.induction with
  | elementary type => rfl
  | array element length ih => rw [rename, signature, signature, ih]
  | tuple components ih =>
    have hps : ∀ p ∈ components, (p.rename f).signature style = p.signature style :=
      fun p hp => Param.signature_rename_of_type hs (ih p hp)
    rw [rename_tuple, signature, signature, Param.signatures_eq, Param.signatures_eq, List.map_map]
    exact congrArg (fun texts => _ ++ "(" ++ style.separator.intercalate texts ++ ")")
      (List.map_congr_left hps)

theorem Param.signature_rename (hs : style ≠ .full) (p : Param) :
    (p.rename f).signature style = p.signature style :=
  signature_rename_of_type hs (p.type.signature_rename hs)

/-- In these styles a signature has no names but that of the declaration. -/
def Style.Nameless (style : Style) : Prop := style = .sighash ∨ style = .minimal

theorem Param.printList_renameAll (hs : style.Nameless) (ps : List Param) :
    printList style (renameAll f ps) = printList style ps := by
  have hne : style ≠ .full := by obtain rfl | rfl := hs <;> decide
  have hprint (p : Param) : (p.rename f).print style = p.print style := by
    obtain rfl | rfl := hs <;> exact p.signature_rename hne
  rw [printList, printList, renameAll_eq, List.map_map]
  exact congrArg (fun texts => "(" ++ style.separator.intercalate texts ++ ")")
    (List.map_congr_left fun p _ => hprint p)

namespace Declaration

theorem signature_rename (d : Declaration) :
    (d.rename f).signature .minimal = d.signature .minimal := by
  have hlist := @Param.printList_renameAll f .minimal (.inr rfl)
  have hempty (ps : List Param) : (Param.renameAll f ps).isEmpty = ps.isEmpty := by
    rw [Param.renameAll_eq, List.isEmpty_map]
  cases d with
  | fallback | receive => rfl
  | _ => simp only [rename, signature, tailWords, hlist, hempty, word, kind]

/-- What the nameless styles make of a declaration, be it text or an error. -/
theorem print_rename (hs : style.Nameless) (d : Declaration) :
    (d.rename f).print style = d.print style := by
  obtain rfl | rfl := hs
  · cases d with
    | constructor | fallback | receive => rfl
    | _ => simp only [rename, print, sighash, sighash?, name?, inputs, Option.map_some,
        Param.printList_renameAll (.inl rfl)]
  · exact congrArg Except.ok d.signature_rename

end Declaration

end ContractAbi
