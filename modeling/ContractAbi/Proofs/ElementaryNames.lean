import ContractAbi.Proofs.Numeral
import ContractAbi.Proofs.Spelling

/-!
The names of elementary types, listed apart from the reader: which words it accepts, what each of
them stands for, and that the lexer takes every one of them for a type.
-/

namespace ContractAbi.Elementary

/-- A word for an elementary type, with the canonical word for the same. Widths are decimal numerals
without leading zeros. -/
inductive Named : String → String → Prop where
  | plain {w : String} (h : w ∈ ["address", "bool", "string", "bytes"]) : Named w w
  | fixedBytes {n : Nat} (h : 1 ≤ n ∧ n ≤ 32) : Named ("bytes" ++ n.repr) ("bytes" ++ n.repr)
  | widest {stem : String} (hs : stem ∈ ["uint", "int"]) : Named stem (stem ++ "256")
  | integer {stem : String} {n : Nat} (hs : stem ∈ ["uint", "int"]) (h : 8 ≤ n ∧ n ≤ 256)
      (h8 : n % 8 = 0) : Named (stem ++ n.repr) (stem ++ n.repr)

variable {w : String} {type : Elementary}

theorem width?_eq_some {digits : List Char} {n : Nat} (h : width? digits = some n) :
    digits = Nat.toDigits 10 n := by
  obtain ⟨hz, hd⟩ := Option.ite_none_left_eq_some.mp h
  exact Text.toDigits_of_decimal? hd hz

theorem byteSize?_eq_some {n : Nat} {size : Fin 32} (h : byteSize? n = some size) :
    n = size.val + 1 := by
  unfold byteSize? at h
  split at h
  · obtain rfl := Option.some.inj h
    dsimp only
    omega
  · cases h

theorem bitSize?_eq_some {n : Nat} {size : Fin 32} (h : bitSize? n = some size) :
    n = 8 * (size.val + 1) := by
  obtain ⟨h8, hn⟩ := Option.ite_none_right_eq_some.mp h
  have hbytes := byteSize?_eq_some hn
  omega

theorem sized_eq_ok {fault : Fault} {make : Fin 32 → Elementary} {size : Option (Fin 32)}
    (h : sized fault make size = .ok type) : ∃ n, size = some n ∧ type = make n := by
  unfold sized at h
  split at h
  next n => exact ⟨n, rfl, (Except.ok.inj h).symm⟩
  next => cases h

/-- A width that has been read is the numeral of a number. -/
theorem exists_repr_of_width? {α : Type} {width : List Char} {check : Nat → Option α} {a : α}
    (h : (width? width).bind check = some a) :
    ∃ n : Nat, String.ofList width = n.repr ∧ check n = some a := by
  obtain ⟨n, hn, hs⟩ := Option.bind_eq_some_iff.mp h
  exact ⟨n, by rw [width?_eq_some hn, ← Nat.toList_repr, String.ofList_toList], hs⟩

/-- The word that has a shape. -/
def Shape.word : Shape → String
  | plain type => type.text
  | bytes width => "bytes" ++ String.ofList width
  | uint width => "uint" ++ String.ofList width
  | int width => "int" ++ String.ofList width

theorem widthAfter?_eq_some {stem : String} {width : List Char}
    (h : widthAfter? stem w.toList = some width) : w = stem ++ String.ofList width := by
  obtain ⟨hstem, -⟩ := Option.filter_eq_some_iff.mp h
  apply String.toList_inj.mp
  rw [String.toList_append, String.toList_ofList]
  exact (List.isPrefixOf?_eq_some_iff_append_eq.mp hstem).symm

theorem word_of_shape? {shape : Shape} (h : shape? w = some shape) :
    w = shape.word ∧ ∀ type, shape = .plain type → w ∈ ["address", "bool", "string"] := by
  unfold shape? at h
  split at h
  iterate 3 next =>
    obtain rfl := Option.some.inj h
    exact ⟨rfl, fun _ _ => by decide⟩
  next =>
    simp only [Option.or_eq_some_iff, Option.map_eq_some_iff] at h
    obtain ⟨width, hw, rfl⟩ | ⟨-, ⟨width, hw, rfl⟩ | ⟨-, width, hw, rfl⟩⟩ := h
    iterate 3 exact ⟨widthAfter?_eq_some hw, nofun⟩

theorem named_fixedBytes {width : List Char} {fault : Fault}
    (h : sized fault .fixedBytes ((width? width).bind byteSize?) = .ok type) :
    Named ("bytes" ++ String.ofList width) type.text := by
  obtain ⟨size, hs, rfl⟩ := sized_eq_ok h
  obtain ⟨n, hn, hsize⟩ := exists_repr_of_width? hs
  obtain rfl := byteSize?_eq_some hsize
  rw [hn]
  exact .fixedBytes ⟨Nat.le_add_left 1 _, size.isLt⟩

theorem named_integer {stem : String} {width : List Char} {fault : Fault}
    {make : Fin 32 → Elementary} (hstem : stem ∈ ["uint", "int"])
    (hmake : ∀ size, (make size).text = stem ++ (8 * (size.val + 1)).repr)
    (h : sized fault make ((width? width).bind bitSize?) = .ok type) :
    Named (stem ++ String.ofList width) type.text := by
  obtain ⟨size, hs, rfl⟩ := sized_eq_ok h
  obtain ⟨n, hn, hsize⟩ := exists_repr_of_width? hs
  obtain rfl := bitSize?_eq_some hsize
  rw [hn, hmake]
  exact .integer hstem (by omega) (Nat.mul_mod_right 8 _)

theorem named_of_check {shape : Shape} (h : shape.check = .ok type)
    (hp : ∀ t, shape = .plain t → shape.word ∈ ["address", "bool", "string"]) :
    Named shape.word type.text := by
  cases shape with
  | plain t =>
    obtain rfl := Except.ok.inj h
    exact .plain (List.mem_append_left ["bytes"] (hp _ rfl))
  | bytes width =>
    cases width with
    | nil =>
      obtain rfl := Except.ok.inj h
      exact .plain (by decide)
    | cons => exact named_fixedBytes h
  | uint width =>
    cases width with
    | nil =>
      obtain rfl := Except.ok.inj h
      exact .widest (by decide)
    | cons => exact named_integer (by decide) (fun _ => rfl) h
  | int width =>
    cases width with
    | nil =>
      obtain rfl := Except.ok.inj h
      exact .widest (by decide)
    | cons => exact named_integer (by decide) (fun _ => rfl) h

theorem named_of_ofString (h : ofString w = .ok type) : Named w type.text := by
  unfold ofString at h
  split at h
  next shape hs =>
    obtain ⟨rfl, hp⟩ := word_of_shape? hs
    exact named_of_check h hp
  next => cases h

/-- Every word of the list is read, as the type that has the canonical word for its text. -/
theorem exists_ofString_of_named {c : String} (h : Named w c) :
    ∃ type, ofString w = .ok type ∧ type.text = c := by
  cases h with
  | plain h =>
    have hall : ∀ w ∈ ["address", "bool", "string", "bytes"],
        ∃ type ∈ [address, bool, string, bytes], type.text = w := by decide
    obtain ⟨type, -, rfl⟩ := hall w h
    exact ⟨type, ofString_text type, rfl⟩
  | @fixedBytes n h =>
    have hn : n - 1 + 1 = n := by omega
    have htext : (fixedBytes ⟨n - 1, by omega⟩).text = "bytes" ++ n.repr := by rw [text, hn]
    exact ⟨_, htext ▸ ofString_text _, htext⟩
  | widest hs =>
    simp only [List.mem_cons, List.not_mem_nil, or_false] at hs
    obtain rfl | rfl := hs
    · exact ⟨.uint widest, rfl, rfl⟩
    · exact ⟨.int widest, rfl, rfl⟩
  | @integer stem n hs h h8 =>
    have hn : 8 * (n / 8 - 1 + 1) = n := by omega
    simp only [List.mem_cons, List.not_mem_nil, or_false] at hs
    obtain rfl | rfl := hs
    · have htext : (uint ⟨n / 8 - 1, by omega⟩).text = "uint" ++ n.repr := by rw [text, hn]
      exact ⟨_, htext ▸ ofString_text _, htext⟩
    · have htext : (int ⟨n / 8 - 1, by omega⟩).text = "int" ++ n.repr := by rw [text, hn]
      exact ⟨_, htext ▸ ofString_text _, htext⟩

/-- The lexer makes one token of a word with the shape of a type. -/
theorem scan_of_shape? (h : (shape? w).isSome = true) :
    Token.scan w = .ok [⟨.type, w, 0, 0, none, none, none, none⟩] := by
  have hw := isIdentifier_of_shape? h
  have hrun : Lexer.initial.run 0 (Piece.ofChars w.toList) =
      .ok ⟨[.single (.word w.toList 0)], [], none⟩ := by
    rw [Piece.ofChars_word (word_chars hw).1 (word_chars hw).2,
      Lexer.run_cons (by rw [Lexer.addPiece, Lexer.addRun_word hw])]
    rfl
  have hword : Lexeme.word w.toList 0 = ⟨.type, w, 0, none⟩ := by
    rw [Lexeme.word, String.ofList_toList, kindOfWord_of_shape? h]
  rw [Token.scan, Item.ofChars, hrun, hword]
  rfl

/-- The reader accepts the names of the list and no other word, and gives the canonical word for
each. What it accepts is an identifier and no keyword, and makes one token. -/
theorem ofString_accepts_names (w : String) :
    (∀ c, (∃ type, ofString w = .ok type ∧ type.text = c) ↔ Named w c) ∧
    ∀ type, ofString w = .ok type →
      ofString type.text = .ok type ∧ isIdentifier w = true ∧ isKeyword w = false ∧
        Token.scan w = .ok [⟨.type, w, 0, 0, none, none, none, none⟩] := by
  refine ⟨fun c => ⟨?_, exists_ofString_of_named⟩, fun type h => ?_⟩
  · rintro ⟨type, h, rfl⟩
    exact named_of_ofString h
  · have hs := shape?_of_ofString h
    exact ⟨ofString_text type, isIdentifier_of_shape? hs, isKeyword_of_shape? hs, scan_of_shape? hs⟩

theorem ofString_accepts_names_widest :
    ofString "uint" = .ok (.uint widest) ∧ ofString "uint256" = .ok (.uint widest) ∧
      isIdentifier "uint" = true ∧ isKeyword "uint" = false ∧
        Token.scan "uint" = .ok [⟨.type, "uint", 0, 0, none, none, none, none⟩] :=
  ⟨rfl, (ofString_accepts_names "uint").2 (.uint widest) rfl⟩

end ContractAbi.Elementary
