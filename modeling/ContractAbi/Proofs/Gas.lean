import ContractAbi.Proofs.Names
import ContractAbi.Proofs.Spacing

/-!
The gas of a declaration in signature text. It stands at the end, so that a text with it is read
just when the text before it is, and as the same declaration but for the gas.
-/

namespace ContractAbi

open Piece
open Item (CommaFree symbolsOf)

namespace Declaration

/-- The gas, where one is stated. -/
def gas? : Declaration → Option Nat
  | constructor _ _ gas | function _ _ _ _ gas => gas
  | _ => none

def withGas (gas : Option Nat) : Declaration → Declaration
  | constructor inputs payable _ => constructor inputs payable gas
  | function name mutability inputs outputs _ => function name mutability inputs outputs gas
  | d => d

/-- Constructors and functions are the declarations that can state a gas. -/
def TakesGas (d : Declaration) : Prop := d.kind = .constructor ∨ d.kind = .function

instance (d : Declaration) : Decidable d.TakesGas := inferInstanceAs (Decidable (_ ∨ _))

variable {d : Declaration} {n : Nat} {gas gas' : Option Nat}

theorem TakesGas.gas?_withGas (h : d.TakesGas) : (d.withGas gas).gas? = gas := by
  cases d <;> simp [TakesGas, kind, withGas, gas?] at h ⊢

@[simp] theorem withGas_withGas : (d.withGas gas).withGas gas' = d.withGas gas' := by
  cases d <;> rfl

@[simp] theorem takesGas_withGas : (d.withGas gas).TakesGas ↔ d.TakesGas := by
  cases d <;> rfl

theorem withGas_gas? : d.withGas d.gas? = d := by
  cases d <;> rfl

end Declaration

/-- What states a gas of `n` in a signature: an at sign and the digits of it, with blanks around
them and zeros in front of them. -/
inductive GasText (n : Nat) : List Char → Prop where
  | mk {before between after : List Char} (hb : ∀ c ∈ before, Text.isBlank c = true)
      (hw : ∀ c ∈ between, Text.isBlank c = true) (ha : ∀ c ∈ after, Text.isBlank c = true)
      (zeros : Nat) :
      GasText n (before ++ '@' ::
        (between ++ (List.replicate zeros '0' ++ Nat.toDigits 10 n) ++ after))

namespace Stretch

variable {start : Nat} {ps : List Piece} {items : List Item} {w cs : List Char}

theorem append_run_iff :
    Stretch start (ps ++ [.run w]) items ↔ ∃ before, Stretch start ps before ∧
      items = before ++ (Lexeme.ofRun w (start + extent ps)).map .single := by
  constructor
  · intro h
    generalize hqs : ps ++ [Piece.run w] = qs at h
    cases h with
    | nil => simp at hqs
    | run h v =>
      obtain ⟨rfl, hv⟩ := List.append_inj' hqs rfl
      cases hv
      exact ⟨_, h, rfl⟩
    | _ => simpa using (List.append_inj' hqs rfl).2
  · rintro ⟨before, h, rfl⟩
    exact h.run w

theorem append_atSign_iff :
    Stretch start (ps ++ [.mark '@']) items ↔ ∃ before, Stretch start ps before ∧
      items = before ++ [.single ⟨.atSign, "@", start + extent ps, none⟩] := by
  constructor
  · intro h
    generalize hqs : ps ++ [Piece.mark '@'] = qs at h
    cases h with
    | nil => simp at hqs
    | blank _ hc =>
      obtain rfl : '@' = _ := by simpa using (List.append_inj' hqs rfl).2
      cases hc
    | atSign h =>
      obtain ⟨rfl, -⟩ := List.append_inj' hqs rfl
      exact ⟨_, h, rfl⟩
    | _ => simpa using (List.append_inj' hqs rfl).2
  · rintro ⟨before, h, rfl⟩
    exact h.atSign

theorem append_blanks_iff (h : ∀ c ∈ cs, Text.isBlank c = true) :
    Stretch start (ps ++ ofChars cs) items ↔ Stretch start ps items := by
  induction cs generalizing ps with
  | nil => rw [show ofChars [] = [] from rfl, List.append_nil]
  | cons c cs ih =>
    rw [List.forall_mem_cons] at h
    rw [ofChars_cons_mark (isWordChar_of_isBlank h.1), List.append_cons, ih h.2]
    exact ⟨fun hs => hs.of_append_blank h.1, fun hs => hs.blank h.1⟩

end Stretch

/-- The symbols of a text that has tokens. -/
def Token.Scans (text : String) (ss : List Symbol) : Prop :=
  ∃ tokens, scan text = .ok tokens ∧ tokens.map symbol = ss

theorem Token.scans_iff {text : String} {ss : List Symbol} :
    Scans text ss ↔
      ∃ items, Stretch 0 (ofChars text.toList) items ∧ CommaFree items ∧ symbolsOf items = ss := by
  constructor
  · rintro ⟨tokens, h, rfl⟩
    obtain ⟨items, hitems, rfl⟩ := map_eq_ok_iff.mp h
    obtain ⟨hs, hc⟩ := Item.ofChars_eq_ok.mp hitems
    exact ⟨items, hs, hc, (Item.map_symbol_layout 0 0 0 items).symm⟩
  · rintro ⟨items, hs, hc, rfl⟩
    exact ⟨_, map_eq_ok_iff.mpr ⟨items, Item.ofChars_eq_ok.mpr ⟨hs, hc⟩, rfl⟩,
      Item.map_symbol_layout 0 0 0 items⟩

/-- A text for gas has two symbols, whatever stands before it. -/
theorem Token.scans_append_gas_iff {n : Nat} {written : String} (h : GasText n written.toList) :
    ∃ digits : String, Text.decimal? digits.toList = some n ∧ ∀ text ss,
      Scans (text ++ written) ss ↔ ∃ us, Scans text us ∧ ss = us ++ [.atSign, .number digits] := by
  generalize hw : written.toList = cs at h
  obtain @⟨before, between, after, hb, hbetween, ha, zeros⟩ := h
  have hn := Text.decimal?_zeros zeros n
  generalize List.replicate zeros '0' ++ Nat.toDigits 10 n = digits at hn hw
  obtain ⟨hne, hd, -⟩ := Text.decimal?_eq_some.mp hn
  refine ⟨String.ofList digits, by rwa [String.toList_ofList], fun text ss => ?_⟩
  have happend : ofChars (text ++ written).toList =
      ofChars text.toList ++ ofChars before ++ [.mark '@'] ++ ofChars between ++ [.run digits] ++
        ofChars after := by
    have hapart : Apart (before ++ '@' :: (between ++ digits ++ after)) :=
      (apart_of_blank hb).append (apart_cons (by decide) _)
    rw [String.toList_append, hw, ofChars_append _ hapart, ofChars_append_blank hb,
      ofChars_cons_mark (by decide), List.append_assoc between, ofChars_append_blank hbetween,
      ofChars_append _ (apart_of_blank ha), ofChars_word hne fun c hc =>
        isWordChar_of_isDigit (hd c hc)]
    simp
  simp only [scans_iff, happend, Stretch.append_blanks_iff hb, Stretch.append_blanks_iff hbetween,
    Stretch.append_blanks_iff ha, Stretch.append_run_iff, Stretch.append_atSign_iff,
    Lexeme.ofRun_digits hne hd]
  have hsymbols (items : List Item) (at' number' : Nat) :
      symbolsOf (items ++ [.single ⟨.atSign, "@", at', none⟩] ++
        [Lexeme.number digits number'].map .single) =
          symbolsOf items ++ [.atSign, .number (String.ofList digits)] := by
    rw [Item.symbolsOf_append, Item.symbolsOf_append, List.append_assoc]
    rfl
  constructor
  · rintro ⟨_, ⟨_, ⟨items, hs, rfl⟩, rfl⟩, hc, rfl⟩
    have hc := (Item.commaFree_append.mp (Item.commaFree_append.mp hc).1).1
    exact ⟨_, ⟨items, hs, hc, rfl⟩, hsymbols ..⟩
  · rintro ⟨_, ⟨items, hs, hc, rfl⟩, rfl⟩
    refine ⟨_, ⟨_, ⟨items, hs, rfl⟩, rfl⟩, ?_, hsymbols ..⟩
    simp [Item.commaFree_append, hc, Item.isComma, Item.commaFree_nil]

namespace Grammar

open Declaration (TakesGas)

variable {ts us : List Symbol} {d : Declaration} {digits : String} {n : Nat}

/-- Symbols that do not end in a number. -/
def EndsPlain (ts : List Symbol) : Prop := ∀ digits, ts.getLast? ≠ some (.number digits)

namespace EndsPlain

theorem nil : EndsPlain [] := nofun

theorem append (ht : EndsPlain ts) (hu : EndsPlain us) : EndsPlain (ts ++ us) := by
  intro digits h
  rw [List.getLast?_append] at h
  cases hlast : us.getLast? with
  | none =>
    rw [hlast] at h
    exact ht digits h
  | some s =>
    rw [hlast] at h
    exact hu digits (hlast.trans h)

theorem keywords (words : List String) : EndsPlain (words.map .keyword) := by
  intro digits h
  obtain ⟨w, -, hw⟩ := List.mem_map.mp (List.mem_of_getLast? h)
  cases hw

theorem group {indexable : Bool} {ps : List Param} (h : Group indexable ts ps) : EndsPlain ts := by
  intro digits hlast
  cases h with
  | empty => cases hlast
  | list =>
    rw [List.getLast?_concat] at hlast
    cases hlast

theorem visibility {m : Mutability} (h : Visibility ts m) : EndsPlain ts := by
  cases h with
  | mk => exact keywords _

theorem returns {ps : List Param} (h : Returns ts ps) : EndsPlain ts := by
  cases h with
  | omitted => exact nil
  | stated h => exact append (keywords ["returns"]) (group h)

theorem named (w : String) (name : Identifier) (h : EndsPlain ts) :
    EndsPlain (.keyword w :: .identifier name.text :: ts) := by
  have hopening : EndsPlain [.keyword w, .identifier name.text] := by
    intro digits hlast
    cases hlast
  exact hopening.append h

end EndsPlain

theorem EndsPlain.ne (h : EndsPlain us) : us ≠ ts ++ [.atSign, .number digits] := by
  rintro rfl
  exact h digits (by simp)

theorem Gas.of_append {gs : List Symbol} {gas : Option Nat} (hg : Gas gs gas) (hu : EndsPlain us)
    (hn : Text.decimal? digits.toList = some n)
    (he : us ++ gs = ts ++ [.atSign, .number digits]) : gas = some n ∧ us = ts := by
  cases hg with
  | omitted =>
    rw [List.append_nil] at he
    exact absurd he hu.ne
  | stated hm =>
    obtain ⟨rfl, hlast⟩ := List.append_inj' he rfl
    obtain rfl := Symbol.number.inj (List.cons.inj (List.cons.inj hlast).2).1
    exact ⟨hm.symm.trans hn, rfl⟩

/-- What ends in a text for gas declares something that states this gas, and without the text for
gas it declares the same without gas. -/
theorem declares_append_gas_iff (hn : Text.decimal? digits.toList = some n) :
    Declares (ts ++ [.atSign, .number digits]) d ↔
      d.gas? = some n ∧ Declares ts (d.withGas none) := by
  constructor
  · intro h
    generalize he : ts ++ [.atSign, .number digits] = all at h
    cases h with
    | constructor hi hw hg =>
      have hplain := (EndsPlain.keywords ["constructor"]).append (.group hi)
      obtain ⟨rfl, rfl⟩ := hg.of_append (hplain.append (.keywords _)) hn he.symm
      exact ⟨rfl, by simpa [Declaration.withGas] using Declares.constructor hi hw .omitted⟩
    | function name hi hv ho hg =>
      have hplain := ((EndsPlain.named "function" name (.group hi)).append
        (.visibility hv)).append (.returns ho)
      obtain ⟨rfl, rfl⟩ := hg.of_append hplain hn he.symm
      exact ⟨rfl, by simpa [Declaration.withGas] using Declares.function name hi hv ho .omitted⟩
    | error name hi => exact absurd he.symm (EndsPlain.named _ _ (.group hi)).ne
    | struct name hi => exact absurd he.symm (EndsPlain.named _ _ (.group hi)).ne
    | event name anonymous hi =>
      have hplain : EndsPlain (if anonymous then [.keyword "anonymous"] else []) := by
        cases anonymous with
        | false => exact .nil
        | true => exact .keywords ["anonymous"]
      exact absurd he.symm ((EndsPlain.named _ _ (.group hi)).append hplain).ne
    | fallback payable hi takes hv ho returns =>
      have hplain := (EndsPlain.keywords ["fallback"]).append (.group hi)
      exact absurd he.symm ((hplain.append (.visibility hv)).append (.returns ho)).ne
    | receive hv =>
      have hplain := (EndsPlain.keywords ["receive"]).append (.group (@Group.empty false))
      exact absurd he.symm (hplain.append (.visibility hv)).ne
  · rintro ⟨hgas, h⟩
    cases d with
    | constructor inputs payable gas =>
      obtain rfl : gas = some n := hgas
      cases h with
      | constructor hi hw hg =>
        cases hg with
        | omitted => simpa using Declares.constructor hi hw (.stated hn)
    | function name mutability inputs outputs gas =>
      obtain rfl : gas = some n := hgas
      cases h with
      | function name hi hv ho hg =>
        cases hg with
        | omitted => simpa using Declares.function name hi hv ho (.stated hn)
    | _ => cases hgas

end Grammar

/-- A signature with a text for gas at its end is read just when it is read without, and as the same
declaration but for the gas. -/
theorem Declaration.ofSignature_append_gas_iff {n : Nat} {written : String}
    (h : GasText n written.toList) (text : String) (d : Declaration) :
    ofSignature (text ++ written) = .ok d ↔
      d.gas? = some n ∧ ofSignature text = .ok (d.withGas none) := by
  obtain ⟨digits, hn, hscans⟩ := Token.scans_append_gas_iff h
  have hread (text : String) (d : Declaration) :
      ofSignature text = .ok d ↔ ∃ ss, Token.Scans text ss ∧ Grammar.Declares ss d := by
    rw [ofSignature_eq_ok]
    simp [Token.Scans]
  rw [hread, hread]
  constructor
  · rintro ⟨ss, hs, hd⟩
    obtain ⟨us, hu, rfl⟩ := (hscans text ss).mp hs
    obtain ⟨hgas, hd⟩ := (Grammar.declares_append_gas_iff hn).mp hd
    exact ⟨hgas, us, hu, hd⟩
  · rintro ⟨hgas, us, hu, hd⟩
    exact ⟨_, (hscans text _).mpr ⟨us, hu, rfl⟩,
      (Grammar.declares_append_gas_iff hn).mpr ⟨hgas, hd⟩⟩

namespace Declaration

variable {d : Declaration} {n : Nat}

/-- The text that a gas is written as. -/
def gasText (n : Nat) : String := " @" ++ n.repr

theorem gasText_written (n : Nat) : GasText n (gasText n).toList := by
  have hspace : ∀ c ∈ [' '], Text.isBlank c = true := List.forall_mem_singleton.mpr (by decide)
  have hnone : ∀ c ∈ ([] : List Char), Text.isBlank c = true := nofun
  simpa [gasText] using GasText.mk (n := n) hspace hnone hnone 0

theorem intercalate_gasWords {words : List String} (h : words ≠ []) (n : Nat) :
    " ".intercalate (words ++ gasWords (some n)) = " ".intercalate words ++ gasText n := by
  have hgas : gasWords (some n) = ["@" ++ n.repr] := rfl
  have hspace : " " ++ ("@" ++ n.repr) = gasText n := by
    rw [gasText, ← String.append_assoc]
    rfl
  rw [hgas, String.intercalate_append_of_ne_nil h (by simp), String.intercalate_singleton,
    String.append_assoc, hspace]

/-- A signature with gas is the one without, and the gas after it. -/
theorem signature_eq_append (style : Style) (h : d.gas? = some n) :
    d.signature style = (d.withGas none).signature style ++ gasText n := by
  cases d with
  | constructor inputs payable gas =>
    obtain rfl : gas = some n := h
    rw [signature, tailWords, ← List.append_assoc, intercalate_gasWords (by simp)]
    simp [signature, tailWords, withGas, gasWords, word, kind]
  | function name mutability inputs outputs gas =>
    obtain rfl : gas = some n := h
    rw [signature, tailWords, ← List.append_assoc, intercalate_gasWords (by simp)]
    simp [signature, tailWords, withGas, gasWords, word, kind]
  | _ => cases h

end Declaration

end ContractAbi
