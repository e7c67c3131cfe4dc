import ContractAbi.Param.Signature
import ContractAbi.Proofs.Grammar
import ContractAbi.Proofs.Groups
import Mathlib.Data.List.Forall2

/-!
The reader of parameters accepts what the grammar derives, and nothing else. Both sides divide a
group at its commas; the reader is told where they are by links, the grammar has to find them.
-/

namespace ContractAbi

theorem Identifier.text_ne_empty (name : Identifier) : name.text ≠ "" := by
  intro h
  have hv := name.valid
  rw [h] at hv
  cases hv

theorem Param.nameOf_text (name : Identifier) : Param.nameOf name.text = .ok (some name) := by
  rw [nameOf, if_neg name.text_ne_empty, Identifier.ofString?_text]

theorem Param.elementary_eq_ok {word : String} {p : Param} :
    Param.elementary word = .ok p ↔
      ∃ e, Elementary.ofString word = .ok e ∧ p = .ofType (.elementary e) := by
  rw [elementary]
  cases Elementary.ofString word with
  | ok e => simp [eq_comm]
  | error fault => simp

namespace Reads

variable {c c' : Cursor}

theorem arrayLengths_iff {lengths : List (Option UInt64)} :
    Reads Reader.arrayLengths c lengths c' ↔
      ∃ rest, c.symbols = lengths.map .bracket ++ rest ∧
        (∀ n, rest.head? ≠ some (.bracket n)) ∧ c' = c.advance lengths.length := by
  have hbracket (t : Token) :
      (t.kind == .bracket) = true ↔ True ∧ t.symbol = .bracket t.value := by
    simp [Token.symbol_eq_bracket]
  have htake := map_takeWhile_eq_iff (fun _ => True) hbracket
    (fun t n h => (Token.symbol_eq_bracket.mp h).2) c.unread lengths
  rw [Reader.arrayLengths, get_bind_iff]
  dsimp only
  rw [skip_pure_iff]
  refine ⟨?_, ?_⟩
  · intro h
    obtain ⟨rfl, rfl⟩ := h
    obtain ⟨rest, hs, -, hr⟩ := htake.mp rfl
    exact ⟨rest, hs, fun n hn => hr n hn trivial, by rw [List.length_map]⟩
  · intro h
    obtain ⟨rest, hs, hr, rfl⟩ := h
    have hl := htake.mpr ⟨rest, hs, fun _ _ => trivial, fun n hn => absurd hn (hr n)⟩
    refine ⟨hl.symm, ?_⟩
    rw [← hl, List.length_map]

theorem indexedFlag_iff {indexable : Bool} {flag : Option Bool} :
    Reads (Reader.indexedFlag indexable) c flag c' ↔
      ∃ words rest, c.symbols = words.map .keyword ++ rest ∧
        Grammar.Words Keyword.modifiers words ∧
        (∀ w, rest.head? = some (.keyword w) → w ∉ Keyword.modifiers) ∧
        ("indexed" ∈ words → indexable = true) ∧
        flag = (if indexable then some (decide ("indexed" ∈ words)) else none) ∧
        c' = c.advance words.length := by
  rw [Reader.indexedFlag, bind_iff]
  refine ⟨?_, ?_⟩
  · intro h
    obtain ⟨words, d, hw, hr⟩ := h
    obtain ⟨rest, hs, hk, hstop, hn, rfl⟩ := keywords_iff.mp hw
    dsimp only at hr
    by_cases hi : (words.contains "indexed" && !indexable) = true
    · rw [if_pos hi] at hr
      exact absurd hr throw_bind_iff
    · rw [if_neg hi, pure_iff] at hr
      obtain ⟨rfl, rfl⟩ := hr
      refine ⟨words, rest, hs, ⟨hk, hn⟩, hstop, ?_, by simp, rfl⟩
      simpa using hi
  · intro h
    obtain ⟨words, rest, hs, hw, hstop, hi, rfl, rfl⟩ := h
    refine ⟨words, _, keywords_iff.mpr ⟨rest, hs, hw.known, hstop, hw.distinct, rfl⟩, ?_⟩
    rw [if_neg (by simpa using hi), pure_iff]
    exact ⟨by simp, rfl⟩

theorem optionalName_iff {name : Option Identifier}
    (hi : ∀ w, .identifier w ∈ c.symbols → isIdentifier w = true) :
    Reads Reader.optionalName c name c' ↔
      ∃ ns rest, c.symbols = ns ++ rest ∧ Grammar.Name ns name ∧
        (ns = [] → ∀ w, rest.head? ≠ some (.identifier w)) ∧ c' = c.advance ns.length := by
  rw [Reader.optionalName, get_bind_iff]
  cases hp : c.peekKind? .identifier with
  | none =>
    have hno : ∀ w rest, c.symbols ≠ .identifier w :: rest := by
      intro w rest hs
      rw [(Cursor.peekKind?_symbol fun _ => Token.symbol_eq_identifier).mpr ⟨rest, hs⟩] at hp
      cases hp
    rw [pure_iff]
    refine ⟨?_, ?_⟩
    · intro h
      obtain ⟨rfl, rfl⟩ := h
      refine ⟨[], c'.symbols, rfl, .unnamed, fun _ w hw => ?_, rfl⟩
      obtain ⟨rest, hs⟩ := List.head?_eq_some_iff.mp hw
      exact hno w rest hs
    · intro h
      obtain ⟨ns, rest, hs, hn, -, rfl⟩ := h
      cases hn with
      | unnamed => exact ⟨rfl, rfl⟩
      | named name => exact absurd hs (hno name.text rest)
  | some w =>
    obtain ⟨rest, hs⟩ := (Cursor.peekKind?_symbol fun _ => Token.symbol_eq_identifier).mp hp
    have hw : isIdentifier w = true := hi w (by simp [hs])
    have hname : Param.nameOf w = .ok (some ⟨w, hw⟩) := Param.nameOf_text ⟨w, hw⟩
    dsimp only
    rw [skip_bind_iff, liftExcept_iff, hname]
    refine ⟨?_, ?_⟩
    · intro h
      obtain ⟨he, rfl⟩ := h
      obtain rfl := Except.ok.inj he
      exact ⟨[.identifier w], rest, hs, .named ⟨w, hw⟩, by simp, rfl⟩
    · intro h
      obtain ⟨ns, rest', hs', hn, hstop, rfl⟩ := h
      cases hn with
      | unnamed =>
        rw [hs, List.nil_append] at hs'
        exact absurd (by rw [← hs', List.head?_cons]) (hstop rfl w)
      | named name =>
        rw [hs] at hs'
        obtain rfl : w = name.text := by simpa using (List.cons.inj hs').1
        exact ⟨rfl, rfl⟩

end Reads

namespace Grammar

theorem closed_keywords (words : List String) : Closed false (words.map Symbol.keyword) :=
  .map_leaf (fun _ => rfl) words

theorem Modifiers.closed {indexable : Bool} {ms : List Symbol} {flag : Option Bool}
    (h : Modifiers indexable ms flag) : Closed false ms := by
  cases h
  exact closed_keywords _

theorem Name.head?_eq_some {ns : List Symbol} {name : Option Identifier} {s : Symbol}
    (h : Name ns name) (hs : ns.head? = some s) :
    ∃ n, name = some n ∧ s = .identifier n.text := by
  cases h with
  | unnamed => cases hs
  | named n => exact ⟨n, rfl, (Option.some.inj hs).symm⟩

theorem Name.closed {ns : List Symbol} {name : Option Identifier} (h : Name ns name) :
    Closed false ns := by
  cases h with
  | unnamed => exact .nil
  | named => exact .leaf rfl .nil

mutual

theorem Parameter.closed {indexable : Bool} {ts : List Symbol} {p : Param} :
    Parameter indexable ts p → Closed false ts
  | .mk lengths head modifiers named =>
    ((head.closed.append (.map_leaf (fun _ => rfl) lengths)).append modifiers.closed).append
      named.closed

theorem Head.closed {ts : List Symbol} {type : Ty} : Head ts type → Closed false ts
  | .elementary _ => .leaf rfl .nil
  | .tuple h => h.closed
  | .wordedTuple h => .leaf rfl h.closed

theorem Group.closed {indexable : Bool} {ts : List Symbol} {ps : List Param} :
    Group indexable ts ps → Closed false ts
  | .empty => .group .nil .nil
  | .list h => .group h.closed .nil

theorem Parameters.closed {indexable : Bool} {ts : List Symbol} {ps : List Param} :
    Parameters indexable ts ps → Closed true ts
  | .one h => h.closed.toListed
  | .cons h hs => h.closed.toListed.append (.comma hs.closed)

end

theorem Parameter.isSome_indexed {indexable : Bool} {ts : List Symbol} {p : Param}
    (h : Parameter indexable ts p) : p.indexed.isSome = indexable := by
  cases h with
  | mk lengths head modifiers named =>
    cases modifiers
    cases indexable <;> rfl

theorem Parameters.isSome_indexed {indexable : Bool} {ts : List Symbol} {ps : List Param} :
    Parameters indexable ts ps → ∀ p ∈ ps, p.indexed.isSome = indexable
  | .one h => List.forall_mem_singleton.mpr h.isSome_indexed
  | .cons h hs => List.forall_mem_cons.mpr ⟨h.isSome_indexed, hs.isSome_indexed⟩

/-- All parameters of a group have a flag, or none has. -/
theorem Group.isSome_indexed {indexable : Bool} {ts : List Symbol} {ps : List Param}
    (h : Group indexable ts ps) : ∀ p ∈ ps, p.indexed.isSome = indexable := by
  cases h with
  | empty => simp
  | list h => exact h.isSome_indexed

open Item

/-- A derivation divides a group where its items have commas. -/
theorem Parameters.of_divides {indexable : Bool} {ts : List Symbol} {ps : List Param} :
    Parameters indexable ts ps → ∀ {body : List Item} {parts : List (List Item)}, Proper body →
      Divides body parts → symbolsOf body = ts →
        List.Forall₂ (fun part p => Parameter indexable (symbolsOf part) p) parts ps
  | .one h, body, parts, hp, hd, he => by
    cases hd with
    | last => exact .cons (he ▸ h) .nil
    | comma hc =>
      rw [symbolsOf_append, symbolsOf_cons] at he
      have hpart : Closed false _ := closed_symbolsOf _ (allOf_append.mp hp).1 fun _ => hc
      exact absurd he (hpart.append_comma_ne h.closed)
  | .cons h hs, body, parts, hp, hd, he => by
    cases hd with
    | last hc => exact absurd he.symm (h.closed.append_comma_ne (closed_symbolsOf _ hp fun _ => hc))
    | comma hc hr =>
      obtain ⟨hpart, -, hrest⟩ := allOf_append.mp hp
      rw [symbolsOf_append, symbolsOf_cons, symbols, List.singleton_append] at he
      obtain ⟨rfl, -, hus⟩ := (closed_symbolsOf _ hpart fun _ => hc).unique h.closed
        (.inr ⟨rfl, rfl⟩) (.inr ⟨rfl, rfl⟩) he
      exact .cons h (hs.of_divides hrest hr hus)

theorem parameters_of_divides {indexable : Bool} {body : List Item} {parts : List (List Item)}
    (hd : Divides body parts) {ps : List Param}
    (h : List.Forall₂ (fun part p => Parameter indexable (symbolsOf part) p) parts ps) :
    Parameters indexable (symbolsOf body) ps := by
  induction hd generalizing ps with
  | last =>
    cases h with
    | cons hp hn =>
      cases hn
      exact .one hp
  | comma _ _ ih =>
    cases h with
    | cons hp hr =>
      rw [symbolsOf_append, symbolsOf_cons, symbols, List.singleton_append]
      exact .cons hp (ih hr)

theorem Group.ne_nil {indexable : Bool} {ts : List Symbol} {ps : List Param}
    (h : Group indexable ts ps) : ts ≠ [] := by
  cases h <;> exact List.cons_ne_nil _ _

theorem Head.ne_nil {ts : List Symbol} {type : Ty} (h : Head ts type) : ts ≠ [] := by
  cases h with
  | elementary | wordedTuple => exact List.cons_ne_nil _ _
  | tuple h => exact h.ne_nil

theorem Parameter.ne_nil {indexable : Bool} {ts : List Symbol} {p : Param}
    (h : Parameter indexable ts p) : ts ≠ [] := by
  cases h with
  | mk lengths head =>
    rw [List.append_assoc, List.append_assoc]
    exact List.append_ne_nil_of_left_ne_nil head.ne_nil _

theorem Parameters.ne_nil {indexable : Bool} {ts : List Symbol} {ps : List Param}
    (h : Parameters indexable ts ps) : ts ≠ [] := by
  cases h with
  | one h => exact h.ne_nil
  | cons h => exact List.append_ne_nil_of_left_ne_nil h.ne_nil _

theorem Group.closed_inside {indexable : Bool} {ts : List Symbol} {ps : List Param}
    (h : Group indexable ts ps) :
    ∃ inner, ts = .openParen :: inner ++ [.closeParen] ∧ Closed true inner := by
  cases h with
  | empty => exact ⟨[], rfl, .nil⟩
  | list h => exact ⟨_, rfl, h.closed⟩

/-- A group is derived just when its parts are. -/
theorem group_iff {indexable : Bool} {body : List Item} {parts : List (List Item)}
    {ps : List Param} (hp : Proper body) (hd : Parts body parts) :
    Group indexable (.openParen :: symbolsOf body ++ [.closeParen]) ps ↔
      List.Forall₂ (fun part p => Parameter indexable (symbolsOf part) p) parts ps := by
  generalize hts : Symbol.openParen :: symbolsOf body ++ [.closeParen] = ts
  unfold Parts at hd
  refine ⟨?_, ?_⟩
  · intro h
    cases h with
    | empty =>
      have hb : symbolsOf body = [] := by simpa using hts
      obtain rfl : body = [] := by
        rw [← List.length_eq_zero_iff, length_symbolsOf] at hb
        exact eq_nil_of_widths hb
      obtain rfl : parts = [] := by simpa using hd
      exact .nil
    | @list _ ts _ h =>
      have hb : symbolsOf body = ts := by simpa using hts
      split at hd
      next hnil =>
        subst hnil
        exact absurd hb.symm h.ne_nil
      next => exact h.of_divides hp hd hb
  · intro h
    subst hts
    split at hd
    next hnil =>
      subst hnil hd
      cases h
      exact .empty
    next => exact .list (parameters_of_divides hd h)

end Grammar

theorem forall₂_congr_left {α β : Type} {R S : α → β → Prop} {xs : List α} {ys : List β}
    (h : ∀ x ∈ xs, ∀ y, R x y ↔ S x y) : List.Forall₂ R xs ys ↔ List.Forall₂ S xs ys := by
  induction xs generalizing ys with
  | nil => simp
  | cons x xs ih =>
    rw [List.forall_mem_cons] at h
    rw [List.forall₂_cons_left_iff, List.forall₂_cons_left_iff]
    simp only [h.1, ih h.2]

namespace Reader

open Item

/-- A reader that accepts the parameters of the grammar, if they have no more symbols than this. -/
def Accepts (one : Reader Param) (indexable : Bool) (bound : Nat) : Prop :=
  ∀ depth items p, CommaFree items → Proper items → widths items < bound →
    ((∃ c', Reads one (Cursor.ofItems depth items) p c') ↔
      Grammar.Parameter indexable (symbolsOf items) p)

end Reader

namespace Reads

open Item

variable {c c' : Cursor}

theorem mapM_within_iff {one : Reader Param} {cs : List Cursor} {ps : List Param} :
    Reads (cs.mapM (Reader.within · one)) c ps c' ↔
      List.Forall₂ (fun d p => ∃ d', Reads one d p d') cs ps ∧ c' = c := by
  induction cs generalizing ps c c' with
  | nil => simp
  | cons d cs ih =>
    rw [List.mapM_cons, bind_iff]
    simp only [within_iff, bind_iff, ih, pure_iff]
    refine ⟨?_, ?_⟩
    · intro h
      obtain ⟨p, -, ⟨hp, rfl⟩, ps, -, ⟨hps, rfl⟩, rfl, rfl⟩ := h
      exact ⟨.cons hp hps, rfl⟩
    · intro h
      obtain ⟨hf, rfl⟩ := h
      cases hf with
      | cons hp hps => exact ⟨_, _, ⟨hp, rfl⟩, _, _, ⟨hps, rfl⟩, rfl, rfl⟩

theorem forall₂_parts_iff {one : Reader Param} {indexable : Bool} {bound : Nat} (depth : Nat)
    {body : List Item} {parts : List (List Item)} (hone : one.Accepts indexable bound)
    (hp : Proper body) (hparts : Parts body parts) (hb : widths body < bound) {ps : List Param} :
    List.Forall₂ (fun d p => ∃ d', Reads one d p d') (parts.map (Cursor.ofItems depth)) ps ↔
      List.Forall₂ (fun part p => Grammar.Parameter indexable (symbolsOf part) p) parts ps := by
  rw [List.forall₂_map_left_iff]
  apply forall₂_congr_left
  intro part hm p
  -- no part has more symbols than the whole body, so the reader has room for each
  obtain ⟨hc, hproper, hw⟩ := hparts.of_mem hp hm
  exact hone depth part p hc hproper (Nat.lt_of_le_of_lt hw hb)

/-- A group is read just when the grammar derives it from the front of what is left. -/
theorem groupOf_iff {one : Reader Param} {indexable : Bool} {bound depth : Nat}
    {items : List Item} (hone : one.Accepts indexable bound) (h : c.Holds depth items)
    (hb : widths items ≤ bound) {ps : List Param} :
    Reads (Reader.groupOf one) c ps c' ↔
      ∃ ts rest, c.symbols = ts ++ rest ∧ Grammar.Group indexable ts ps ∧
        c' = c.advance ts.length := by
  rw [Reader.groupOf, bind_iff]
  simp only [mapM_within_iff]
  refine ⟨?_, ?_⟩
  · intro hr
    obtain ⟨cs, d, hpop, hf, rfl⟩ := hr
    obtain ⟨t, close, ht, hk, -⟩ := popItems_iff.mp hpop
    have hs : c.symbols = .openParen :: (c.advance 1).symbols :=
      Cursor.symbols_eq_cons.mpr ⟨t, ht, Token.symbol_eq_openParen.mpr hk, rfl⟩
    obtain ⟨openAt, body, closeAt, after, rfl⟩ := h.eq_group hs
    obtain ⟨⟨parts, hparts, rfl⟩, rfl⟩ := (popItems_group_iff h).mp hpop
    rw [widths_cons, width] at hb
    have hgroup := (Grammar.group_iff h.proper.1 hparts).mpr
      ((forall₂_parts_iff _ hone h.proper.1 hparts (by omega)).mp hf)
    refine ⟨_, symbolsOf after, ?_, hgroup, ?_⟩
    · rw [h.symbols, symbolsOf_cons, symbols]
    · rw [List.length_append, List.length_cons, length_symbolsOf, List.length_singleton]
  · intro hr
    obtain ⟨ts, rest, hs, hgroup, rfl⟩ := hr
    obtain ⟨inner, rfl, hinner⟩ := hgroup.closed_inside
    obtain ⟨openAt, body, closeAt, after, rfl⟩ := h.eq_group hs
    obtain ⟨parts, hparts⟩ := exists_parts body
    have hclose : c.symbols = .openParen :: inner ++ .closeParen :: rest := by
      rw [hs, List.append_assoc, List.singleton_append]
    obtain rfl := h.symbolsOf_body hinner hclose
    rw [widths_cons, width] at hb
    have hf := (forall₂_parts_iff (depth + 1) hone h.proper.1 hparts (by omega)).mpr
      ((Grammar.group_iff h.proper.1 hparts).mp hgroup)
    refine ⟨_, c.advance (widths body + 2), (popItems_group_iff h).mpr ⟨⟨parts, hparts, rfl⟩, rfl⟩,
      hf, ?_⟩
    · rw [List.length_append, List.length_cons, length_symbolsOf, List.length_singleton]

theorem elementaryType_iff {type : Ty} :
    Reads Reader.elementaryType c type c' ↔
      ∃ word rest e, c.symbols = .type word :: rest ∧ Elementary.ofString word = .ok e ∧
        type = .elementary e ∧ c' = c.advance 1 := by
  rw [Reader.elementaryType, bind_iff]
  simp only [popType_iff, bind_iff, liftExcept_iff, pure_iff]
  refine ⟨?_, ?_⟩
  · intro h
    obtain ⟨word, d, ⟨rest, hs, rfl⟩, p, -, ⟨hp, rfl⟩, rfl, rfl⟩ := h
    obtain ⟨e, he, rfl⟩ := Param.elementary_eq_ok.mp hp
    exact ⟨word, rest, e, hs, he, rfl, rfl⟩
  · intro h
    obtain ⟨word, rest, e, hs, he, rfl, rfl⟩ := h
    exact ⟨word, _, ⟨rest, hs, rfl⟩, _, _, ⟨Param.elementary_eq_ok.mpr ⟨e, he, rfl⟩, rfl⟩, rfl, rfl⟩

theorem headWith_iff {one : Reader Param} {bound depth : Nat} {items : List Item}
    (hone : one.Accepts false bound) (h : c.Holds depth items) (hb : widths items ≤ bound)
    {type : Ty} :
    Reads (Reader.headWith (Reader.groupOf one)) c type c' ↔
      ∃ hs rest, c.symbols = hs ++ rest ∧ Grammar.Head hs type ∧ c' = c.advance hs.length := by
  rw [Reader.headWith, bind_iff]
  simp only [keyword?_iff, get_bind_iff]
  refine ⟨?_, ?_⟩
  · intro hr
    obtain ⟨worded, d, ⟨rest, hs, hstop, rfl⟩, hr⟩ := hr
    cases worded with
    | true =>
      rw [optionalKeyword_true] at hs hr
      rw [Bool.true_or, if_pos rfl, map_iff] at hr
      obtain ⟨items', h', hw⟩ := h.advance_closed (.leaf rfl .nil) hs
      obtain ⟨ps, hread, rfl⟩ := hr
      obtain ⟨ts, rest', hs', hg, rfl⟩ := (groupOf_iff hone h' (hw.trans hb)).mp hread
      rw [Cursor.symbols_advance_of_eq hs] at hs'
      exact ⟨_, rest', by rw [hs, hs']; rfl, .wordedTuple hg,
        by rw [Cursor.advance_advance, List.length_cons, Nat.add_comm]; rfl⟩
    | false =>
      rw [Bool.false_or, optionalKeyword_false, List.length_nil, Cursor.advance_zero] at hr
      split at hr
      next =>
        obtain ⟨ps, hread, rfl⟩ := map_iff.mp hr
        obtain ⟨ts, rest', hs', hg, rfl⟩ := (groupOf_iff hone h hb).mp hread
        exact ⟨ts, rest', hs', .tuple hg, rfl⟩
      next =>
        obtain ⟨word, rest', e, hs', he, rfl, rfl⟩ := elementaryType_iff.mp hr
        exact ⟨_, rest', hs', .elementary he, rfl⟩
  · intro hr
    obtain ⟨hs, rest, he, hh, rfl⟩ := hr
    cases hh with
    | @elementary word e hword =>
      have hopen : ¬ (c.peekKind? .openParen).isSome = true := by
        rw [Cursor.peekKind?_openParen, he]
        simp
      refine ⟨false, c, ⟨c.symbols, rfl, by rw [he]; simp, rfl⟩, ?_⟩
      rw [Bool.false_or, if_neg hopen]
      exact elementaryType_iff.mpr ⟨word, rest, e, he, hword, rfl, rfl⟩
    | @tuple ts ps hg =>
      obtain ⟨inner, hts, -⟩ := hg.closed_inside
      have hopen : (c.peekKind? .openParen).isSome = true := by
        rw [Cursor.peekKind?_openParen, he, hts]
        rfl
      refine ⟨false, c, ⟨c.symbols, rfl, by rw [he, hts]; simp, rfl⟩, ?_⟩
      rw [Bool.false_or, if_pos hopen]
      exact map_iff.mpr ⟨ps, (groupOf_iff hone h hb).mpr ⟨_, rest, he, hg, rfl⟩, rfl⟩
    | @wordedTuple ts ps hg =>
      obtain ⟨inner, hts, -⟩ := hg.closed_inside
      have hs : c.symbols = [.keyword "tuple"] ++ (ts ++ rest) := he
      obtain ⟨items', h', hw⟩ := h.advance_closed (.leaf rfl .nil) hs
      refine ⟨true, c.advance 1, ⟨ts ++ rest, hs, by rw [hts]; simp, rfl⟩, ?_⟩
      rw [Bool.true_or, if_pos rfl, map_iff]
      refine ⟨ps, (groupOf_iff hone h' (hw.trans hb)).mpr ⟨ts, rest, ?_, hg, ?_⟩, rfl⟩
      · exact Cursor.symbols_advance_of_eq hs
      · rw [List.length_singleton, Cursor.advance_advance, List.length_cons, Nat.add_comm]

/-- What follows the head of a parameter runs to the end. -/
theorem parameterWith_iff {one : Reader Param} {indexable : Bool} {bound depth : Nat}
    {items : List Item} (hone : one.Accepts false bound) (h : c.Holds depth items)
    (hb : widths items ≤ bound) {p : Param} :
    (∃ c', Reads (Reader.parameterWith (Reader.groupOf one) indexable) c p c') ↔
      Grammar.Parameter indexable c.symbols p := by
  have hident (w : String) (hm : .identifier w ∈ c.symbols) : isIdentifier w = true := by
    have hl : (Symbol.identifier w).Lexical := h.lexical rfl hm
    exact hl.2
  rw [Reader.parameterWith]
  refine ⟨?_, ?_⟩
  · intro hr
    obtain ⟨c', hr⟩ := hr
    -- each reader leaves a cursor at the rest that the next one divides
    obtain ⟨type, c₁, htype, hr⟩ := bind_iff.mp hr
    obtain ⟨hs, r₁, h₁, hhead, rfl⟩ := (headWith_iff hone h hb).mp htype
    replace htype := Cursor.symbols_advance_of_eq h₁
    generalize c.advance hs.length = c₁ at hr htype
    obtain ⟨lengths, c₂, hlengths, hr⟩ := bind_iff.mp hr
    obtain ⟨r₂, h₂, -, rfl⟩ := arrayLengths_iff.mp hlengths
    replace hlengths := Cursor.symbols_advance_of_map_eq h₂
    generalize c₁.advance lengths.length = c₂ at hr hlengths
    obtain ⟨flag, c₃, hflag, hr⟩ := bind_iff.mp hr
    obtain ⟨words, r₃, h₃, hwords, -, hallowed, rfl, rfl⟩ := indexedFlag_iff.mp hflag
    replace hflag := Cursor.symbols_advance_of_map_eq h₃
    generalize c₂.advance words.length = c₃ at hr hflag
    obtain rfl : r₁ = lengths.map .bracket ++ r₂ := htype.symm.trans h₂
    obtain rfl : r₂ = words.map .keyword ++ r₃ := hlengths.symm.trans h₃
    obtain ⟨name, c₄, hname, hr⟩ := bind_iff.mp hr
    have hi : ∀ w, .identifier w ∈ c₃.symbols → isIdentifier w = true := by
      intro w hm
      apply hident w
      rw [h₁]
      simp [← hflag, hm]
    obtain ⟨ns, r₄, h₄, hnamed, -, rfl⟩ := (optionalName_iff hi).mp hname
    replace hname := Cursor.symbols_advance_of_eq h₄
    obtain ⟨u, c₅, hend, hr⟩ := bind_iff.mp hr
    obtain ⟨hnil, rfl⟩ := endOfInput_iff.mp hend
    obtain ⟨rfl, -⟩ := pure_iff.mp hr
    obtain rfl : r₄ = [] := hname.symm.trans hnil
    obtain rfl : r₃ = ns ++ [] := hflag.symm.trans h₄
    rw [h₁, List.append_nil, ← List.append_assoc, ← List.append_assoc]
    exact .mk lengths hhead (.mk hwords hallowed) hnamed
  · intro hp
    generalize hc : c.symbols = ss at hp
    cases hp with
    | @mk _ hs ms ns type flag name lengths hhead hmodifiers hnamed =>
    cases hmodifiers with
    | @mk words hwords hallowed =>
    rw [List.append_assoc, List.append_assoc] at hc
    have h₁ := Cursor.symbols_advance_of_eq hc
    have h₂ := Cursor.symbols_advance_of_map_eq h₁
    have h₃ := Cursor.symbols_advance_of_map_eq h₂
    -- each part ends where the next begins: a name is no modifier, and neither is a bracket
    have hname : ∀ w, ns.head? ≠ some (.keyword w) := by
      intro w hw
      obtain ⟨n, -, hn⟩ := hnamed.head?_eq_some hw
      cases hn
    have hrest : ∀ n, (words.map Symbol.keyword ++ ns).head? ≠ some (.bracket n) := by
      intro n hn
      cases words with
      | nil =>
        obtain ⟨m, -, hm⟩ := hnamed.head?_eq_some hn
        cases hm
      | cons => cases hn
    refine ⟨(((c.advance hs.length).advance lengths.length).advance words.length).advance ns.length,
      ?_⟩
    refine bind_iff.mpr ⟨type, _, (headWith_iff hone h hb).mpr ⟨hs, _, hc, hhead, rfl⟩, ?_⟩
    refine bind_iff.mpr ⟨lengths, _, arrayLengths_iff.mpr ⟨_, h₁, hrest, rfl⟩, ?_⟩
    refine bind_iff.mpr ⟨_, _, indexedFlag_iff.mpr
      ⟨words, ns, h₂, hwords, fun w hw => absurd hw (hname w), hallowed, rfl, rfl⟩, ?_⟩
    refine bind_iff.mpr ⟨name, _, (optionalName_iff ?_).mpr
      ⟨ns, [], by rw [h₃, List.append_nil], hnamed, by simp, rfl⟩, ?_⟩
    · intro w hm
      apply hident w
      rw [hc]
      simp [← h₃, hm]
    refine bind_iff.mpr ⟨⟨⟩, _, endOfInput_iff.mpr ⟨?_, rfl⟩, pure_iff.mpr ⟨rfl, rfl⟩⟩
    rw [Cursor.symbols_advance, h₃, List.drop_length]

/-- Groups are read as deep as there is room for the symbols inside them. -/
theorem parameterWithin_accepts (n : Nat) (indexable : Bool) :
    (Reader.parameterWithin n indexable).Accepts indexable n := by
  induction n generalizing indexable with
  | zero =>
    intro depth items p _ _ hb
    exact absurd hb (Nat.not_lt_zero _)
  | succ n ih =>
    intro depth items p hc hp hb
    -- a group has two symbols more than its items have, so that there is room for these at `n`
    have h := Cursor.holds_ofItems hc hp depth
    rw [Reader.parameterWithin, parameterWith_iff (ih false) h (Nat.le_of_lt_succ hb), h.symbols]

theorem parameter_iff {indexable : Bool} {depth : Nat} {items : List Item}
    (h : c.Holds depth items) {p : Param} :
    (∃ c', Reads (Reader.parameter indexable) c p c') ↔
      Grammar.Parameter indexable c.symbols p := by
  have hb : widths items ≤ c.tokens.length := by
    obtain ⟨previous, hu⟩ := h.unread
    rw [← length_layout c.position depth previous items, ← hu, Cursor.unread, List.length_drop]
    exact Nat.sub_le _ _
  simp only [Reader.parameter, get_bind_iff]
  exact parameterWith_iff (parameterWithin_accepts c.tokens.length false) h hb

theorem parameter_accepts (indexable : Bool) (bound : Nat) :
    (Reader.parameter indexable).Accepts indexable bound := by
  intro depth items p hc hp _
  have h := Cursor.holds_ofItems hc hp depth
  rw [parameter_iff h, h.symbols]

theorem parameters_iff {indexable : Bool} {depth : Nat} {items : List Item}
    (h : c.Holds depth items) {ps : List Param} :
    Reads (Reader.parameters indexable) c ps c' ↔
      ∃ ts rest, c.symbols = ts ++ rest ∧ Grammar.Group indexable ts ps ∧
        c' = c.advance ts.length :=
  groupOf_iff (parameter_accepts indexable (widths items)) h (Nat.le_refl _)

end Reads

end ContractAbi
