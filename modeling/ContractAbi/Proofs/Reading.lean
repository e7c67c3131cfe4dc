import ContractAbi.Cursor.Clause
import ContractAbi.Proofs.Layout
import ContractAbi.Proofs.Numeral
import Mathlib.Data.List.TakeWhile

/-!
What readers accept. A reader is described by the symbols it takes from the front of those that are
left, what it makes of them, and what must not follow; the cursor moves past what was taken.
-/

namespace ContractAbi

namespace Token

theorem symbol_eq_keyword {t : Token} {w : String} :
    t.symbol = .keyword w ↔ t.kind = .keyword ∧ t.text = w := by
  unfold symbol Symbol.of
  cases t.kind <;> simp

theorem symbol_eq_type {t : Token} {w : String} :
    t.symbol = .type w ↔ t.kind = .type ∧ t.text = w := by
  unfold symbol Symbol.of
  cases t.kind <;> simp

theorem symbol_eq_identifier {t : Token} {w : String} :
    t.symbol = .identifier w ↔ t.kind = .identifier ∧ t.text = w := by
  unfold symbol Symbol.of
  cases t.kind <;> simp

theorem symbol_eq_number {t : Token} {w : String} :
    t.symbol = .number w ↔ t.kind = .number ∧ t.text = w := by
  unfold symbol Symbol.of
  cases t.kind <;> simp

theorem symbol_eq_bracket {t : Token} {n : Option UInt64} :
    t.symbol = .bracket n ↔ t.kind = .bracket ∧ t.value = n := by
  unfold symbol Symbol.of
  cases t.kind <;> simp

theorem symbol_eq_atSign {t : Token} : t.symbol = .atSign ↔ t.kind = .atSign := by
  unfold symbol Symbol.of
  cases t.kind <;> simp

theorem symbol_eq_openParen {t : Token} : t.symbol = .openParen ↔ t.kind = .openParen := by
  unfold symbol Symbol.of
  cases t.kind <;> simp

end Token

namespace Cursor

def advance (c : Cursor) (n : Nat) : Cursor := { c with position := c.position + n }

/-- The symbols still to be read. -/
def symbols (c : Cursor) : List Symbol := c.unread.map Token.symbol

theorem advance_advance (c : Cursor) (m n : Nat) :
    (c.advance m).advance n = c.advance (m + n) := by
  rw [advance, advance, advance, Nat.add_assoc]

theorem advance_append (c : Cursor) (xs ys : List Symbol) :
    c.advance (xs ++ ys).length = (c.advance xs.length).advance ys.length := by
  rw [List.length_append, advance_advance]

@[simp] theorem advance_zero (c : Cursor) : c.advance 0 = c := rfl

theorem unread_advance (c : Cursor) (n : Nat) : (c.advance n).unread = c.unread.drop n := by
  rw [unread, unread, List.drop_drop]
  rfl

theorem symbols_advance (c : Cursor) (n : Nat) : (c.advance n).symbols = c.symbols.drop n := by
  rw [symbols, unread_advance, List.map_drop, symbols]

theorem symbols_advance_of_eq {c : Cursor} {taken rest : List Symbol}
    (h : c.symbols = taken ++ rest) : (c.advance taken.length).symbols = rest := by
  rw [symbols_advance, h, List.drop_left]

theorem symbols_advance_of_map_eq {α : Type} {f : α → Symbol} {c : Cursor} {taken : List α}
    {rest : List Symbol} (h : c.symbols = taken.map f ++ rest) :
    (c.advance taken.length).symbols = rest := by
  rw [← List.length_map f]
  exact symbols_advance_of_eq h

theorem peek?_eq (c : Cursor) : c.peek? = c.unread.head? := by
  rw [peek?, unread, List.head?_drop]

theorem symbols_eq_cons {c : Cursor} {s : Symbol} {rest : List Symbol} :
    c.symbols = s :: rest ↔
      ∃ t, c.peek? = some t ∧ t.symbol = s ∧ (c.advance 1).symbols = rest := by
  rw [peek?_eq, symbols_advance, symbols, ← List.map_drop]
  cases c.unread <;> simp

theorem peekKind?_eq_some {c : Cursor} {kind : Token.Kind} {w : String} :
    c.peekKind? kind = some w ↔ ∃ t, c.peek? = some t ∧ t.kind = kind ∧ t.text = w := by
  cases h : c.peek? with
  | none => simp [peekKind?, h]
  | some t => simp [peekKind?, h, Option.filter_some]

theorem peekKind?_symbol {c : Cursor} {kind : Token.Kind} {f : String → Symbol} {w : String}
    (hf : ∀ t : Token, t.symbol = f w ↔ t.kind = kind ∧ t.text = w) :
    c.peekKind? kind = some w ↔ ∃ rest, c.symbols = f w :: rest := by
  simp only [peekKind?_eq_some, symbols_eq_cons, hf]
  constructor
  · rintro ⟨t, ht, hk⟩
    exact ⟨_, t, ht, hk, rfl⟩
  · rintro ⟨rest, t, ht, hk, -⟩
    exact ⟨t, ht, hk⟩

theorem peekKeyword?_eq_some {c : Cursor} {allowed : List String} {w : String} :
    c.peekKeyword? allowed = some w ↔ (∃ rest, c.symbols = .keyword w :: rest) ∧ w ∈ allowed := by
  rw [peekKeyword?, Option.filter_eq_some_iff, List.contains_iff_mem,
    peekKind?_symbol fun _ => Token.symbol_eq_keyword]

theorem head?_symbols (c : Cursor) : c.symbols.head? = c.peek?.map Token.symbol := by
  rw [symbols, List.head?_map, peek?_eq]

theorem peekKind?_atSign {c : Cursor} :
    (c.peekKind? .atSign).isNone = true ↔ c.symbols.head? ≠ some .atSign := by
  rw [head?_symbols]
  cases h : c.peek? with
  | none => simp [peekKind?, h]
  | some t => simp [peekKind?, h, Option.filter_some, Token.symbol_eq_atSign]

theorem peekKind?_openParen {c : Cursor} :
    (c.peekKind? .openParen).isSome = true ↔ c.symbols.head? = some .openParen := by
  rw [head?_symbols]
  cases h : c.peek? with
  | none => simp [peekKind?, h]
  | some t => simp [peekKind?, h, Option.filter_some, Token.symbol_eq_openParen]

end Cursor

/-- A reader takes something and leaves the cursor past it. -/
def Reads {α : Type} (r : Reader α) (c : Cursor) (a : α) (c' : Cursor) : Prop :=
  r.run c = .ok a c'

namespace Reads

variable {α β : Type} {c c' : Cursor} {a : α} {b : β}

theorem functional {r : Reader α} {a' : α} {c'' : Cursor} (h : Reads r c a c')
    (h' : Reads r c a' c'') : a = a' ∧ c' = c'' := by
  rw [Reads, h] at h'
  simpa using h'

@[simp] theorem pure_iff {a' : α} : Reads (pure a) c a' c' ↔ a' = a ∧ c' = c := by
  rw [Reads, EStateM.run_pure, EStateM.Result.ok.injEq, eq_comm, @eq_comm _ c']

theorem bind_iff {x : Reader α} {f : α → Reader β} :
    Reads (x >>= f) c b c' ↔ ∃ a d, Reads x c a d ∧ Reads (f a) d b c' := by
  rw [Reads, EStateM.run_bind]
  cases h : x.run c with
  | ok a d =>
    constructor
    · intro hf
      exact ⟨a, d, h, hf⟩
    · rintro ⟨a', d', hx, hf⟩
      obtain ⟨rfl, rfl⟩ := functional h hx
      exact hf
  | error e d => simp [Reads, h]

@[simp] theorem map_iff {x : Reader α} {f : α → β} :
    Reads (f <$> x) c b c' ↔ ∃ a, Reads x c a c' ∧ b = f a := by
  rw [map_eq_pure_bind, bind_iff]
  constructor
  · rintro ⟨a, d, hx, hp⟩
    obtain ⟨rfl, rfl⟩ := pure_iff.mp hp
    exact ⟨a, hx, rfl⟩
  · rintro ⟨a, hx, rfl⟩
    exact ⟨a, c', hx, pure_iff.mpr ⟨rfl, rfl⟩⟩

@[simp] theorem get_bind_iff {f : Cursor → Reader β} :
    Reads (get >>= f) c b c' ↔ Reads (f c) c b c' := Iff.rfl

@[simp] theorem set_bind_iff {d : Cursor} {f : PUnit → Reader β} :
    Reads (set d >>= f) c b c' ↔ Reads (f ⟨⟩) d b c' := Iff.rfl

@[simp] theorem throw_iff {e : Error} : ¬ Reads (throw e : Reader α) c a c' := by
  intro h
  cases h

@[simp] theorem throw_bind_iff {e : Error} {f : α → Reader β} :
    ¬ Reads ((throw e : Reader α) >>= f) c b c' := by
  intro h
  cases h

@[simp] theorem fail_iff {fault : GrammarFault} {offset : Option Nat} :
    ¬ Reads (Reader.fail fault offset : Reader α) c a c' := throw_iff

@[simp] theorem fail_bind_iff {fault : GrammarFault} {offset : Option Nat} {f : α → Reader β} :
    ¬ Reads ((Reader.fail fault offset : Reader α) >>= f) c b c' := throw_bind_iff

@[simp] theorem skip_bind_iff {n : Nat} {f : Unit → Reader β} :
    Reads (Reader.skip n >>= f) c b c' ↔ Reads (f ()) (c.advance n) b c' := Iff.rfl

@[simp] theorem skip_pure_iff {n : Nat} {a' : α} :
    Reads (do Reader.skip n; pure a) c a' c' ↔ a' = a ∧ c' = c.advance n :=
  skip_bind_iff.trans pure_iff

@[simp] theorem liftExcept_iff {x : Except Error α} :
    Reads (Reader.liftExcept x) c a c' ↔ x = .ok a ∧ c' = c := by
  cases x with
  | ok b =>
    rw [Reader.liftExcept, pure_iff, Except.ok.injEq, @eq_comm _ a]
  | error e => simp [Reader.liftExcept]

@[simp] theorem within_iff {r : Reader α} {d : Cursor} :
    Reads (Reader.within d r) c a c' ↔ (∃ d', Reads r d a d') ∧ c' = c := by
  cases h : r.run d with
  | ok b d' =>
    rw [Reader.within, h, pure_iff]
    constructor
    · rintro ⟨rfl, hc⟩
      exact ⟨⟨d', h⟩, hc⟩
    · rintro ⟨⟨d'', hr⟩, hc⟩
      exact ⟨(functional h hr).1.symm, hc⟩
  | error e d' =>
    rw [Reader.within, h]
    constructor
    · intro ht
      exact absurd ht throw_iff
    · rintro ⟨⟨d'', hr⟩, -⟩
      rw [Reads, h] at hr
      cases hr

theorem peek_iff {t : Token} : Reads Reader.peek c t c' ↔ c.peek? = some t ∧ c' = c := by
  rw [Reader.peek, get_bind_iff]
  cases h : c.peek? with
  | none => simp
  | some u => simp [@eq_comm _ t]

theorem peek_bind_iff {f : Token → Reader β} :
    Reads (Reader.peek >>= f) c b c' ↔ ∃ t, c.peek? = some t ∧ Reads (f t) c b c' := by
  rw [bind_iff]
  constructor
  · rintro ⟨t, d, ht, hr⟩
    obtain ⟨ht, rfl⟩ := peek_iff.mp ht
    exact ⟨t, ht, hr⟩
  · rintro ⟨t, ht, hr⟩
    exact ⟨t, c, peek_iff.mpr ⟨ht, rfl⟩, hr⟩

theorem pop_bind_iff {f : Token → Reader β} :
    Reads (Reader.pop >>= f) c b c' ↔ ∃ t, c.peek? = some t ∧ Reads (f t) (c.advance 1) b c' := by
  rw [Reader.pop, bind_assoc, peek_bind_iff]
  rfl

theorem popKind_iff {kind : Token.Kind} {w : String} :
    Reads (Reader.popKind kind) c w c' ↔
      ∃ t, c.peek? = some t ∧ t.kind = kind ∧ t.text = w ∧ c' = c.advance 1 := by
  rw [Reader.popKind, peek_bind_iff]
  constructor
  · rintro ⟨t, ht, hr⟩
    split at hr
    next hk =>
      obtain ⟨rfl, hc⟩ := skip_pure_iff.mp hr
      exact ⟨t, ht, hk, rfl, hc⟩
    next => exact absurd hr fail_iff
  · rintro ⟨t, ht, hk, rfl, rfl⟩
    refine ⟨t, ht, ?_⟩
    rw [if_pos hk]
    exact pure_iff.mpr ⟨rfl, rfl⟩

theorem popKind_symbol_iff {kind : Token.Kind} {f : String → Symbol} {w : String}
    (hf : ∀ t : Token, t.symbol = f w ↔ t.kind = kind ∧ t.text = w) :
    Reads (Reader.popKind kind) c w c' ↔ ∃ rest, c.symbols = f w :: rest ∧ c' = c.advance 1 := by
  simp only [popKind_iff, Cursor.symbols_eq_cons, hf]
  constructor
  · rintro ⟨t, ht, hk, hw, hc⟩
    exact ⟨_, ⟨t, ht, ⟨hk, hw⟩, rfl⟩, hc⟩
  · rintro ⟨rest, ⟨t, ht, ⟨hk, hw⟩, -⟩, hc⟩
    exact ⟨t, ht, hk, hw, hc⟩

theorem popType_iff {w : String} :
    Reads (Reader.popKind .type) c w c' ↔
      ∃ rest, c.symbols = .type w :: rest ∧ c' = c.advance 1 :=
  popKind_symbol_iff fun _ => Token.symbol_eq_type

theorem popIdentifier_iff {w : String} :
    Reads (Reader.popKind .identifier) c w c' ↔
      ∃ rest, c.symbols = .identifier w :: rest ∧ c' = c.advance 1 :=
  popKind_symbol_iff fun _ => Token.symbol_eq_identifier

theorem popKeyword_iff {allowed : List String} {w : String} :
    Reads (Reader.popKeyword allowed) c w c' ↔
      ∃ rest, c.symbols = .keyword w :: rest ∧ w ∈ allowed ∧ c' = c.advance 1 := by
  rw [Reader.popKeyword, peek_bind_iff]
  simp only [Cursor.symbols_eq_cons, Token.symbol_eq_keyword]
  constructor
  · rintro ⟨t, ht, hr⟩
    split at hr
    next hk =>
      obtain ⟨rfl, hc⟩ := skip_pure_iff.mp hr
      exact ⟨_, ⟨t, ht, ⟨hk.1, rfl⟩, rfl⟩, List.contains_iff_mem.mp hk.2, hc⟩
    next => exact absurd hr fail_iff
  · rintro ⟨rest, ⟨t, ht, ⟨hk, rfl⟩, -⟩, hw, rfl⟩
    refine ⟨t, ht, ?_⟩
    rw [if_pos ⟨hk, List.contains_iff_mem.mpr hw⟩]
    exact pure_iff.mpr ⟨rfl, rfl⟩

theorem endOfInput_iff {u : Unit} :
    Reads Reader.endOfInput c u c' ↔ c.symbols = [] ∧ c' = c := by
  rw [Reader.endOfInput, get_bind_iff, Cursor.symbols]
  cases h : c.unread <;> simp

end Reads

theorem map_eq_of_map_symbol_eq {α : Type} {f : α → Symbol} {g : Token → α}
    (hg : ∀ t a, t.symbol = f a → g t = a) {ts : List Token} {as : List α}
    (h : ts.map Token.symbol = as.map f) : ts.map g = as := by
  induction ts generalizing as with
  | nil => simpa using h.symm
  | cons t ts ih =>
    obtain ⟨a, as, rfl, ht, hts⟩ := List.map_eq_cons_iff.mp h.symm
    rw [List.map_cons, hg t a ht.symm, ih hts.symm]

/-- The tokens that a loop takes, as the symbols that stand for them. -/
theorem map_takeWhile_eq_iff {α : Type} (Q : α → Prop) {p : Token → Bool} {f : α → Symbol}
    {g : Token → α} (hp : ∀ t, p t = true ↔ Q (g t) ∧ t.symbol = f (g t))
    (hg : ∀ t a, t.symbol = f a → g t = a) (ts : List Token) (as : List α) :
    (ts.takeWhile p).map g = as ↔
      ∃ rest, ts.map Token.symbol = as.map f ++ rest ∧ (∀ a ∈ as, Q a) ∧
        ∀ a, rest.head? = some (f a) → ¬ Q a := by
  constructor
  · rintro rfl
    refine ⟨(ts.dropWhile p).map Token.symbol, ?_, ?_, ?_⟩
    · have hm : ((ts.takeWhile p).map g).map f = (ts.takeWhile p).map Token.symbol := by
        rw [List.map_map]
        apply List.map_congr_left
        intro t ht
        exact ((hp t).mp (List.mem_takeWhile_imp ht)).2.symm
      rw [hm, ← List.map_append, List.takeWhile_append_dropWhile]
    · intro a ha
      obtain ⟨t, ht, rfl⟩ := List.mem_map.mp ha
      exact ((hp t).mp (List.mem_takeWhile_imp ht)).1
    · intro a ha hq
      rw [List.head?_map, Option.map_eq_some_iff] at ha
      obtain ⟨t, ht, hs⟩ := ha
      have hn := List.head?_dropWhile_not p ts
      rw [ht] at hn
      have hgt := hg t a hs
      have : p t = true := (hp t).mpr ⟨hgt ▸ hq, hgt ▸ hs⟩
      simp [this] at hn
  · rintro ⟨rest, hts, hq, hrest⟩
    obtain ⟨us, vs, rfl, hus, rfl⟩ := List.map_eq_append_iff.mp hts
    have hall : ∀ u ∈ us, p u = true := by
      intro u hu
      have hm : u.symbol ∈ as.map f := hus ▸ List.mem_map_of_mem hu
      obtain ⟨a, ha, hs⟩ := List.mem_map.mp hm
      have hgu := hg u a hs.symm
      exact (hp u).mpr ⟨hgu ▸ hq a ha, hgu ▸ hs.symm⟩
    -- the loop stops where the rest begins, since that begins with nothing the loop would take
    have hstop : vs.takeWhile p = [] := by
      cases vs with
      | nil => rfl
      | cons v vs =>
        apply List.takeWhile_cons_of_neg
        intro hv
        obtain ⟨hqv, hs⟩ := (hp v).mp hv
        exact hrest (g v) (congrArg some hs) hqv
    rw [List.takeWhile_append_of_pos hall, hstop, List.append_nil]
    exact map_eq_of_map_symbol_eq hg hus

namespace Reads

variable {c c' : Cursor}

theorem distinct_iff {seen : List String} {ts : List Token} {words : List String} :
    Reads (Reader.distinct seen ts) c words c' ↔
      words = seen.reverse ++ ts.map Token.text ∧ (ts.map Token.text).Nodup ∧
        (∀ w ∈ ts.map Token.text, w ∉ seen) ∧ c' = c.advance ts.length := by
  induction ts generalizing seen c with
  | nil => simp [Reader.distinct]
  | cons t ts ih =>
    rw [Reader.distinct, skip_bind_iff]
    by_cases ht : t.text ∈ seen
    · simp [ht]
    · rw [if_neg (by simpa using ht), ih, Cursor.advance_advance, Nat.add_comm 1]
      simp only [List.map_cons, List.nodup_cons, List.length_cons, List.mem_cons, forall_eq_or_imp,
        not_or, List.reverse_cons, List.append_assoc, List.singleton_append]
      constructor
      · rintro ⟨hw, hn, hs, hc⟩
        exact ⟨hw, ⟨fun hm => (hs _ hm).1 rfl, hn⟩, ⟨ht, fun w hm => (hs w hm).2⟩, hc⟩
      · rintro ⟨hw, ⟨hm, hn⟩, ⟨-, hs⟩, hc⟩
        exact ⟨hw, hn, fun w hw => ⟨fun h => hm (h ▸ hw), hs w hw⟩, hc⟩

/-- Keywords are taken as long as they are allowed, and none may come twice. -/
theorem keywords_iff {allowed words : List String} :
    Reads (Reader.keywords allowed) c words c' ↔
      ∃ rest, c.symbols = words.map .keyword ++ rest ∧ (∀ w ∈ words, w ∈ allowed) ∧
        (∀ w, rest.head? = some (.keyword w) → w ∉ allowed) ∧ words.Nodup ∧
        c' = c.advance words.length := by
  have hkeyword (t : Token) : (t.kind == .keyword && allowed.contains t.text) = true ↔
      t.text ∈ allowed ∧ t.symbol = .keyword t.text := by
    simp [Token.symbol_eq_keyword, and_comm]
  have htake := map_takeWhile_eq_iff (· ∈ allowed) hkeyword
    (fun t w h => (Token.symbol_eq_keyword.mp h).2) c.unread words
  rw [Reader.keywords, get_bind_iff, distinct_iff]
  simp only [List.reverse_nil, List.nil_append, List.not_mem_nil, not_false_eq_true,
    implies_true, true_and]
  constructor
  · rintro ⟨hw, hn, hc⟩
    obtain ⟨rest, hs, ha, hr⟩ := htake.mp hw.symm
    rw [← hw] at hn
    rw [← List.length_map Token.text, ← hw] at hc
    exact ⟨rest, hs, ha, hr, hn, hc⟩
  · rintro ⟨rest, hs, ha, hr, hn, hc⟩
    have hw := htake.mpr ⟨rest, hs, ha, hr⟩
    rw [← List.length_map Token.text, hw]
    exact ⟨rfl, hn, hc⟩

/-- What a keyword takes that may be there or not. -/
def optionalKeyword (word : String) (found : Bool) : List Symbol :=
  if found then [.keyword word] else []

theorem optionalKeyword_true (word : String) : optionalKeyword word true = [.keyword word] := rfl

theorem optionalKeyword_false (word : String) : optionalKeyword word false = [] := rfl

theorem keyword?_iff {word : String} {found : Bool} :
    Reads (Reader.keyword? word) c found c' ↔
      ∃ rest, c.symbols = optionalKeyword word found ++ rest ∧
        rest.head? ≠ some (.keyword word) ∧
        c' = c.advance (optionalKeyword word found).length := by
  rw [Reader.keyword?, bind_iff]
  simp only [keywords_iff, pure_iff, List.mem_singleton]
  refine ⟨?_, ?_⟩
  · intro h
    obtain ⟨words, d, ⟨rest, hs, ha, hr, hn, rfl⟩, rfl, rfl⟩ := h
    have hstop : rest.head? ≠ some (.keyword word) := fun h => hr word h rfl
    obtain rfl | rfl : words = [] ∨ words = [word] := by
      match words, ha, hn with
      | [], _, _ => exact .inl rfl
      | [w], ha, _ => exact .inr (by rw [ha w (by simp)])
      | u :: v :: ws, ha, hn =>
        rw [ha u (by simp), ha v (by simp)] at hn
        simp at hn
    · exact ⟨rest, hs, hstop, rfl⟩
    · rw [List.contains_cons, BEq.rfl, Bool.true_or]
      exact ⟨rest, hs, hstop, rfl⟩
  · intro h
    obtain ⟨rest, hs, hr, rfl⟩ := h
    have hstop : ∀ w, rest.head? = some (.keyword w) → ¬ w = word := by
      intro w hw he
      exact hr (he ▸ hw)
    cases found with
    | false => exact ⟨[], _, ⟨rest, hs, by simp, hstop, .nil, rfl⟩, rfl, rfl⟩
    | true => exact ⟨[word], _, ⟨rest, hs, by simp, hstop, by simp, rfl⟩, by simp, rfl⟩

/-- Numbers of digits alone, which are all that a text has, are read at their decimal value. -/
theorem gas_iff {g : Option Nat}
    (hd : ∀ w, .number w ∈ c.symbols → (Text.decimal? w.toList).isSome) :
    Reads Reader.gas c g c' ↔
      (g = none ∧ c.symbols.head? ≠ some .atSign ∧ c' = c) ∨
      ∃ n w rest, g = some n ∧ c.symbols = .atSign :: .number w :: rest ∧
        Text.decimal? w.toList = some n ∧ c' = c.advance 2 := by
  rw [Reader.gas, get_bind_iff]
  by_cases ha : c.symbols.head? = some .atSign
  · obtain ⟨rest, hs⟩ := List.head?_eq_some_iff.mp ha
    obtain ⟨t, ht, -, hrest⟩ := Cursor.symbols_eq_cons.mp hs
    have hnone : ¬ (c.peekKind? .atSign).isNone = true := fun h => Cursor.peekKind?_atSign.mp h ha
    rw [if_neg hnone, pop_bind_iff]
    simp only [ht, Option.some.injEq, exists_eq_left', get_bind_iff, ha, ne_eq, not_true_eq_false,
      false_and, and_false, false_or]
    constructor
    · intro hr
      split at hr
      next n hn =>
        -- the reader knows dividers and a sign as well, of which a number of a text has none
        obtain ⟨w, hw, hg⟩ := Option.bind_eq_some_iff.mp hn
        obtain ⟨rest', hs'⟩ := (Cursor.peekKind?_symbol fun _ => Token.symbol_eq_number).mp hw
        obtain ⟨rfl, rfl⟩ := skip_pure_iff.mp hr
        rw [hrest] at hs'
        obtain ⟨m, hm⟩ := Option.isSome_iff_exists.mp (hd w (by simp [hs, hs']))
        obtain rfl : n = m := by simpa [hg] using Text.grouped?_of_decimal? hm
        exact ⟨n, w, rest', rfl, by rw [hs, hs'], hm, Cursor.advance_advance c 1 1⟩
      next => exact absurd hr fail_iff
    · rintro ⟨n, w, rest', rfl, hs', hn, rfl⟩
      have hw : (c.advance 1).peekKind? .number = some w := by
        rw [Cursor.peekKind?_symbol fun _ => Token.symbol_eq_number, hrest]
        rw [hs] at hs'
        exact ⟨rest', (List.cons.inj hs').2⟩
      rw [hw, Option.bind_some, Text.grouped?_of_decimal? hn]
      exact skip_pure_iff.mpr ⟨rfl, (Cursor.advance_advance c 1 1).symm⟩
  · rw [if_pos (Cursor.peekKind?_atSign.mpr ha), pure_iff]
    constructor
    · rintro ⟨rfl, rfl⟩
      exact .inl ⟨rfl, ha, rfl⟩
    · rintro (⟨rfl, -, rfl⟩ | ⟨n, w, rest, -, hs, -⟩)
      · exact ⟨rfl, rfl⟩
      · exact absurd (by rw [hs, List.head?_cons]) ha

/-- The declared name, after the word that opens the declaration or without it. -/
theorem declaredName_iff {opening name : String} :
    Reads (Reader.declaredName opening) c name c' ↔
      (∃ rest, c.symbols = .keyword opening :: .identifier name :: rest ∧
        opening ∈ Keyword.declarations ∧ c' = c.advance 2) ∨
      ∃ rest, c.symbols = .identifier name :: rest ∧ c' = c.advance 1 := by
  rw [Reader.declaredName, get_bind_iff]
  cases hw : c.peekKeyword? Keyword.declarations with
  | none =>
    have hno : ∀ w rest, c.symbols = .keyword w :: rest → w ∉ Keyword.declarations := by
      intro w rest hs hm
      rw [Cursor.peekKeyword?_eq_some.mpr ⟨⟨rest, hs⟩, hm⟩] at hw
      cases hw
    change Reads (Reader.popKind .identifier) c name c' ↔ _
    rw [popIdentifier_iff]
    constructor
    · exact .inr
    · rintro (⟨rest, hs, hm, -⟩ | h)
      · exact absurd hm (hno _ _ hs)
      · exact h
  | some word =>
    obtain ⟨⟨rest, hs⟩, hm⟩ := Cursor.peekKeyword?_eq_some.mp hw
    have hrest : (c.advance 1).symbols = rest := by rw [Cursor.symbols_advance, hs]; rfl
    dsimp only
    split
    next he =>
      subst he
      rw [skip_bind_iff, popIdentifier_iff, hrest, Cursor.advance_advance]
      constructor
      · rintro ⟨rest', hs', hc⟩
        exact .inl ⟨rest', by rw [hs, hs'], hm, hc⟩
      · rintro (⟨rest', hs', -, hc⟩ | ⟨rest', hs', -⟩)
        · exact ⟨rest', (List.cons.inj (hs.symm.trans hs')).2, hc⟩
        · rw [hs] at hs'
          cases (List.cons.inj hs').1
    next he =>
      rw [bind_iff]
      constructor
      · rintro ⟨u, d, hu, -⟩
        exact absurd hu fail_iff
      · rintro (⟨rest', hs', -⟩ | ⟨rest', hs', -⟩)
        · rw [hs] at hs'
          exact absurd (by simpa using (List.cons.inj hs').1) he
        · rw [hs] at hs'
          cases (List.cons.inj hs').1

theorem atMostOne_iff {group words : List String} {offset : Option Nat} {u : Unit} :
    Reads (Reader.atMostOne group words offset) c u c' ↔
      (group.filter words.contains).length ≤ 1 ∧ c' = c := by
  rw [Reader.atMostOne]
  by_cases h : 1 < (group.filter words.contains).length
  · rw [if_pos h]
    exact iff_of_false fail_iff fun hc => absurd h (Nat.not_lt.mpr hc.1)
  · rw [if_neg h, pure_iff]
    exact and_congr_left' (iff_of_true rfl (Nat.not_lt.mp h))

end Reads

end ContractAbi
