import ContractAbi.Proofs.JsonText
import Mathlib.Data.List.Forall2

/-!
The grammar of JSON, and what it has to do with the readers of strings and of numbers. A reader is
first shown to take what the grammar has for a part of a text, whatever may follow it, and then to
take nothing else.
-/

namespace ContractAbi.Json

def Spaces (cs : List Char) : Prop := ∀ c ∈ cs, isSpace c = true

def Digits (cs : List Char) : Prop := cs ≠ [] ∧ ∀ c ∈ cs, c.isDigit = true

/-- What stands for a character of a string, or for half of one. -/
inductive Unit16.WrittenAs : Unit16 → List Char → Prop where
  | plain {c : Char} (hc : 0x20 ≤ c.toNat) (hq : c ≠ '"') (hb : c ≠ '\\') :
      WrittenAs (.char c) [c]
  | escape {e c : Char} (h : simpleEscape? e = some c) : WrittenAs (.char c) ['\\', e]
  | code {a b c d : Char} {n : Nat} (h : hex4? a b c d = some n) :
      WrittenAs (.ofNat n) ['\\', 'u', a, b, c, d]

/-- What stands between the quotes of a string, which is `none` if it has an unpaired half. -/
def StringWrittenAs (s : Option String) (cs : List Char) : Prop :=
  ∃ units parts, List.Forall₂ Unit16.WrittenAs units parts ∧ cs = parts.flatten ∧
    s = (joinUnits units).map String.ofList

inductive FractionWrittenAs : List Char → List Char → Prop where
  | omitted : FractionWrittenAs [] []
  | stated {digits : List Char} (h : Digits digits) : FractionWrittenAs digits ('.' :: digits)

def signed (negative : Bool) (n : Nat) : Int := if negative then -n else n

inductive SignWrittenAs : (negative : Bool) → List Char → Prop where
  | omitted : SignWrittenAs false []
  | plus : SignWrittenAs false ['+']
  | minus : SignWrittenAs true ['-']

inductive ExponentWrittenAs : Option Int → List Char → Prop where
  | omitted : ExponentWrittenAs none []
  | stated {c : Char} {negative : Bool} {sign digits : List Char} (hc : c = 'e' ∨ c = 'E')
      (hs : SignWrittenAs negative sign) (hd : Digits digits) :
      ExponentWrittenAs (some (signed negative (Nat.ofDigitChars 10 digits 0)))
        (c :: sign ++ digits)

inductive Literal.WrittenAs : Literal → List Char → Prop where
  | mk {whole fraction point power : List Char} {exponent : Option Int} (negative : Bool)
      (hw : Digits whole) (hz : whole.head? = some '0' → whole = ['0'])
      (hf : FractionWrittenAs fraction point) (he : ExponentWrittenAs exponent power) :
      WrittenAs ⟨negative, whole, fraction, exponent⟩
        ((if negative then ['-'] else []) ++ whole ++ point ++ power)

/-- One thing or more, with commas between them, and spaces around each. -/
inductive ListWrittenAs {α : Type} (WrittenAs : α → List Char → Prop) :
    List α → List Char → Prop where
  | last {x : α} {before cs after : List Char} (hb : Spaces before) (h : WrittenAs x cs)
      (ha : Spaces after) : ListWrittenAs WrittenAs [x] (before ++ cs ++ after)
  | cons {x : α} {xs : List α} {before cs after more : List Char} (hb : Spaces before)
      (h : WrittenAs x cs) (ha : Spaces after) (hs : ListWrittenAs WrittenAs xs more) :
      ListWrittenAs WrittenAs (x :: xs) (before ++ cs ++ after ++ ',' :: more)

mutual

inductive Source.WrittenAs : Source → List Char → Prop where
  | null : WrittenAs .null "null".toList
  | isTrue : WrittenAs (.bool true) "true".toList
  | isFalse : WrittenAs (.bool false) "false".toList
  | num {l : Literal} {cs : List Char} (h : l.WrittenAs cs) : WrittenAs (.num l.number?) cs
  | str {s : Option String} {cs : List Char} (h : StringWrittenAs s cs) :
      WrittenAs (.str s) ('"' :: cs ++ ['"'])
  | noItems {cs : List Char} (h : Spaces cs) : WrittenAs (.arr []) ('[' :: cs ++ [']'])
  | items {items : List Source} {cs : List Char} (h : ListWrittenAs Source.WrittenAs items cs) :
      WrittenAs (.arr items) ('[' :: cs ++ [']'])
  | noMembers {cs : List Char} (h : Spaces cs) :
      WrittenAs (.obj []) ('\x7b' :: cs ++ ['\x7d'])
  | members {members : List (Option String × Source)} {cs : List Char}
      (h : ListWrittenAs Source.MemberWrittenAs members cs) :
      WrittenAs (.obj members) ('\x7b' :: cs ++ ['\x7d'])

inductive Source.MemberWrittenAs : Option String × Source → List Char → Prop where
  | mk {key : Option String} {s : Source} {ks before after cs : List Char}
      (hk : StringWrittenAs key ks) (hb : Spaces before) (ha : Spaces after)
      (hs : s.WrittenAs cs) :
      MemberWrittenAs (key, s) ('"' :: ks ++ '"' :: before ++ ':' :: after ++ cs)

end

/-- A text is the value, with spaces around it. -/
def Source.TextIs (s : Source) (text : String) : Prop :=
  ∃ before cs after, text.toList = before ++ cs ++ after ∧ Spaces before ∧ s.WrittenAs cs ∧
    Spaces after

section Strings

variable {cs rest : List Char} {units : List Unit16} {s : Option String}

theorem readUnits?_writtenAs {u : Unit16} (h : u.WrittenAs cs) (rest : List Char) :
    readUnits? (cs ++ rest) = (readUnits? rest).map fun r => (u :: r.1, r.2) := by
  cases h with
  | plain hc hq hb => exact readUnits?_self hc hq hb
  | escape h =>
    refine readUnits?_simple h ?_
    rintro rfl
    cases h
  | code h =>
    change readUnits? ('\\' :: 'u' :: _ :: _ :: _ :: _ :: rest) = _
    rw [readUnits?, h, Option.map_eq_bind]
    rfl

theorem readUnits?_flatten {parts : List (List Char)}
    (h : List.Forall₂ Unit16.WrittenAs units parts) (rest : List Char) :
    readUnits? (parts.flatten ++ '"' :: rest) = some (units, rest) := by
  induction h with
  | nil => rfl
  | cons hu _ ih => rw [List.flatten_cons, List.append_assoc, readUnits?_writtenAs hu, ih]; rfl

theorem exists_of_readUnits? (h : readUnits? cs = some (units, rest)) :
    ∃ parts, List.Forall₂ Unit16.WrittenAs units parts ∧ cs = parts.flatten ++ '"' :: rest := by
  fun_induction readUnits? cs generalizing units with
  | case1 => cases h
  | case2 rest =>
    cases h
    exact ⟨[], .nil, rfl⟩
  | case3 a b c d tail ih =>
    obtain ⟨n, hn, h⟩ := Option.bind_eq_some_iff.mp h
    obtain ⟨⟨us, more⟩, hu, h⟩ := Option.bind_eq_some_iff.mp h
    cases h
    obtain ⟨parts, hp, rfl⟩ := ih hu
    exact ⟨_, .cons (.code hn) hp, rfl⟩
  | case4 e tail _ ih =>
    obtain ⟨c, hc, h⟩ := Option.bind_eq_some_iff.mp h
    obtain ⟨⟨us, more⟩, hu, h⟩ := Option.bind_eq_some_iff.mp h
    cases h
    obtain ⟨parts, hp, rfl⟩ := ih hu
    exact ⟨_, .cons (.escape hc) hp, rfl⟩
  | case5 => cases h
  | case6 c tail hq _ hb _ hc =>
    rename_i ih
    obtain ⟨⟨us, more⟩, hu, h⟩ := Option.bind_eq_some_iff.mp h
    cases h
    obtain ⟨parts, hp, rfl⟩ := ih hu
    have hback : c ≠ '\\' := by
      rintro rfl
      -- something stands after it, if only the quote at the end
      cases hparts : parts.flatten ++ '"' :: rest with
      | nil => simp at hparts
      | cons e more => exact hb e more rfl hparts
    exact ⟨_, .cons (.plain (by omega) hq hback) hp, rfl⟩

theorem readText?_writtenAs (h : StringWrittenAs s cs) (rest : List Char) :
    readText? (cs ++ '"' :: rest) = some (s, rest) := by
  obtain ⟨units, parts, hp, rfl, rfl⟩ := h
  rw [readText?, readUnits?_flatten hp]
  rfl

theorem exists_of_readText? (h : readText? cs = some (s, rest)) :
    ∃ inner, StringWrittenAs s inner ∧ cs = inner ++ '"' :: rest := by
  obtain ⟨⟨units, more⟩, hu, h⟩ := Option.bind_eq_some_iff.mp h
  cases h
  obtain ⟨parts, hp, rfl⟩ := exists_of_readUnits? hu
  exact ⟨_, ⟨units, parts, hp, rfl, rfl⟩, rfl⟩

end Strings

/-- No digit comes next. -/
def NoDigit (cs : List Char) : Prop := ∀ c, cs.head? = some c → c.isDigit = false

/-- A number does not go on. -/
structure NumberEnds (cs : List Char) : Prop where
  digit : NoDigit cs
  point : cs.head? ≠ some '.'
  power : cs.head? ≠ some 'e' ∧ cs.head? ≠ some 'E'

theorem NoDigit.cons {c : Char} (h : c.isDigit = false) (cs : List Char) : NoDigit (c :: cs) := by
  rintro _ ⟨⟩
  exact h

section Numbers

variable {cs ds rest point power : List Char} {exponent : Option Int} {l : Literal}

theorem Digits.exists_cons (h : Digits ds) : ∃ c cs, ds = c :: cs ∧ c.isDigit = true := by
  obtain ⟨c, cs, rfl⟩ := List.exists_cons_of_ne_nil h.1
  exact ⟨c, cs, rfl, h.2 c (List.mem_cons_self ..)⟩

theorem readDigits?_iff :
    readDigits? cs = some (ds, rest) ↔ Digits ds ∧ NoDigit rest ∧ cs = ds ++ rest := by
  rw [readDigits?]
  constructor
  · intro h
    split at h
    · cases h
    next hne =>
      cases h
      refine ⟨⟨by simpa using hne, fun c hc => List.mem_takeWhile_imp hc⟩, fun c hc => ?_,
        List.takeWhile_append_dropWhile.symm⟩
      have hd := List.head?_dropWhile_not Char.isDigit cs
      rw [hc] at hd
      simpa using hd
  · rintro ⟨⟨hne, hd⟩, hno, rfl⟩
    have htake : rest.takeWhile Char.isDigit = [] := by
      cases rest with
      | nil => rfl
      | cons c rest => exact List.takeWhile_cons_of_neg (by simp [hno c rfl])
    have hdrop : rest.dropWhile Char.isDigit = rest := by
      cases rest with
      | nil => rfl
      | cons c rest => exact List.dropWhile_cons_of_neg (by simp [hno c rfl])
    rw [List.takeWhile_append_of_pos hd, List.dropWhile_append_of_pos hd, htake, hdrop,
      List.append_nil, if_neg (by simpa using hne)]

theorem readWhole?_iff :
    readWhole? cs = some (ds, rest) ↔
      Digits ds ∧ (ds.head? = some '0' → ds = ['0']) ∧ NoDigit rest ∧ cs = ds ++ rest := by
  have hzero (ds : List Char) : ¬ (1 < ds.length ∧ ds.head? = some '0') ↔
      (ds.head? = some '0' → ds = ['0']) := by
    rcases ds with - | ⟨c, - | ⟨d, ds⟩⟩ <;> simp
  rw [readWhole?, Option.bind_eq_bind, Option.bind_eq_some_iff]
  constructor
  · rintro ⟨⟨digits, more⟩, hd, h⟩
    dsimp only at h
    split at h
    · cases h
    next hz =>
      cases h
      obtain ⟨hdigits, hno, rfl⟩ := readDigits?_iff.mp hd
      exact ⟨hdigits, (hzero _).mp hz, hno, rfl⟩
  · rintro ⟨hd, hz, hno, rfl⟩
    refine ⟨(ds, rest), readDigits?_iff.mpr ⟨hd, hno, rfl⟩, ?_⟩
    dsimp only
    rw [if_neg ((hzero _).mpr hz)]
    rfl

theorem readFraction?_writtenAs (h : FractionWrittenAs ds point) (hd : NoDigit rest)
    (hp : rest.head? ≠ some '.') : readFraction? (point ++ rest) = some (ds, rest) := by
  cases h with
  | stated h => exact readDigits?_iff.mpr ⟨h, hd, rfl⟩
  | omitted =>
    rw [List.nil_append]
    unfold readFraction?
    split
    · simp at hp
    · rfl

theorem exists_of_readFraction? (h : readFraction? cs = some (ds, rest)) :
    ∃ point, FractionWrittenAs ds point ∧ cs = point ++ rest := by
  unfold readFraction? at h
  split at h
  · obtain ⟨hd, -, rfl⟩ := readDigits?_iff.mp h
    exact ⟨_, .stated hd, rfl⟩
  · cases h
    exact ⟨[], .omitted, rfl⟩

/-- The sign of an exponent, if it has one, is taken off. -/
def takeSign (cs : List Char) : Bool × List Char :=
  match cs with
  | '+' :: rest => (false, rest)
  | '-' :: rest => (true, rest)
  | _ => (false, cs)

theorem takeSign_writtenAs {negative : Bool} {sign : List Char}
    (h : SignWrittenAs negative sign) (hd : Digits ds) :
    takeSign (sign ++ (ds ++ rest)) = (negative, ds ++ rest) := by
  cases h with
  | plus | minus => rfl
  | omitted =>
    obtain ⟨c, cs, rfl, hc⟩ := hd.exists_cons
    rw [List.nil_append, List.cons_append]
    unfold takeSign
    split
    next h =>
      obtain ⟨rfl, -⟩ := List.cons.inj h
      cases hc
    next h =>
      obtain ⟨rfl, -⟩ := List.cons.inj h
      cases hc
    next => rfl

theorem exists_of_takeSign (cs : List Char) :
    ∃ sign, SignWrittenAs (takeSign cs).1 sign ∧ cs = sign ++ (takeSign cs).2 := by
  unfold takeSign
  split
  · exact ⟨_, .plus, rfl⟩
  · exact ⟨_, .minus, rfl⟩
  · exact ⟨_, .omitted, rfl⟩

theorem readExponent?_cons {c : Char} (hc : c = 'e' ∨ c = 'E') (cs : List Char) :
    readExponent? (c :: cs) = (readDigits? (takeSign cs).2).map fun r =>
      (some (signed (takeSign cs).1 (Nat.ofDigitChars 10 r.1 0)), r.2) := by
  unfold readExponent?
  dsimp only
  rw [if_pos hc, Option.map_eq_bind]
  rfl

theorem readExponent?_writtenAs (h : ExponentWrittenAs exponent power) (hd : NoDigit rest)
    (he : rest.head? ≠ some 'e' ∧ rest.head? ≠ some 'E') :
    readExponent? (power ++ rest) = some (exponent, rest) := by
  cases h with
  | omitted =>
    rw [List.nil_append]
    unfold readExponent?
    split
    next => rw [if_neg (by simpa using he)]
    next => rfl
  | stated hc hs hdigits =>
    rw [List.append_assoc, List.cons_append, readExponent?_cons hc, takeSign_writtenAs hs hdigits,
      readDigits?_iff.mpr ⟨hdigits, hd, rfl⟩]
    rfl

theorem exists_of_readExponent? (h : readExponent? cs = some (exponent, rest)) :
    ∃ power, ExponentWrittenAs exponent power ∧ cs = power ++ rest := by
  cases cs with
  | nil =>
    cases h
    exact ⟨[], .omitted, rfl⟩
  | cons c cs =>
    by_cases hc : c = 'e' ∨ c = 'E'
    · rw [readExponent?_cons hc] at h
      obtain ⟨⟨digits, more⟩, hr, h⟩ := Option.map_eq_some_iff.mp h
      cases h
      obtain ⟨sign, hs, hcs⟩ := exists_of_takeSign cs
      obtain ⟨hd, -, hrest⟩ := readDigits?_iff.mp hr
      rw [hrest] at hcs
      exact ⟨_, .stated hc hs hd, by simp [hcs]⟩
    · unfold readExponent? at h
      dsimp only at h
      rw [if_neg hc] at h
      cases h
      exact ⟨[], .omitted, rfl⟩

theorem FractionWrittenAs.noDigit (h : FractionWrittenAs ds point) (hr : NoDigit rest) :
    NoDigit (point ++ rest) := by
  cases h with
  | omitted => exact hr
  | stated => exact .cons (by decide) _

/-- An exponent, like what ends a number, is neither a digit nor a point. -/
theorem ExponentWrittenAs.ends (h : ExponentWrittenAs exponent power) (hr : NumberEnds rest) :
    NoDigit (power ++ rest) ∧ (power ++ rest).head? ≠ some '.' := by
  cases h with
  | omitted => exact ⟨hr.digit, hr.point⟩
  | stated hc => rcases hc with rfl | rfl <;> exact ⟨.cons (by decide) _, by simp⟩

/-- The sign of a number, if it has one, is taken off. -/
def takeMinus (cs : List Char) : Bool × List Char :=
  match cs with
  | '-' :: rest => (true, rest)
  | _ => (false, cs)

theorem takeMinus_writtenAs (negative : Bool) (hd : Digits ds) :
    takeMinus ((if negative then ['-'] else []) ++ (ds ++ rest)) = (negative, ds ++ rest) := by
  cases negative with
  | true => rfl
  | false =>
    obtain ⟨c, cs, rfl, hc⟩ := hd.exists_cons
    change takeMinus (c :: (cs ++ rest)) = _
    unfold takeMinus
    split
    next h =>
      obtain ⟨rfl, -⟩ := List.cons.inj h
      cases hc
    next => rfl

theorem append_takeMinus (cs : List Char) :
    (if (takeMinus cs).1 then ['-'] else []) ++ (takeMinus cs).2 = cs := by
  unfold takeMinus
  split <;> rfl

theorem readLiteral?_eq_some_iff :
    readLiteral? cs = some (l, rest) ↔ ∃ afterWhole afterFraction,
      readWhole? (takeMinus cs).2 = some (l.whole, afterWhole) ∧
      readFraction? afterWhole = some (l.fraction, afterFraction) ∧
      readExponent? afterFraction = some (l.exponent, rest) ∧
      l.negative = (takeMinus cs).1 := by
  have hread : readLiteral? cs = (readWhole? (takeMinus cs).2).bind fun w =>
      (readFraction? w.2).bind fun f => (readExponent? f.2).map fun e =>
        (⟨(takeMinus cs).1, w.1, f.1, e.1⟩, e.2) := by
    simp only [Option.map_eq_bind]
    rfl
  rw [hread]
  simp only [Option.bind_eq_some_iff, Option.map_eq_some_iff, Prod.exists, Prod.mk.injEq]
  constructor
  · rintro ⟨whole, more, hw, fraction, more', hf, exponent, more'', he, rfl, rfl⟩
    exact ⟨more, more', hw, hf, he, rfl⟩
  · rintro ⟨more, more', hw, hf, he, hn⟩
    exact ⟨_, more, hw, _, more', hf, _, rest, he, by rw [← hn], rfl⟩

theorem readLiteral?_writtenAs (h : l.WrittenAs cs) (hr : NumberEnds rest) :
    readLiteral? (cs ++ rest) = some (l, rest) := by
  cases h with
  | @mk whole fraction point power exponent negative hw hz hf he =>
    obtain ⟨hdigit, hpoint⟩ := he.ends hr
    refine readLiteral?_eq_some_iff.mpr ⟨point ++ (power ++ rest), power ++ rest, ?_, ?_, ?_, ?_⟩
    · simp only [List.append_assoc, takeMinus_writtenAs negative hw]
      exact readWhole?_iff.mpr ⟨hw, hz, hf.noDigit hdigit, rfl⟩
    · exact readFraction?_writtenAs hf hdigit hpoint
    · exact readExponent?_writtenAs he hr.digit hr.power
    · simp only [List.append_assoc, takeMinus_writtenAs negative hw]

theorem exists_of_readLiteral? (h : readLiteral? cs = some (l, rest)) :
    ∃ text, l.WrittenAs text ∧ cs = text ++ rest := by
  obtain ⟨more, more', hw, hf, he, hn⟩ := readLiteral?_eq_some_iff.mp h
  obtain ⟨hdigits, hz, -, hcs⟩ := readWhole?_iff.mp hw
  obtain ⟨point, hpoint, rfl⟩ := exists_of_readFraction? hf
  obtain ⟨power, hpower, rfl⟩ := exists_of_readExponent? he
  refine ⟨_, .mk l.negative hdigits hz hpoint hpower, ?_⟩
  rw [← append_takeMinus cs, hcs, ← hn]
  simp

/-- A number begins with its sign or with a digit. -/
theorem Literal.WrittenAs.exists_cons (h : l.WrittenAs cs) :
    ∃ c tail, cs = c :: tail ∧ (c = '-' ∨ c.isDigit = true) := by
  obtain ⟨negative, hw, -, -, -⟩ := h
  cases negative with
  | true => exact ⟨'-', _, rfl, .inl rfl⟩
  | false =>
    obtain ⟨c, ds, rfl, hc⟩ := hw.exists_cons
    exact ⟨c, _, rfl, .inr hc⟩

end Numbers

end ContractAbi.Json
