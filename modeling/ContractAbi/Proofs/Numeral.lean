import ContractAbi.Text.Numeral

/-!
Decimal numerals, and those with letters among their digits. A text of digits alone has no sign and
no dividers to skip, so it means the same to every reader of numerals.
-/

namespace ContractAbi.Text

theorem decimal?_eq_some {digits : List Char} {n : Nat} :
    decimal? digits = some n ↔
      digits ≠ [] ∧ (∀ c ∈ digits, c.isDigit = true) ∧ n = Nat.ofDigitChars 10 digits 0 := by
  rw [decimal?, ← List.all_eq_true]
  split
  next h => simp [h, eq_comm]
  next h => simpa using fun h₁ h₂ => absurd ⟨h₁, by simpa using h₂⟩ h

theorem decimal?_repr (n : Nat) : decimal? n.repr.toList = some n := by
  rw [Nat.toList_repr]
  exact decimal?_toDigits n

theorem isSome_word64?_iff {digits : List Char} :
    (word64? digits).isSome ↔
      digits ≠ [] ∧ (∀ c ∈ digits, c.isDigit = true) ∧
        Nat.ofDigitChars 10 digits 0 < UInt64.size := by
  rw [Option.isSome_iff_exists]
  simp only [word64?, Option.bind_eq_some_iff, decimal?_eq_some]
  constructor
  · rintro ⟨_, _, ⟨hne, hd, rfl⟩, hv⟩
    exact ⟨hne, hd, (Option.ite_none_right_eq_some.mp hv).1⟩
  · rintro ⟨hne, hd, hv⟩
    exact ⟨_, _, ⟨hne, hd, rfl⟩, if_pos hv⟩

theorem digit_lt_ten {c : Char} (h : c.isDigit = true) : c.toNat - '0'.toNat < 10 := by
  have hc : 48 ≤ c.toNat ∧ c.toNat ≤ 57 := Char.isDigit_iff_toNat.mp h
  change c.toNat - 48 < 10
  omega

theorem digitChar_of_isDigit {c : Char} (h : c.isDigit = true) :
    Nat.digitChar (c.toNat - '0'.toNat) = c := by
  have hc : 48 ≤ c.toNat ∧ c.toNat ≤ 57 := Char.isDigit_iff_toNat.mp h
  apply Char.toNat_inj.mp
  rw [Nat.toNat_digitChar_of_lt_ten (digit_lt_ten h)]
  change 48 + (c.toNat - 48) = c.toNat
  omega

theorem digit_pos {c : Char} (h : c.isDigit = true) (hz : c ≠ '0') : 0 < c.toNat - '0'.toNat := by
  have hc : 48 ≤ c.toNat ∧ c.toNat ≤ 57 := Char.isDigit_iff_toNat.mp h
  have hne : c.toNat ≠ 48 := fun he => hz (Char.toNat_inj.mp he)
  change 0 < c.toNat - 48
  omega

theorem toDigits_digit {c : Char} (h : c.isDigit = true) :
    Nat.toDigits 10 (c.toNat - '0'.toNat) = [c] := by
  rw [Nat.toDigits_of_lt_base (digit_lt_ten h), digitChar_of_isDigit h]

/-- More digits may follow the numeral of a positive number. -/
theorem toDigits_append_of_digits {digits : List Char} (h : ∀ c ∈ digits, c.isDigit = true)
    {n : Nat} (hn : 0 < n) :
    Nat.toDigits 10 n ++ digits = Nat.toDigits 10 (Nat.ofDigitChars 10 digits n) := by
  induction digits generalizing n with
  | nil => exact List.append_nil _
  | cons c rest ih =>
    rw [List.forall_mem_cons] at h
    have hdigit := Nat.toDigits_append_toDigits (b := 10) (by decide) hn (digit_lt_ten h.1)
    rw [toDigits_digit h.1] at hdigit
    calc
      Nat.toDigits 10 n ++ c :: rest = Nat.toDigits 10 n ++ [c] ++ rest := by simp
      _ = Nat.toDigits 10 (10 * n + (c.toNat - '0'.toNat)) ++ rest := by rw [hdigit]
      _ = _ := by rw [ih h.2 (by omega), Nat.ofDigitChars_cons]

/-- A number has one numeral without leading zeros. -/
theorem toDigits_of_decimal? {digits : List Char} {n : Nat} (h : decimal? digits = some n)
    (hz : ¬ (1 < digits.length ∧ digits.head? = some '0')) : digits = Nat.toDigits 10 n := by
  obtain ⟨hne, hd, rfl⟩ := decimal?_eq_some.mp h
  cases digits with
  | nil => exact absurd rfl hne
  | cons c rest =>
    rw [List.forall_mem_cons] at hd
    rw [Nat.ofDigitChars_cons, Nat.mul_zero, Nat.zero_add]
    cases rest with
    | nil => exact (toDigits_digit hd.1).symm
    | cons d rest =>
      have hc : c ≠ '0' := by
        rintro rfl
        exact hz ⟨Nat.succ_lt_succ (Nat.succ_pos _), rfl⟩
      rw [← toDigits_append_of_digits hd.2 (digit_pos hd.1 hc), toDigits_digit hd.1]
      rfl

theorem digitBelow?_of_isDigit {c : Char} (h : c.isDigit = true) :
    digitBelow? 10 c = some (c.toNat - '0'.toNat) := by
  have hlt := digit_lt_ten h
  rw [Char.isDigit_iff_toNat] at h
  have hc : '0' ≤ c ∧ c ≤ '9' := ⟨h.1, h.2⟩
  rw [digitBelow?, digitValue?, if_pos hc, Option.filter_some_pos (by simpa using hlt)]

theorem groupedFrom?_of_digits {n : Nat} {digits : List Char}
    (h : ∀ c ∈ digits, c.isDigit = true) :
    groupedFrom? 10 n digits = some (Nat.ofDigitChars 10 digits n) := by
  induction digits generalizing n with
  | nil => rfl
  | cons c rest ih =>
    rw [List.forall_mem_cons] at h
    have hc : c ≠ '_' := by
      rintro rfl
      exact absurd h.1 (by decide)
    rw [groupedFrom?, digitBelow?_of_isDigit h.1, Option.bind_some, ih h.2, Nat.ofDigitChars_cons]
    exact hc

theorem grouped?_of_decimal? {digits : List Char} {n : Nat} (h : decimal? digits = some n) :
    grouped? 10 digits = some n := by
  obtain ⟨hne, hd, rfl⟩ := decimal?_eq_some.mp h
  cases digits with
  | nil => exact absurd rfl hne
  | cons c rest =>
    rw [List.forall_mem_cons] at hd
    have hc : c ≠ '+' := by
      rintro rfl
      exact absurd hd.1 (by decide)
    have hr : grouped? 10 (c :: rest) = (digitBelow? 10 c).bind (groupedFrom? 10 · rest) := by
      simp [grouped?, hc]
    rw [hr, digitBelow?_of_isDigit hd.1, Option.bind_some, groupedFrom?_of_digits hd.2,
      Nat.ofDigitChars_cons, Nat.mul_zero, Nat.zero_add]

/-- Leading zeros make no difference. -/
theorem decimal?_zeros (k n : Nat) :
    decimal? (List.replicate k '0' ++ Nat.toDigits 10 n) = some n := by
  obtain ⟨hne, hd, hn⟩ := decimal?_eq_some.mp (decimal?_toDigits n)
  have hzeros : Nat.ofDigitChars 10 (List.replicate k '0') 0 = 0 := by
    induction k with
    | zero => rfl
    | succ k ih => rw [List.replicate_succ, Nat.ofDigitChars_cons]; exact ih
  refine decimal?_eq_some.mpr ⟨by simp [hne], ?_, ?_⟩
  · rw [List.forall_mem_append]
    refine ⟨fun c hc => ?_, hd⟩
    rw [List.eq_of_mem_replicate hc]
    rfl
  · rw [Nat.ofDigitChars_append, hzeros, ← hn]

section Letters

variable {base n : Nat}

theorem toLower_of_not_upper {c : Char} (h : ¬ (65 ≤ c.toNat ∧ c.toNat ≤ 90)) : c.toLower = c := by
  unfold Char.toLower
  exact dif_neg h

theorem exists_of_upper {P : Char → Prop} {c : Char} (h : 65 ≤ c.toNat ∧ c.toNat ≤ 90)
    (hP : ∀ k < 91, 65 ≤ k → P (Char.ofNat k)) : P c := by
  have hc := hP c.toNat (by omega) h.1
  rwa [Char.ofNat_toNat] at hc

theorem digitValue?_toLower (c : Char) : digitValue? c.toLower = digitValue? c := by
  by_cases h : 65 ≤ c.toNat ∧ c.toNat ≤ 90
  · exact exists_of_upper (P := fun c => digitValue? c.toLower = digitValue? c) h (by decide)
  · rw [toLower_of_not_upper h]

theorem toLower_eq_iff {c mark : Char} (hm : mark ∈ ['+', '_']) : c.toLower = mark ↔ c = mark := by
  by_cases h : 65 ≤ c.toNat ∧ c.toNat ≤ 90
  · refine exists_of_upper (P := fun c => c.toLower = mark ↔ c = mark) h ?_
    simp only [List.mem_cons, List.not_mem_nil, or_false] at hm
    rcases hm with rfl | rfl <;> decide
  · rw [toLower_of_not_upper h]

theorem groupedFrom?_cons {c : Char} (hc : c ≠ '_') (rest : List Char) :
    groupedFrom? base n (c :: rest) =
      (digitBelow? base c).bind fun d => groupedFrom? base (base * n + d) rest := by
  rw [groupedFrom?]
  exact hc

theorem groupedFrom?_append (xs ys : List Char) :
    groupedFrom? base n (xs ++ ys) =
      (groupedFrom? base n xs).bind fun m => groupedFrom? base m ys := by
  induction xs generalizing n with
  | nil => rfl
  | cons c xs ih =>
    by_cases hc : c = '_'
    · subst hc
      exact ih
    · rw [List.cons_append, groupedFrom?_cons hc, groupedFrom?_cons hc, Option.bind_assoc]
      simp only [ih]

theorem groupedFrom?_map_toLower (cs : List Char) :
    groupedFrom? base n (cs.map Char.toLower) = groupedFrom? base n cs := by
  induction cs generalizing n with
  | nil => rfl
  | cons c cs ih =>
    by_cases hc : c = '_'
    · subst hc
      exact ih
    · have hlower : c.toLower ≠ '_' := fun h => hc ((toLower_eq_iff (by simp)).mp h)
      rw [List.map_cons, groupedFrom?_cons hc, groupedFrom?_cons hlower, digitBelow?,
        digitValue?_toLower, ← digitBelow?]
      simp only [ih]

/-- Without a sign, and with a digit first, a numeral is read from nothing on. -/
theorem grouped?_eq {c : Char} (hp : c ≠ '+') (hu : c ≠ '_') (rest : List Char) :
    grouped? base (c :: rest) = groupedFrom? base 0 (c :: rest) := by
  rw [groupedFrom?_cons hu]
  simp [grouped?, hp]

theorem digitBelow?_digitChar : ∀ d < 16, digitBelow? 16 (Nat.digitChar d) = some d := by decide

/-- The last digit, and the numeral before it if there is one. -/
theorem toDigits_cases (n : Nat) :
    n < 16 ∧ Nat.toDigits 16 n = [Nat.digitChar n] ∨
      n / 16 < n ∧ Nat.toDigits 16 n = Nat.toDigits 16 (n / 16) ++ [Nat.digitChar (n % 16)] := by
  by_cases h : n < 16
  · exact .inl ⟨h, Nat.toDigits_of_lt_base h⟩
  · refine .inr ⟨by omega, ?_⟩
    have hlast := Nat.mod_lt n (show 0 < 16 by decide)
    have happend := Nat.toDigits_append_toDigits (b := 16) (n := n / 16) (d := n % 16)
      (by decide) (by omega) hlast
    rw [Nat.div_add_mod, Nat.toDigits_of_lt_base hlast] at happend
    exact happend.symm

theorem groupedFrom?_toDigits (n : Nat) : groupedFrom? 16 0 (Nat.toDigits 16 n) = some n := by
  have hdigit (m d : Nat) (hd : d < 16) :
      groupedFrom? 16 m [Nat.digitChar d] = some (16 * m + d) := by
    have hne : ∀ d < 16, Nat.digitChar d ≠ '_' := by decide
    rw [groupedFrom?_cons (hne d hd), digitBelow?_digitChar d hd]
    rfl
  induction n using Nat.strongRecOn with
  | ind n ih =>
    obtain ⟨hlt, h⟩ | ⟨hlt, h⟩ := toDigits_cases n
    · rw [h, hdigit 0 n hlt, Nat.mul_zero, Nat.zero_add]
    · rw [h, groupedFrom?_append, ih _ hlt, Option.bind_some, hdigit _ _ (Nat.mod_lt _ (by decide)),
        Nat.div_add_mod]

theorem notMem_toDigits (n : Nat) : ∀ mark ∈ ['+', '_'], mark ∉ Nat.toDigits 16 n := by
  intro mark hm
  have hne : ∀ d < 16, mark ≠ Nat.digitChar d := by
    obtain rfl | rfl : mark = '+' ∨ mark = '_' := by simpa using hm
    · decide
    · decide
  induction n using Nat.strongRecOn with
  | ind n ih =>
    obtain ⟨hlt, h⟩ | ⟨hlt, h⟩ := toDigits_cases n
    · rw [h, List.mem_singleton]
      exact hne n hlt
    · rw [h, List.mem_append, not_or, List.mem_singleton]
      exact ⟨ih _ hlt, hne _ (Nat.mod_lt _ (by decide))⟩

/-- A hexadecimal numeral is read, whatever the case of its letters. -/
theorem grouped?_of_toLower {cs : List Char} (h : cs.map Char.toLower = Nat.toDigits 16 n) :
    grouped? 16 cs = some n := by
  cases cs with
  | nil => exact absurd h.symm Nat.toDigits_ne_nil
  | cons c rest =>
    have hne (mark : Char) (hm : mark ∈ ['+', '_']) : c ≠ mark := by
      intro hc
      refine notMem_toDigits n mark hm ?_
      rw [← h, List.map_cons, (toLower_eq_iff hm).mpr hc]
      exact List.mem_cons_self ..
    rw [grouped?_eq (hne _ (by simp)) (hne _ (by simp)), ← groupedFrom?_map_toLower, h,
      groupedFrom?_toDigits]

end Letters

end ContractAbi.Text
