import ContractAbi.Text.Blank
import ContractAbi.Proofs.Nesting
import Mathlib.Data.List.Infix

/-!
The language of the lexer, described on the characters of a text alone: which characters there may
be, where parentheses and commas may stand, and what a bracket may hold.
-/

namespace ContractAbi.Text

def Permitted (c : Char) : Prop :=
  isBlank c ∨ c.isAlpha ∨ c.isDigit ∨ c ∈ ['$', '_', '(', ')', '[', ']', ',', '@']

/-- No more parentheses are closed than have been opened, and none is left open. -/
structure Balanced (cs : List Char) : Prop where
  sane : ∀ read, read <+: cs → read.count ')' ≤ read.count '('
  settled : cs.count '(' = cs.count ')'

/-- Around every comma there is a pair of parentheses that belong together. -/
def CommasGrouped (cs : List Char) : Prop :=
  ∀ before after, cs = before ++ ',' :: after →
    ∃ outer inner inner' outer', before = outer ++ '(' :: inner ∧ after = inner' ++ ')' :: outer' ∧
      Balanced (inner ++ ',' :: inner')

/-- A pair of brackets, with blanks in it and at most one number that a word can hold. -/
inductive ArraySuffix : List Char → Prop where
  | mk {before digits after : List Char} (hb : ∀ c ∈ before, isBlank c = true)
      (hd : ∀ c ∈ digits, c.isDigit = true) (hv : Nat.ofDigitChars 10 digits 0 < 2 ^ 64)
      (ha : ∀ c ∈ after, isBlank c = true) :
      ArraySuffix ('[' :: (before ++ digits ++ after) ++ [']'])

/-- Every bracket is an end of an array suffix. -/
structure Suffixed (cs : List Char) : Prop where
  opened : ∀ before after, cs = before ++ '[' :: after → ∃ s, ArraySuffix s ∧ s <+: '[' :: after
  closed : ∀ before after, cs = before ++ ']' :: after → ∃ s, ArraySuffix s ∧ s <:+ before ++ [']']

/-- What holds of a text that stands between parentheses or commas as it does of a whole text. -/
structure Formed (cs : List Char) : Prop where
  permitted : ∀ c ∈ cs, Permitted c
  balanced : Balanced cs
  suffixed : Suffixed cs

/-- The texts that can be divided into tokens. -/
structure Lexable (cs : List Char) : Prop extends Formed cs where
  commas : CommasGrouped cs

variable {xs ys cs before after inner s : List Char} {c : Char}

namespace Balanced

theorem of_notMem (ho : '(' ∉ cs) (hc : ')' ∉ cs) : Balanced cs where
  sane read hr := by
    rw [List.count_eq_zero_of_not_mem fun h => hc (hr.subset h)]
    exact Nat.zero_le _
  settled := by rw [List.count_eq_zero_of_not_mem ho, List.count_eq_zero_of_not_mem hc]

theorem append (hx : Balanced xs) (hy : Balanced ys) : Balanced (xs ++ ys) where
  sane read := by
    rintro ⟨rest, hr⟩
    obtain ⟨more, hm, -⟩ | ⟨more, rfl, hm⟩ := List.append_eq_append_iff.mp hr
    · exact hx.sane read ⟨more, hm.symm⟩
    · have hmore := hy.sane more ⟨rest, hm.symm⟩
      rw [List.count_append, List.count_append, hx.settled]
      omega
  settled := by rw [List.count_append, List.count_append, hx.settled, hy.settled]

theorem group (h : Balanced inner) : Balanced ('(' :: inner ++ [')']) where
  sane read hr := by
    rw [List.cons_append] at hr
    rcases List.prefix_cons_iff.mp hr with rfl | ⟨more, rfl, hm⟩
    · exact Nat.le_refl _
    · rcases List.prefix_concat_iff.mp hm with rfl | hm
      · simp [h.settled]
      · have hmore := h.sane more hm
        rw [List.count_cons_self, List.count_cons_of_ne (by decide)]
        omega
  settled := by simp [h.settled]

end Balanced

namespace CommasGrouped

theorem of_notMem (h : ',' ∉ cs) : CommasGrouped cs := by
  rintro before after rfl
  exact absurd (List.mem_append_right before (List.mem_cons_self ..)) h

theorem append (hx : CommasGrouped xs) (hy : CommasGrouped ys) : CommasGrouped (xs ++ ys) := by
  intro before after he
  obtain ⟨more, hxs, rfl⟩ | ⟨more, rfl, hys⟩ := append_eq_append_cons_iff.mp he
  · obtain ⟨outer, inner, inner', outer', rfl, rfl, hb⟩ := hx before more hxs
    exact ⟨outer, inner, inner', outer' ++ ys, rfl, by simp, hb⟩
  · obtain ⟨outer, inner, inner', outer', rfl, rfl, hb⟩ := hy more after hys
    exact ⟨xs ++ outer, inner, inner', outer', by simp, rfl, hb⟩

/-- Whatever commas there are in a group belong to it, if to no group in it. -/
theorem group (h : Balanced inner) : CommasGrouped ('(' :: inner ++ [')']) := by
  intro before after he
  cases before with
  | nil => cases he
  | cons b before =>
    obtain ⟨rfl, he'⟩ := List.cons.inj he
    have he' : inner ++ [')'] = before ++ ',' :: after := he'
    obtain ⟨more, rfl, rfl⟩ | ⟨more, -, hm⟩ := append_eq_append_cons_iff.mp he'
    · exact ⟨[], before, more, [], rfl, rfl, h⟩
    · simp [List.singleton_eq_append_iff] at hm

/-- Before a comma more groups are open than closed. -/
theorem count_lt (h : CommasGrouped cs) (hb : Balanced cs) (he : cs = before ++ ',' :: after) :
    before.count ')' < before.count '(' := by
  obtain ⟨outer, inner, inner', outer', rfl, rfl, hi⟩ := h before after he
  have houter := hb.sane outer ⟨_, by rw [he, List.append_assoc]⟩
  have hinner := hi.sane inner (List.prefix_append ..)
  rw [List.count_append, List.count_append, List.count_cons_self,
    List.count_cons_of_ne (by decide)]
  omega

end CommasGrouped

namespace ArraySuffix

theorem exists_cons (h : ArraySuffix s) : ∃ rest, s = '[' :: rest := by
  obtain ⟨_, _, _, _⟩ := h
  exact ⟨_, List.cons_append ..⟩

/-- What stands in the brackets is blank or a digit. -/
theorem inside (h : ArraySuffix s) :
    ∃ inside, s = '[' :: inside ++ [']'] ∧ ∀ c ∈ inside, isBlank c = true ∨ c.isDigit = true := by
  obtain ⟨hb, hd, -, ha⟩ := h
  refine ⟨_, rfl, fun c hc => ?_⟩
  rcases List.mem_append.mp hc with hc | hc
  · exact (List.mem_append.mp hc).imp (hb c) (hd c)
  · exact .inl (ha c hc)

/-- Other characters than those are the brackets at its ends. -/
theorem split (h : ArraySuffix s) (hb : isBlank c = false) (hd : c.isDigit = false)
    (he : s = before ++ c :: after) : c = '[' ∧ before = [] ∨ c = ']' ∧ after = [] := by
  obtain ⟨inside, rfl, hi⟩ := h.inside
  cases before with
  | nil => exact .inl ⟨(List.cons.inj he).1.symm, rfl⟩
  | cons b before =>
    obtain ⟨more, rfl, -⟩ | ⟨more, -, hm⟩ := append_eq_append_cons_iff.mp (List.cons.inj he).2
    · rcases hi c (List.mem_append_right _ (List.mem_cons_self ..)) with hc | hc
      · rw [hb] at hc
        cases hc
      · rw [hd] at hc
        cases hc
    · obtain ⟨-, hm⟩ | ⟨-, hm⟩ := List.singleton_eq_append_iff.mp hm
      · obtain ⟨rfl, rfl⟩ := List.cons.inj hm
        exact .inr ⟨rfl, rfl⟩
      · cases hm

theorem notMem (h : ArraySuffix s) (hb : isBlank c = false) (hd : c.isDigit = false)
    (ho : c ≠ '[') (hc : c ≠ ']') : c ∉ s := by
  intro hm
  obtain ⟨before, after, he⟩ := List.append_of_mem hm
  rcases h.split hb hd he with ⟨hbracket, -⟩ | ⟨hbracket, -⟩
  · exact ho hbracket
  · exact hc hbracket

theorem permitted (h : ArraySuffix s) : ∀ c ∈ s, Permitted c := by
  obtain ⟨inside, rfl, hi⟩ := h.inside
  intro c hc
  simp only [List.cons_append, List.mem_cons, List.mem_append, List.not_mem_nil, or_false] at hc
  rcases hc with rfl | hc | rfl
  · simp [Permitted]
  · exact (hi c hc).imp id fun hd => .inr (.inl hd)
  · simp [Permitted]

theorem balanced (h : ArraySuffix s) : Balanced s :=
  .of_notMem (h.notMem (by decide) (by decide) (by decide) (by decide))
    (h.notMem (by decide) (by decide) (by decide) (by decide))

end ArraySuffix

namespace Suffixed

theorem of_notMem (ho : '[' ∉ cs) (hc : ']' ∉ cs) : Suffixed cs where
  opened := by
    rintro before after rfl
    exact absurd (List.mem_append_right before (List.mem_cons_self ..)) ho
  closed := by
    rintro before after rfl
    exact absurd (List.mem_append_right before (List.mem_cons_self ..)) hc

theorem append (hx : Suffixed xs) (hy : Suffixed ys) : Suffixed (xs ++ ys) where
  opened before after he := by
    obtain ⟨more, hxs, rfl⟩ | ⟨more, rfl, hys⟩ := append_eq_append_cons_iff.mp he
    · obtain ⟨s, hs, hprefix⟩ := hx.opened before more hxs
      exact ⟨s, hs, hprefix.trans ⟨ys, rfl⟩⟩
    · exact hy.opened more after hys
  closed before after he := by
    obtain ⟨more, hxs, rfl⟩ | ⟨more, rfl, hys⟩ := append_eq_append_cons_iff.mp he
    · exact hx.closed before more hxs
    · obtain ⟨s, hs, hsuffix⟩ := hy.closed more after hys
      exact ⟨s, hs, hsuffix.trans ⟨xs, (List.append_assoc ..).symm⟩⟩

theorem of_arraySuffix (h : ArraySuffix s) : Suffixed s where
  opened before after he := by
    obtain ⟨-, rfl⟩ | ⟨hno, -⟩ := h.split (by decide) (by decide) he
    · exact ⟨s, h, he ▸ List.prefix_rfl⟩
    · cases hno
  closed before after he := by
    obtain ⟨hno, -⟩ | ⟨-, rfl⟩ := h.split (by decide) (by decide) he
    · cases hno
    · exact ⟨s, h, he ▸ List.suffix_rfl⟩

/-- A text stays suffixed without what stands before it, if no array suffix begins in that and goes
on after it. -/
theorem drop (h : Suffixed (xs ++ ys))
    (hx : ∀ part rest, part <:+ xs → ArraySuffix (part ++ (rest ++ [']'])) → part = []) :
    Suffixed ys where
  opened before after he := h.opened (xs ++ before) after (by rw [he, List.append_assoc])
  closed before after he := by
    obtain ⟨s, hs, outer, hsuffix⟩ :=
      h.closed (xs ++ before) after (by rw [he, List.append_assoc])
    rw [List.append_assoc] at hsuffix
    obtain ⟨part, hpart, rfl⟩ | ⟨more, -, hmore⟩ := List.append_eq_append_iff.mp hsuffix
    · obtain rfl := hx part before ⟨outer, hpart.symm⟩ hs
      exact ⟨_, hs, List.suffix_rfl⟩
    · exact ⟨s, hs, more, hmore.symm⟩

theorem drop_of_notMem (h : Suffixed (xs ++ ys)) (hx : '[' ∉ xs) : Suffixed ys := by
  refine h.drop fun part rest hpart hs => ?_
  cases part with
  | nil => rfl
  | cons c part =>
    obtain ⟨_, he⟩ := hs.exists_cons
    obtain rfl := (List.cons.inj he).1
    exact absurd (hpart.subset (List.mem_cons_self ..)) hx

theorem drop_arraySuffix (h : Suffixed (s ++ ys)) (hs : ArraySuffix s) : Suffixed ys := by
  refine h.drop fun part rest hpart hs' => ?_
  by_contra hne
  -- the part ends where `s` does, with a bracket that is not the last one of the longer suffix
  obtain ⟨inside, rfl, -⟩ := hs.inside
  obtain ⟨part, rfl⟩ : ∃ more, part = more ++ [']'] := by
    rcases List.suffix_concat_iff.mp hpart with rfl | ⟨more, rfl, -⟩
    · exact absurd rfl hne
    · exact ⟨more, rfl⟩
  obtain ⟨hno, -⟩ | ⟨-, hno⟩ := hs'.split (c := ']') (by decide) (by decide) (by
    rw [List.append_assoc, List.singleton_append])
  · cases hno
  · simp at hno

end Suffixed

namespace Formed

theorem of_plain (hp : ∀ c ∈ cs, Permitted c) (h : ∀ c ∈ ['(', ')', '[', ']'], c ∉ cs) :
    Formed cs where
  permitted := hp
  balanced := .of_notMem (h _ (by decide)) (h _ (by decide))
  suffixed := .of_notMem (h _ (by decide)) (h _ (by decide))

theorem of_arraySuffix (h : ArraySuffix s) : Formed s :=
  ⟨h.permitted, h.balanced, .of_arraySuffix h⟩

theorem append (hx : Formed xs) (hy : Formed ys) : Formed (xs ++ ys) where
  permitted := List.forall_mem_append.mpr ⟨hx.permitted, hy.permitted⟩
  balanced := hx.balanced.append hy.balanced
  suffixed := hx.suffixed.append hy.suffixed

theorem group (h : Formed inner) : Formed ('(' :: inner ++ [')']) where
  permitted := by
    simpa [or_imp, forall_and, Permitted] using h.permitted
  balanced := h.balanced.group
  suffixed := by
    have hopen : Suffixed ['('] := .of_notMem (by decide) (by decide)
    have hclose : Suffixed [')'] := .of_notMem (by decide) (by decide)
    exact (hopen.append h.suffixed).append hclose

end Formed

/-- What is left of a text where `d` groups are open. -/
structure Pending (d : Nat) (cs : List Char) : Prop where
  permitted : ∀ c ∈ cs, Permitted c
  sane : ∀ read, read <+: cs → read.count ')' ≤ d + read.count '('
  settled : cs.count ')' = d + cs.count '('
  commas : ∀ before after, cs = before ++ ',' :: after → before.count ')' < d + before.count '('
  suffixed : Suffixed cs

theorem Lexable.pending (h : Lexable cs) : Pending 0 cs where
  permitted := h.permitted
  sane read hr := by simpa using h.balanced.sane read hr
  settled := by simpa using h.balanced.settled.symm
  commas before after he := by simpa using h.commas.count_lt h.balanced he
  suffixed := h.suffixed

namespace Pending

variable {d e : Nat}

/-- What has been read opens and closes groups for what is left. -/
theorem drop (h : Pending d (xs ++ ys)) (he : d + xs.count '(' = e + xs.count ')')
    (hs : Suffixed ys) : Pending e ys where
  permitted c hc := h.permitted c (List.mem_append_right xs hc)
  sane read hr := by
    have hread := h.sane (xs ++ read) ((List.prefix_append_right_inj xs).mpr hr)
    simp only [List.count_append] at hread
    omega
  settled := by
    have hcount := h.settled
    simp only [List.count_append] at hcount
    omega
  commas before after hy := by
    have hcount := h.commas (xs ++ before) after (by rw [hy, List.append_assoc])
    simp only [List.count_append] at hcount
    omega
  suffixed := hs

theorem drop_plain (h : Pending d (xs ++ ys)) (hx : ∀ m ∈ ['(', ')', '['], m ∉ xs) :
    Pending d ys := by
  refine h.drop ?_ (h.suffixed.drop_of_notMem (hx _ (by decide)))
  rw [List.count_eq_zero_of_not_mem (hx _ (by decide)),
    List.count_eq_zero_of_not_mem (hx _ (by decide))]

theorem drop_open (h : Pending d ('(' :: cs)) : Pending (d + 1) cs := by
  have h : Pending d (['('] ++ cs) := h
  exact h.drop rfl (h.suffixed.drop_of_notMem (by decide))

theorem drop_close (h : Pending d (')' :: cs)) : ∃ e, d = e + 1 ∧ Pending e cs := by
  have h : Pending d ([')'] ++ cs) := h
  have hd : 1 ≤ d + 0 := h.sane [')'] (List.prefix_append ..)
  obtain ⟨e, rfl⟩ := Nat.exists_eq_add_of_le' hd
  exact ⟨e, rfl, h.drop rfl (h.suffixed.drop_of_notMem (by decide))⟩

theorem drop_comma (h : Pending d (',' :: cs)) : ∃ e, d = e + 1 ∧ Pending d cs := by
  have hd : 0 < d + 0 := h.commas [] cs rfl
  obtain ⟨e, rfl⟩ := Nat.exists_eq_add_of_le' hd
  have h : Pending (e + 1) ([','] ++ cs) := h
  exact ⟨e, rfl, h.drop_plain (by simp)⟩

theorem drop_bracket (h : Pending d ('[' :: cs)) :
    ∃ s rest, ArraySuffix s ∧ '[' :: cs = s ++ rest ∧ Pending d rest := by
  obtain ⟨s, hs, rest, he⟩ := h.suffixed.opened [] cs rfl
  rw [← he] at h
  refine ⟨s, rest, hs, he.symm, h.drop ?_ (h.suffixed.drop_arraySuffix hs)⟩
  have hcount := hs.balanced.settled
  omega

/-- The bracket that closes an array suffix does not stand before the one that opens it. -/
theorem not_bracket (h : Pending d (']' :: cs)) : False := by
  obtain ⟨s, hs, hsuffix⟩ := h.suffixed.closed [] cs rfl
  obtain ⟨inside, rfl, -⟩ := hs.inside
  simpa using hsuffix.length_le

end Pending

end ContractAbi.Text
