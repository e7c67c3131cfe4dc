import ContractAbi.Proofs.Symbol
import Mathlib.Data.Set.Card
import Mathlib.Data.Set.Finite.Lemmas

/-!
Which parentheses belong together. A pair has a balanced sequence between its ends, so that two
pairs are either apart or one of them is inside the other, and a symbol lies as deep as there are
pairs around it.
-/

namespace ContractAbi

/-- Where a symbol stands if two sequences in a row have it. -/
theorem append_eq_append_cons_iff {α : Type} {xs ys before rest : List α} {s : α} :
    xs ++ ys = before ++ s :: rest ↔
      (∃ more, xs = before ++ s :: more ∧ rest = more ++ ys) ∨
        ∃ more, before = xs ++ more ∧ ys = more ++ s :: rest := by
  rw [List.append_eq_append_iff]
  constructor
  · rintro (⟨more, hb, hy⟩ | ⟨more, hx, hs⟩)
    · exact .inr ⟨more, hb, hy⟩
    · obtain ⟨rfl, rfl⟩ | ⟨more, rfl, rfl⟩ := List.cons_eq_append_iff.mp hs
      · exact .inr ⟨[], by simpa using hx.symm, rfl⟩
      · exact .inl ⟨more, hx, rfl⟩
  · rintro (⟨more, rfl, rfl⟩ | ⟨more, rfl, rfl⟩)
    · exact .inr ⟨s :: more, rfl, rfl⟩
    · exact .inl ⟨more, rfl, rfl⟩

theorem exists_append_of_getElem? {α : Type} {xs : List α} {i : Nat} {x : α}
    (h : xs[i]? = some x) : ∃ before after, xs = before ++ x :: after ∧ i = before.length := by
  obtain ⟨hi, rfl⟩ := List.getElem?_eq_some_iff.mp h
  refine ⟨xs.take i, xs.drop (i + 1), ?_, (List.length_take_of_le hi.le).symm⟩
  rw [← List.drop_eq_getElem_cons hi, List.take_append_drop]

namespace Closed

variable {listed : Bool} {ss before after : List Symbol}

/-- What is opened in a balanced sequence is closed in it. -/
theorem exists_close (h : Closed listed ss) (he : ss = before ++ .openParen :: after) :
    ∃ inner rest, after = inner ++ .closeParen :: rest ∧ Closed true inner := by
  induction h generalizing before after with
  | nil => simp at he
  | leaf hs _ ih =>
    cases before with
    | nil =>
      obtain ⟨rfl, -⟩ := List.cons.inj he
      cases hs
    | cons => exact ih (List.cons.inj he).2
  | comma _ ih =>
    cases before with
    | nil => cases he
    | cons => exact ih (List.cons.inj he).2
  | @group _ inner ss hi _ ihi ih =>
    cases before with
    | nil => exact ⟨inner, ss, (List.cons.inj he).2.symm, hi⟩
    | cons _ before =>
      have he' : inner ++ .closeParen :: ss = before ++ .openParen :: after := (List.cons.inj he).2
      obtain ⟨more, hb, rfl⟩ | ⟨more, -, hss⟩ := append_eq_append_cons_iff.mp he'
      · obtain ⟨inner', rest, rfl, hi'⟩ := ihi hb
        exact ⟨inner', rest ++ .closeParen :: ss, by simp, hi'⟩
      · obtain ⟨-, h⟩ | ⟨more', -, hmore⟩ := List.cons_eq_append_iff.mp hss
        · cases h
        · exact ih hmore

/-- What is closed in a balanced sequence has been opened in it. -/
theorem exists_open (h : Closed listed ss) (he : ss = before ++ .closeParen :: after) :
    ∃ rest inner, before = rest ++ .openParen :: inner ∧ Closed true inner := by
  induction h generalizing before after with
  | nil => simp at he
  | @leaf _ s ss hs _ ih =>
    cases before with
    | nil =>
      obtain ⟨rfl, -⟩ := List.cons.inj he
      cases hs
    | cons b before =>
      obtain ⟨rest, inner, rfl, hi⟩ := ih (List.cons.inj he).2
      exact ⟨b :: rest, inner, rfl, hi⟩
  | comma _ ih =>
    cases before with
    | nil => cases he
    | cons b before =>
      obtain ⟨rest, inner, rfl, hi⟩ := ih (List.cons.inj he).2
      exact ⟨b :: rest, inner, rfl, hi⟩
  | @group _ inner ss hi _ ihi ih =>
    cases before with
    | nil => cases he
    | cons b before =>
      obtain ⟨rfl, he'⟩ := List.cons.inj he
      change inner ++ .closeParen :: ss = before ++ .closeParen :: after at he'
      obtain ⟨more, hb, -⟩ | ⟨more, rfl, hss⟩ := append_eq_append_cons_iff.mp he'
      · obtain ⟨rest, inner', rfl, hi'⟩ := ihi hb
        exact ⟨.openParen :: rest, inner', rfl, hi'⟩
      · obtain ⟨rfl, -⟩ | ⟨more', rfl, hmore⟩ := List.cons_eq_append_iff.mp hss
        · exact ⟨[], inner, by simp, hi⟩
        · obtain ⟨rest, inner', rfl, hi'⟩ := ih hmore
          exact ⟨.openParen :: inner ++ .closeParen :: rest, inner', by simp, hi'⟩

end Closed

/-- The parenthesis at `i` is closed by the one at `j`: what stands between them balances. -/
def Pairs (ss : List Symbol) (i j : Nat) : Prop :=
  ∃ before inner after, ss = before ++ .openParen :: inner ++ .closeParen :: after ∧
    Closed true inner ∧ i = before.length ∧ j = i + 1 + inner.length

namespace Pairs

variable {listed : Bool} {ss xs ys inner before after : List Symbol} {i j k i' j' : Nat}

theorem lt (h : Pairs ss i j) : i < j := by
  obtain ⟨before, inner, after, -, -, -, rfl⟩ := h
  omega

theorem lt_length (h : Pairs ss i j) : j < ss.length := by
  obtain ⟨before, inner, after, rfl, -, rfl, rfl⟩ := h
  simp only [List.length_append, List.length_cons]
  omega

theorem getElem?_left (h : Pairs ss i j) : ss[i]? = some .openParen := by
  obtain ⟨before, inner, after, rfl, -, rfl, -⟩ := h
  simp

theorem of_closed (h : Closed true inner) :
    Pairs (before ++ .openParen :: inner ++ .closeParen :: after) before.length
      (before.length + 1 + inner.length) := ⟨before, inner, after, rfl, h, rfl, rfl⟩

theorem exists_right (h : Closed listed ss) (hi : ss[i]? = some .openParen) :
    ∃ j, Pairs ss i j := by
  obtain ⟨before, after, rfl, rfl⟩ := exists_append_of_getElem? hi
  obtain ⟨inner, rest, rfl, hc⟩ := h.exists_close rfl
  exact ⟨_, before, inner, rest, by simp, hc, rfl, rfl⟩

theorem exists_left (h : Closed listed ss) (hj : ss[j]? = some .closeParen) :
    ∃ i, Pairs ss i j := by
  obtain ⟨before, after, rfl, rfl⟩ := exists_append_of_getElem? hj
  obtain ⟨rest, inner, rfl, hc⟩ := h.exists_open rfl
  refine ⟨_, rest, inner, after, rfl, hc, rfl, ?_⟩
  simp only [List.length_append, List.length_cons]
  omega

theorem right_unique (h : Pairs ss i j) (h' : Pairs ss i j') : j = j' := by
  obtain ⟨before, inner, after, rfl, hc, rfl, rfl⟩ := h
  obtain ⟨before', inner', after', he, hc', hl, rfl⟩ := h'
  rw [List.append_assoc, List.append_assoc] at he
  obtain ⟨-, he⟩ := List.append_inj he hl
  obtain ⟨rfl, -⟩ := hc.unique hc' (.inl rfl) (.inl rfl) (List.cons.inj he).2
  rfl

/-- A pair that begins inside a balanced stretch is one of the stretch. -/
theorem append_inv (hx : Closed listed xs) (h : Pairs (xs ++ ys) i j) (hi : i < xs.length) :
    Pairs xs i j := by
  obtain ⟨before, inner, after, he, hc, rfl, rfl⟩ := h
  rw [List.append_assoc, List.cons_append] at he
  obtain ⟨more, hxs, hm⟩ | ⟨more, rfl, -⟩ := append_eq_append_cons_iff.mp he
  · obtain ⟨inner', rest, rfl, hc'⟩ := hx.exists_close hxs
    rw [List.append_assoc, List.cons_append] at hm
    obtain ⟨rfl, -⟩ := hc.unique hc' (.inl rfl) (.inl rfl) hm
    exact ⟨before, inner, rest, by rw [hxs, List.append_assoc, List.cons_append], hc, rfl, rfl⟩
  · rw [List.length_append] at hi
    omega

theorem append (h : Pairs xs i j) : Pairs (xs ++ ys) i j := by
  obtain ⟨before, inner, after, rfl, hc, rfl, rfl⟩ := h
  exact ⟨before, inner, after ++ ys, by simp, hc, rfl, rfl⟩

theorem prepend (h : Pairs ys i j) : Pairs (xs ++ ys) (xs.length + i) (xs.length + j) := by
  obtain ⟨before, inner, after, rfl, hc, rfl, rfl⟩ := h
  exact ⟨xs ++ before, inner, after, by simp, hc, by simp, by omega⟩

theorem prepend_inv (h : Pairs (xs ++ ys) (xs.length + i) j) :
    ∃ m, j = xs.length + m ∧ Pairs ys i m := by
  obtain ⟨before, inner, after, he, hc, hb, rfl⟩ := h
  rw [List.append_assoc, List.cons_append] at he
  obtain ⟨more, rfl, -⟩ | ⟨more, rfl, rfl⟩ := append_eq_append_cons_iff.mp he
  · simp only [List.length_append, List.length_cons] at hb
    omega
  · rw [List.length_append] at hb
    refine ⟨i + 1 + inner.length, by omega, more, inner, after, by simp, hc, by omega, rfl⟩

theorem group_inv (hc : Closed true inner)
    (h : Pairs (before ++ .openParen :: inner ++ .closeParen :: after) (before.length + 1 + k) j)
    (hk : k < inner.length) : ∃ m, j = before.length + 1 + m ∧ Pairs inner k m := by
  rw [List.append_assoc, List.cons_append, List.append_cons] at h
  have hl : (before ++ [Symbol.openParen]).length = before.length + 1 := by simp
  rw [← hl] at h ⊢
  obtain ⟨m, rfl, hm⟩ := h.prepend_inv
  exact ⟨m, rfl, hm.append_inv hc hk⟩

theorem group (h : Pairs inner i j) :
    Pairs (before ++ .openParen :: inner ++ .closeParen :: after) (before.length + 1 + i)
      (before.length + 1 + j) := by
  rw [List.append_assoc, List.cons_append, List.append_cons]
  have hl : (before ++ [Symbol.openParen]).length = before.length + 1 := by simp
  rw [← hl]
  exact h.append.prepend

theorem single_group_inv (hc : Closed true inner)
    (h : Pairs (.openParen :: inner ++ [.closeParen]) (1 + k) j) (hk : k < inner.length) :
    ∃ m, j = 1 + m ∧ Pairs inner k m := by
  have h' : Pairs ([] ++ .openParen :: inner ++ .closeParen :: [])
      (([] : List Symbol).length + 1 + k) j := by simpa using h
  simpa using group_inv hc h' hk

theorem single_group (h : Pairs inner i j) :
    Pairs (.openParen :: inner ++ [.closeParen]) (1 + i) (1 + j) := by
  have h' : Pairs ([] ++ .openParen :: inner ++ .closeParen :: [])
      (([] : List Symbol).length + 1 + i) (([] : List Symbol).length + 1 + j) := h.group
  simpa using h'

/-- A pair that begins inside another one ends inside it. -/
theorem nested (h : Pairs ss i j) (h' : Pairs ss i' j') (hi : i < i') (hj : i' < j) : j' < j := by
  obtain ⟨before, inner, after, rfl, hc, rfl, rfl⟩ := h
  obtain ⟨k, rfl⟩ := Nat.exists_eq_add_of_lt hi
  rw [Nat.add_right_comm] at h' hj
  obtain ⟨m, rfl, hm⟩ := group_inv hc h' (by omega)
  have := hm.lt_length
  omega

end Pairs

/-- Where the pairs around a symbol begin. -/
def enclosing (ss : List Symbol) (k : Nat) : Set Nat := {i | ∃ j, i < k ∧ k < j ∧ Pairs ss i j}

section enclosing

variable {listed : Bool} {xs ys inner : List Symbol} {k : Nat}

theorem finite_enclosing (ss : List Symbol) (k : Nat) : (enclosing ss k).Finite :=
  (Finset.finite_toSet (.range k)).subset fun _ ⟨_, hi, _⟩ => by simpa using hi

theorem enclosing_append_left (hx : Closed listed xs) (hk : k < xs.length) :
    enclosing (xs ++ ys) k = enclosing xs k := by
  ext i
  constructor
  · rintro ⟨j, hi, hj, h⟩
    exact ⟨j, hi, hj, h.append_inv hx (hi.trans hk)⟩
  · rintro ⟨j, hi, hj, h⟩
    exact ⟨j, hi, hj, h.append⟩

theorem enclosing_append_right (hx : Closed listed xs) :
    enclosing (xs ++ ys) (xs.length + k) = (xs.length + ·) '' enclosing ys k := by
  ext i
  constructor
  · rintro ⟨j, hi, hj, h⟩
    have hle : xs.length ≤ i := by
      apply Nat.le_of_not_lt
      intro hlt
      have := (h.append_inv hx hlt).lt_length
      omega
    obtain ⟨m, rfl⟩ := Nat.exists_eq_add_of_le hle
    obtain ⟨n, rfl, hm⟩ := h.prepend_inv
    exact ⟨m, ⟨n, by omega, by omega, hm⟩, rfl⟩
  · rintro ⟨i, ⟨j, hi, hj, h⟩, rfl⟩
    exact ⟨xs.length + j, by dsimp only; omega, by omega, h.prepend⟩

theorem enclosing_zero (ss : List Symbol) : enclosing ss 0 = ∅ :=
  Set.eq_empty_of_forall_notMem fun _ ⟨_, hi, _⟩ => Nat.not_lt_zero _ hi

theorem enclosing_last {ss : List Symbol} (hk : ss.length ≤ k + 1) : enclosing ss k = ∅ := by
  apply Set.eq_empty_of_forall_notMem
  rintro i ⟨j, -, hj, h⟩
  have := h.lt_length
  omega

theorem enclosing_group (hi : Closed true inner) (hk : k < inner.length) :
    enclosing (.openParen :: inner ++ [.closeParen]) (1 + k) =
      insert 0 ((1 + ·) '' enclosing inner k) := by
  ext i
  constructor
  · rintro ⟨j, hlt, hj, h⟩
    cases i with
    | zero => exact Set.mem_insert 0 _
    | succ i =>
      rw [Nat.add_comm i] at h hlt ⊢
      obtain ⟨m, rfl, hm⟩ := h.single_group_inv hi (by omega)
      exact .inr ⟨i, ⟨m, by omega, by omega, hm⟩, rfl⟩
  · rintro (rfl | ⟨i, ⟨j, hlt, hj, h⟩, rfl⟩)
    · exact ⟨1 + inner.length, by omega, by omega, [], inner, [], rfl, hi, rfl, by omega⟩
    · exact ⟨1 + j, by dsimp only; omega, by omega, h.single_group⟩

theorem ncard_enclosing_append_right (hx : Closed listed xs) :
    (enclosing (xs ++ ys) (xs.length + k)).ncard = (enclosing ys k).ncard := by
  rw [enclosing_append_right hx, Set.ncard_image_of_injective _ (add_right_injective _)]

theorem ncard_enclosing_group (hi : Closed true inner) (hk : k < inner.length) :
    (enclosing (.openParen :: inner ++ [.closeParen]) (1 + k)).ncard =
      (enclosing inner k).ncard + 1 := by
  rw [enclosing_group hi hk, Set.ncard_insert_of_notMem _ ((finite_enclosing inner k).image _),
    Set.ncard_image_of_injective _ (add_right_injective _)]
  rintro ⟨i, -, h⟩
  dsimp only at h
  omega

end enclosing

/-- Of the pairs around `k` the one from `i` to `j` is the innermost. -/
structure Innermost (ss : List Symbol) (i k j : Nat) : Prop where
  pairs : Pairs ss i j
  left : i < k
  right : k < j
  inner : ∀ i' j', Pairs ss i' j' → i' < k → k < j' → i' ≤ i

theorem exists_innermost {ss : List Symbol} {k : Nat} (h : (enclosing ss k).Nonempty) :
    ∃ i j, Innermost ss i k j := by
  obtain ⟨i, ⟨j, hi, hj, hp⟩, hmax⟩ := Set.exists_max_image _ id (finite_enclosing ss k) h
  exact ⟨i, j, hp, hi, hj, fun i' j' hp' hi' hj' => hmax i' ⟨j', hi', hj', hp'⟩⟩

theorem innermost_group_iff {before inner after : List Symbol} {k : Nat}
    (hi : Closed true inner) :
    Innermost (before ++ .openParen :: inner ++ .closeParen :: after) before.length k
        (before.length + 1 + inner.length) ↔
      ∃ m, k = before.length + 1 + m ∧ m < inner.length ∧ enclosing inner m = ∅ := by
  constructor
  · intro h
    obtain ⟨m, rfl⟩ := Nat.exists_eq_add_of_le h.left
    have hm : m < inner.length := Nat.lt_of_add_lt_add_left h.right
    refine ⟨m, rfl, hm, Set.eq_empty_of_forall_notMem ?_⟩
    rintro i ⟨j, hlt, hj, hp⟩
    have := h.inner _ _ hp.group (by omega) (by omega)
    omega
  · rintro ⟨m, rfl, hm, he⟩
    refine ⟨.of_closed hi, by omega, by omega, ?_⟩
    intro i j h hlt hj
    apply Nat.le_of_not_lt
    intro hgt
    obtain ⟨n, rfl⟩ := Nat.exists_eq_add_of_le hgt
    obtain ⟨j, rfl, hp⟩ := h.group_inv hi (by omega)
    have hmem : n ∈ enclosing inner m := ⟨j, by omega, by omega, hp⟩
    rw [he] at hmem
    exact hmem

end ContractAbi
