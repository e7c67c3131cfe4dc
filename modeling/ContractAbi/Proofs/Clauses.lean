import ContractAbi.Declaration.Signature
import ContractAbi.Proofs.Outcome
import ContractAbi.Proofs.Parameter

/-!
The clauses around the parameters of a declaration, and what is checked of parameters that have been
read. The grammar says what a clause may be, the readers also where it ends.
-/

namespace ContractAbi

theorem length_le_one_iff_of_nodup {α : Type} {xs : List α} (h : xs.Nodup) :
    xs.length ≤ 1 ↔ ∀ x ∈ xs, ∀ y ∈ xs, x = y := by
  match xs, h with
  | [], _ => simp
  | [x], _ => simp
  | x :: y :: rest, h =>
    have hne : x ≠ y := by
      intro he
      simp [he] at h
    refine iff_of_false (by simp) fun ha => ?_
    exact hne (ha x (by simp) y (by simp))

theorem Param.mk_projections : (p : Param) → Param.mk p.name p.indexed p.type = p
  | ⟨_, _, _⟩ => rfl

namespace Grammar

theorem atMostOne_iff (group : List String) {words : List String} (h : group.Nodup) :
    AtMostOne group words ↔ (group.filter words.contains).length ≤ 1 := by
  rw [length_le_one_iff_of_nodup (h.filter _), AtMostOne]
  simp only [List.mem_filter, List.contains_iff_mem]
  refine ⟨?_, ?_⟩
  · intro ha u hu v hv
    exact ha u hu.1 v hv.1 hu.2 hv.2
  · intro ha u hu v hv hw hw'
    exact ha u ⟨hu, hw⟩ v ⟨hv, hw'⟩

theorem resolve_eq (words : List String) : resolve words = Reader.mutabilityOf words := by
  unfold resolve precedence Reader.mutabilityOf
  simp only [List.contains_iff_mem, List.find?_cons, List.find?_nil]
  by_cases hv : "view" ∈ words
  · simp [hv]
  by_cases hp : "pure" ∈ words
  · simp [hv, hp]
  by_cases ha : "payable" ∈ words
  · simp [hv, hp, ha]
  by_cases hn : "nonpayable" ∈ words
  · simp [hv, hp, ha, hn]
  by_cases hc : "constant" ∈ words
  · simp [hv, hp, ha, hn, hc]
  simp [hv, hp, ha, hn, hc]

theorem Visibility.closed {vs : List Symbol} {m : Mutability} (h : Visibility vs m) :
    Closed false vs := by
  cases h
  exact closed_keywords _

theorem Returns.head?_eq_some {os : List Symbol} {ps : List Param} {s : Symbol}
    (h : Returns os ps) (hs : os.head? = some s) : s = .keyword "returns" := by
  cases h with
  | omitted => cases hs
  | stated => exact (Option.some.inj hs).symm

theorem Returns.closed {os : List Symbol} {ps : List Param} (h : Returns os ps) :
    Closed false os := by
  cases h with
  | omitted => exact .nil
  | stated h => exact .leaf rfl h.closed

/-- The words before the outputs end where these begin. -/
theorem Returns.not_mem_visibility {os rest : List Symbol} {ps : List Param} (h : Returns os ps)
    (hrest : ∀ w, rest.head? ≠ some (.keyword w)) {w : String}
    (hw : (os ++ rest).head? = some (.keyword w)) : w ∉ Keyword.visibility := by
  cases h with
  | omitted => exact absurd hw (hrest w)
  | stated =>
    obtain rfl : "returns" = w := by simpa using hw
    decide

theorem Returns.not_visibility {os : List Symbol} {ps : List Param} (h : Returns os ps)
    (w : String) (hw : os.head? = some (.keyword w)) : w ∉ Keyword.visibility := by
  rw [← List.append_nil os] at hw
  exact h.not_mem_visibility (by simp) hw

theorem Returns.params_eq_nil {os : List Symbol} {ps : List Param} (h : Returns os ps)
    (ho : os = []) : ps = [] := by
  subst ho
  cases h
  rfl

theorem Gas.head?_eq_some {gs : List Symbol} {gas : Option Nat} {s : Symbol} (h : Gas gs gas)
    (hs : gs.head? = some s) : s = .atSign := by
  cases h with
  | omitted => cases hs
  | stated => exact (Option.some.inj hs).symm

theorem Parameters.params_ne_nil {indexable : Bool} {ts : List Symbol} {ps : List Param}
    (h : Parameters indexable ts ps) : ps ≠ [] := by
  cases h <;> exact List.cons_ne_nil _ _

theorem group_nil_iff {indexable : Bool} {ts : List Symbol} :
    Group indexable ts [] ↔ ts = [.openParen, .closeParen] := by
  refine ⟨?_, ?_⟩
  · intro h
    cases h with
    | empty => rfl
    | list h => exact absurd rfl h.params_ne_nil
  · intro h
    subst h
    exact .empty

theorem Returns.isSome_indexed {os : List Symbol} {ps : List Param} (h : Returns os ps) :
    ∀ p ∈ ps, p.indexed.isSome = false := by
  cases h with
  | omitted => simp
  | stated h => exact h.isSome_indexed

end Grammar

namespace Declaration

theorem unindexed_eq {ps : List Param} (h : ∀ p ∈ ps, p.indexed.isSome = false) :
    unindexed ps = .ok ps := by
  have hnone : ∀ p ∈ ps, p.indexed = none := fun p hp => by simpa using h p hp
  have hfind : ps.find? Param.isIndexed = none := by
    rw [List.find?_eq_none]
    intro p hp
    simp [Param.isIndexed, hnone p hp]
  have hmap : ps.map (fun p => { p with indexed := none }) = ps.map id := by
    apply List.map_congr_left
    intro p hp
    rw [← hnone p hp, Param.mk_projections, id]
  rw [unindexed, hfind]
  dsimp only
  rw [hmap, List.map_id]

theorem flagged_eq {ps : List Param} (h : ∀ p ∈ ps, p.indexed.isSome = true) :
    flagged ps = ps := by
  rw [flagged]
  have hmap : ps.map (fun p => { p with indexed := some (p.indexed.getD false) }) = ps.map id := by
    apply List.map_congr_left
    intro p hp
    obtain ⟨flag, hf⟩ := Option.isSome_iff_exists.mp (h p hp)
    rw [hf, Option.getD_some, ← hf, Param.mk_projections, id]
  rw [hmap, List.map_id]

theorem nameFor_text (kind : Kind) (name : Identifier) : nameFor kind name.text = .ok name := by
  rw [nameFor, Identifier.ofString?_text]

section Constructors

variable {inputs outputs : List Param}

theorem mkConstructor_eq (h : ∀ p ∈ inputs, p.indexed.isSome = false) (payable : Bool)
    (gas : Option Nat) :
    mkConstructor inputs payable gas = .ok (constructor inputs payable gas) := by
  rw [mkConstructor, unindexed_eq h]
  rfl

theorem mkError_eq (name : Identifier) (h : ∀ p ∈ inputs, p.indexed.isSome = false) :
    mkError name.text inputs = .ok (error name inputs) := by
  rw [mkError, unindexed_eq h, nameFor_text]
  rfl

theorem mkEvent_eq (name : Identifier) (h : ∀ p ∈ inputs, p.indexed.isSome = true)
    (anonymous : Bool) :
    mkEvent name.text inputs anonymous = .ok (event name inputs anonymous) := by
  rw [mkEvent, flagged_eq h, nameFor_text]
  rfl

theorem mkFunction_eq (name : Identifier) (mutability : Mutability)
    (hi : ∀ p ∈ inputs, p.indexed.isSome = false) (ho : ∀ p ∈ outputs, p.indexed.isSome = false)
    (gas : Option Nat) :
    mkFunction name.text mutability inputs outputs gas =
      .ok (function name mutability inputs outputs gas) := by
  rw [mkFunction, unindexed_eq hi, unindexed_eq ho, nameFor_text]
  rfl

theorem mkStruct_eq (name : Identifier) (h : ∀ p ∈ inputs, p.indexed.isSome = false) :
    mkStruct name.text inputs = .ok (struct name inputs) := by
  rw [mkStruct, unindexed_eq h, nameFor_text]
  rfl

end Constructors

end Declaration

namespace Reads

variable {c c' : Cursor}

theorem words_iff {allowed words : List String} :
    Reads (Reader.keywords allowed) c words c' ↔
      ∃ rest, c.symbols = words.map .keyword ++ rest ∧ Grammar.Words allowed words ∧
        (∀ w, rest.head? = some (.keyword w) → w ∉ allowed) ∧
        c' = c.advance (words.map Symbol.keyword).length := by
  rw [keywords_iff, List.length_map]
  apply exists_congr
  intro rest
  refine ⟨?_, ?_⟩
  · intro h
    obtain ⟨hs, hk, hstop, hn, hc⟩ := h
    exact ⟨hs, ⟨hk, hn⟩, hstop, hc⟩
  · intro h
    obtain ⟨hs, hw, hstop, hc⟩ := h
    exact ⟨hs, hw.known, hstop, hw.distinct, hc⟩

theorem mutability_iff {m : Mutability} :
    Reads Reader.mutability c m c' ↔
      ∃ vs rest, c.symbols = vs ++ rest ∧ Grammar.Visibility vs m ∧
        (∀ w, rest.head? = some (.keyword w) → w ∉ Keyword.visibility) ∧
        c' = c.advance vs.length := by
  rw [Reader.mutability, get_bind_iff]
  simp only [bind_iff, words_iff, atMostOne_iff, pure_iff,
    ← Grammar.atMostOne_iff Keyword.olderMutability (by decide),
    ← Grammar.atMostOne_iff Keyword.mutability (by decide)]
  refine ⟨?_, ?_⟩
  · intro h
    obtain ⟨words, -, ⟨rest, hs, hw, hstop, rfl⟩, -, -, ⟨hold, rfl⟩, -, -, ⟨hnew, rfl⟩, rfl,
      rfl⟩ := h
    refine ⟨_, rest, hs, ?_, hstop, rfl⟩
    rw [← Grammar.resolve_eq]
    exact .mk hw hold hnew
  · intro h
    obtain ⟨vs, rest, hs, hv, hstop, rfl⟩ := h
    cases hv with
    | @mk words hw hold hnew =>
      exact ⟨words, _, ⟨rest, hs, hw, hstop, rfl⟩, ⟨⟩, _, ⟨hold, rfl⟩, ⟨⟩, _, ⟨hnew, rfl⟩,
        Grammar.resolve_eq words, rfl⟩

theorem gas_grammar_iff {gas : Option Nat} {depth : Nat} {items : List Item}
    (h : c.Holds depth items) :
    Reads Reader.gas c gas c' ↔
      ∃ gs rest, c.symbols = gs ++ rest ∧ Grammar.Gas gs gas ∧
        (gs = [] → rest.head? ≠ some .atSign) ∧ c' = c.advance gs.length := by
  -- numbers of a text have digits only, so their value is the decimal one
  have hd : ∀ w, .number w ∈ c.symbols → (Text.decimal? w.toList).isSome = true :=
    fun w hm => h.lexical rfl hm
  rw [gas_iff hd]
  refine ⟨?_, ?_⟩
  · intro hr
    rcases hr with ⟨rfl, hn, rfl⟩ | ⟨n, w, rest, rfl, hs, hw, rfl⟩
    · exact ⟨[], _, rfl, .omitted, fun _ => hn, rfl⟩
    · exact ⟨[.atSign, .number w], rest, hs, .stated hw, by simp, rfl⟩
  · intro hr
    obtain ⟨gs, rest, hs, hg, hstop, rfl⟩ := hr
    cases hg with
    | omitted => exact .inl ⟨rfl, hs ▸ hstop rfl, rfl⟩
    | @stated digits n hn => exact .inr ⟨n, digits, rest, rfl, hs, hn, rfl⟩

end Reads

end ContractAbi
