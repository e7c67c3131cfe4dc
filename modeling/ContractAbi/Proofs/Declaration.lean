import ContractAbi.Proofs.Clauses

/-!
The readers of declarations accept what the grammar derives, and nothing else. Each kind of
declaration is read to the end of the tokens.
-/

namespace ContractAbi

namespace Reads

variable {α : Type} {c c' : Cursor} {a : α} {depth : Nat} {items : List Item}

/-- What stands before the clauses of a declaration with a name. -/
theorem named_bind_iff {opening : String} {indexable : Bool} {k : String → List Param → Reader α}
    (h : c.Holds depth items) (hs : c.symbols.head? = some (.keyword opening))
    (ho : opening ∈ Keyword.declarations) :
    Reads (do
        let name ← Reader.declaredName opening
        let inputs ← Reader.parameters indexable
        k name inputs) c a c' ↔
      ∃ (name : Identifier) (is : List Symbol) (inputs : List Param) (rest : List Symbol),
        c.symbols = (.keyword opening :: .identifier name.text :: is) ++ rest ∧
          Grammar.Group indexable is inputs ∧
            Reads (k name.text inputs)
              (c.advance (Symbol.keyword opening :: .identifier name.text :: is).length) a c' := by
  have hclosed (w : String) : Closed false [.keyword opening, .identifier w] :=
    .leaf rfl (.leaf rfl .nil)
  refine ⟨?_, ?_⟩
  · intro hr
    obtain ⟨w, c₁, hname, hr⟩ := bind_iff.mp hr
    obtain ⟨inputs, c₂, hinputs, hr⟩ := bind_iff.mp hr
    rcases declaredName_iff.mp hname with ⟨rest, hc, -, rfl⟩ | ⟨rest, hc, -⟩
    · have hc₁ : c.symbols = [.keyword opening, .identifier w] ++ rest := hc
      obtain ⟨items', h', -⟩ := h.advance_closed (hclosed w) hc₁
      obtain ⟨is, rest', hc', hg, rfl⟩ := (parameters_iff h').mp hinputs
      rw [Cursor.symbols_advance_of_eq hc₁] at hc'
      have hl : (Symbol.identifier w).Lexical := h.lexical rfl (by simp [hc])
      refine ⟨⟨w, hl.2⟩, is, inputs, rest', by rw [hc, hc']; rfl, hg, ?_⟩
      rw [List.length_cons, List.length_cons, Nat.add_assoc, Nat.add_comm]
      rwa [← Cursor.advance_advance]
    · rw [hc] at hs
      cases hs
  · intro hr
    obtain ⟨name, is, inputs, rest, hc, hg, hr⟩ := hr
    have hc₁ : c.symbols = [.keyword opening, .identifier name.text] ++ (is ++ rest) := hc
    obtain ⟨items', h', -⟩ := h.advance_closed (hclosed name.text) hc₁
    refine bind_iff.mpr ⟨name.text, _, declaredName_iff.mpr (.inl ⟨_, hc, ho, rfl⟩), ?_⟩
    refine bind_iff.mpr ⟨inputs, _, (parameters_iff h').mpr ⟨is, rest, ?_, hg, rfl⟩, ?_⟩
    · exact Cursor.symbols_advance_of_eq hc₁
    · rw [Cursor.advance_advance, Nat.add_comm]
      exact hr

/-- Whether outputs are stated or not. -/
theorem returns_cases_iff {e : Reader α} {k : List Param → Reader α} (h : c.Holds depth items) :
    Reads (do
        let stated ← Reader.keyword? "returns"
        if stated then do
          let outputs ← Reader.parameters false
          k outputs
        else e) c a c' ↔
      (c.symbols.head? ≠ some (.keyword "returns") ∧ Reads e c a c') ∨
      ∃ ts outputs rest, c.symbols = (.keyword "returns" :: ts) ++ rest ∧
        Grammar.Group false ts outputs ∧
          Reads (k outputs) (c.advance (Symbol.keyword "returns" :: ts).length) a c' := by
  refine ⟨?_, ?_⟩
  · intro hr
    obtain ⟨stated, c₁, hstated, hr⟩ := bind_iff.mp hr
    obtain ⟨rest, hc, hstop, rfl⟩ := keyword?_iff.mp hstated
    cases stated with
    | false =>
      rw [optionalKeyword_false, List.nil_append] at hc
      exact .inl ⟨hc ▸ hstop, hr⟩
    | true =>
      obtain ⟨outputs, c₂, houtputs, hr⟩ := bind_iff.mp hr
      rw [optionalKeyword_true] at hc houtputs
      have hc₁ : c.symbols = [.keyword "returns"] ++ rest := hc
      obtain ⟨items', h', -⟩ := h.advance_closed (.leaf rfl .nil) hc₁
      obtain ⟨ts, rest', hc', hg, rfl⟩ := (parameters_iff h').mp houtputs
      rw [Cursor.symbols_advance_of_eq hc₁] at hc'
      refine .inr ⟨ts, outputs, rest', by rw [hc, hc']; rfl, hg, ?_⟩
      rw [List.length_cons, Nat.add_comm, ← Cursor.advance_advance]
      exact hr
  · intro hr
    rcases hr with ⟨hstop, hr⟩ | ⟨ts, outputs, rest, hc, hg, hr⟩
    · exact bind_iff.mpr ⟨false, c, keyword?_iff.mpr ⟨c.symbols, rfl, hstop, rfl⟩, hr⟩
    · obtain ⟨inner, hts, -⟩ := hg.closed_inside
      have hc' : c.symbols = [.keyword "returns"] ++ (ts ++ rest) := hc
      obtain ⟨items', h', -⟩ := h.advance_closed (.leaf rfl .nil) hc'
      refine bind_iff.mpr ⟨true, _, keyword?_iff.mpr ⟨_, hc', by simp [hts], rfl⟩, ?_⟩
      refine bind_iff.mpr ⟨outputs, _, (parameters_iff h').mpr ⟨ts, rest, ?_, hg, rfl⟩, ?_⟩
      · exact Cursor.symbols_advance_of_eq hc'
      · rw [List.length_singleton, Cursor.advance_advance, Nat.add_comm]
        exact hr

theorem returns_bind_iff {k : List Param → Reader α} (h : c.Holds depth items) :
    Reads (do
        let stated ← Reader.keyword? "returns"
        let outputs ← if stated then Reader.parameters false else pure []
        k outputs) c a c' ↔
      ∃ os outputs rest, c.symbols = os ++ rest ∧ Grammar.Returns os outputs ∧
        (os = [] → rest.head? ≠ some (.keyword "returns")) ∧
          Reads (k outputs) (c.advance os.length) a c' := by
  refine (returns_cases_iff (e := k []) h).trans ⟨?_, ?_⟩
  · intro hr
    rcases hr with ⟨hstop, hr⟩ | ⟨ts, outputs, rest, hc, hg, hr⟩
    · exact ⟨[], [], c.symbols, rfl, .omitted, fun _ => hstop, hr⟩
    · exact ⟨_, outputs, rest, hc, .stated hg, by simp, hr⟩
  · intro hr
    obtain ⟨os, outputs, rest, hc, ho, hstop, hr⟩ := hr
    cases ho with
    | omitted => exact .inl ⟨hc ▸ hstop rfl, hr⟩
    | stated hg => exact .inr ⟨_, outputs, rest, hc, hg, hr⟩

/-- The end of most declarations: nothing is left, and what was read is put together. -/
theorem endOfInput_bind_iff {x : Except Error α} :
    Reads (do Reader.endOfInput; Reader.liftExcept x) c a c' ↔
      c.symbols = [] ∧ x = .ok a ∧ c' = c := by
  rw [bind_iff]
  simp only [endOfInput_iff, liftExcept_iff]
  refine ⟨?_, ?_⟩
  · intro h
    obtain ⟨-, d, ⟨hs, rfl⟩, hx, rfl⟩ := h
    exact ⟨hs, hx, rfl⟩
  · intro h
    obtain ⟨hs, hx, rfl⟩ := h
    exact ⟨⟨⟩, c', ⟨hs, rfl⟩, hx, rfl⟩

/-- The last clause that a declaration may have is its gas. -/
theorem gas_end_iff {k : Option Nat → Except Error α} (h : c.Holds depth items) :
    Reads (do
        let gas ← Reader.gas
        Reader.endOfInput
        Reader.liftExcept (k gas)) c a c' ↔
      ∃ gas, Grammar.Gas c.symbols gas ∧ k gas = .ok a ∧ c' = c.advance c.symbols.length := by
  rw [bind_iff]
  simp only [gas_grammar_iff h, endOfInput_bind_iff]
  refine ⟨?_, ?_⟩
  · intro hr
    obtain ⟨gas, d, ⟨gs, rest, hc, hg, -, rfl⟩, hend, hk, rfl⟩ := hr
    rw [Cursor.symbols_advance_of_eq hc] at hend
    rw [hend, List.append_nil] at hc
    exact ⟨gas, hc ▸ hg, hk, by rw [hc]⟩
  · intro hr
    obtain ⟨gas, hg, hk, rfl⟩ := hr
    have hc : c.symbols = c.symbols ++ [] := (List.append_nil _).symm
    exact ⟨gas, _, ⟨c.symbols, [], hc, hg, by simp, rfl⟩, Cursor.symbols_advance_of_eq hc, hk, rfl⟩

/-- Declarations of nothing but a name and parameters. -/
theorem named_iff {opening : String} {mk : String → List Param → Except Error Declaration}
    {made : Identifier → List Param → Declaration} {d : Declaration} (h : c.Holds depth items)
    (hs : c.symbols.head? = some (.keyword opening)) (ho : opening ∈ Keyword.declarations)
    (hmk : ∀ name ps, (∀ p ∈ ps, p.indexed.isSome = false) → mk name.text ps = .ok (made name ps)) :
    Reads (do
        let name ← Reader.declaredName opening
        let inputs ← Reader.parameters false
        Reader.endOfInput
        Reader.liftExcept (mk name inputs)) c d c' ↔
      (∃ name is inputs, c.symbols = .keyword opening :: .identifier name.text :: is ∧
        Grammar.Group false is inputs ∧ d = made name inputs) ∧
        c' = c.advance c.symbols.length := by
  rw [named_bind_iff h hs ho]
  simp only [endOfInput_bind_iff]
  refine ⟨?_, ?_⟩
  · intro hr
    obtain ⟨name, is, inputs, rest, hc, hg, hend, hd, rfl⟩ := hr
    rw [Cursor.symbols_advance_of_eq hc] at hend
    rw [hmk name inputs hg.isSome_indexed, Except.ok.injEq] at hd
    rw [hend, List.append_nil] at hc
    exact ⟨⟨name, is, inputs, hc, hg, hd.symm⟩, by rw [hc]⟩
  · intro hr
    obtain ⟨⟨name, is, inputs, hc, hg, rfl⟩, rfl⟩ := hr
    refine ⟨name, is, inputs, [], by rw [hc, List.append_nil], hg, ?_,
      hmk name inputs hg.isSome_indexed, by rw [hc]⟩
    exact Cursor.symbols_advance_of_eq (by rw [hc, List.append_nil])

theorem eventDeclaration_iff {d : Declaration} (h : c.Holds depth items)
    (hs : c.symbols.head? = some (.keyword "event")) :
    Reads Reader.eventDeclaration c d c' ↔
      (∃ name is inputs anonymous,
        c.symbols = (.keyword "event" :: .identifier name.text :: is) ++
          optionalKeyword "anonymous" anonymous ∧
        Grammar.Group true is inputs ∧ d = .event name inputs anonymous) ∧
        c' = c.advance c.symbols.length := by
  rw [Reader.eventDeclaration, named_bind_iff h hs (by decide)]
  simp only [bind_iff (x := Reader.keyword? _), endOfInput_bind_iff]
  refine ⟨?_, ?_⟩
  · intro hr
    obtain ⟨name, is, inputs, rest, hc, hg, anonymous, c₁, hk, hend, hd, rfl⟩ := hr
    obtain ⟨rest', hc', -, rfl⟩ := keyword?_iff.mp hk
    rw [Cursor.symbols_advance_of_eq hc'] at hend
    rw [Cursor.symbols_advance_of_eq hc, hend, List.append_nil] at hc'
    subst hc'
    rw [Declaration.mkEvent_eq name hg.isSome_indexed, Except.ok.injEq] at hd
    exact ⟨⟨name, is, inputs, anonymous, hc, hg, hd.symm⟩, by rw [hc, Cursor.advance_append]⟩
  · intro hr
    obtain ⟨⟨name, is, inputs, anonymous, hc, hg, rfl⟩, rfl⟩ := hr
    have h₁ := Cursor.symbols_advance_of_eq hc
    have h₂ := Cursor.symbols_advance_of_eq (h₁.trans (List.append_nil _).symm)
    refine ⟨name, is, inputs, _, hc, hg, anonymous, _, keyword?_iff.mpr ⟨[], ?_, by simp, rfl⟩, h₂,
      Declaration.mkEvent_eq name hg.isSome_indexed anonymous, by rw [hc, Cursor.advance_append]⟩
    rw [h₁, List.append_nil]

theorem functionDeclaration_iff {d : Declaration} (h : c.Holds depth items)
    (hs : c.symbols.head? = some (.keyword "function")) :
    Reads Reader.functionDeclaration c d c' ↔
      (∃ name is vs os gs inputs outputs mutability gas,
        c.symbols = (.keyword "function" :: .identifier name.text :: is) ++ vs ++ os ++ gs ∧
        Grammar.Group false is inputs ∧ Grammar.Visibility vs mutability ∧
        Grammar.Returns os outputs ∧ Grammar.Gas gs gas ∧
        d = .function name mutability inputs outputs gas) ∧
        c' = c.advance c.symbols.length := by
  have hclosed {name : String} {is : List Symbol} {inputs : List Param}
      (hg : Grammar.Group false is inputs) :
      Closed false (.keyword "function" :: .identifier name :: is) :=
    .leaf rfl (.leaf rfl hg.closed)
  rw [Reader.functionDeclaration, named_bind_iff h hs (by decide)]
  refine ⟨?_, ?_⟩
  · intro hr
    obtain ⟨name, is, inputs, r₁, hc, hg, hr⟩ := hr
    obtain ⟨items₁, h₁, -⟩ := h.advance_closed (hclosed hg) hc
    obtain ⟨mutability, c₂, hm, hr⟩ := bind_iff.mp hr
    obtain ⟨vs, r₂, hvs, hv, -, rfl⟩ := mutability_iff.mp hm
    obtain ⟨items₂, h₂, -⟩ := h₁.advance_closed hv.closed hvs
    obtain ⟨os, outputs, gs, hos, ho, -, hr⟩ := (returns_bind_iff h₂).mp hr
    obtain ⟨items₃, h₃, -⟩ := h₂.advance_closed ho.closed hos
    obtain ⟨gas, hq, hd, rfl⟩ := (gas_end_iff h₃).mp hr
    rw [Declaration.mkFunction_eq name mutability hg.isSome_indexed ho.isSome_indexed gas,
      Except.ok.injEq] at hd
    rw [Cursor.symbols_advance_of_eq hos] at hq ⊢
    rw [Cursor.symbols_advance_of_eq hvs] at hos
    rw [Cursor.symbols_advance_of_eq hc, hos] at hvs
    rw [hvs, ← List.append_assoc, ← List.append_assoc] at hc
    refine ⟨⟨name, is, vs, os, gs, inputs, outputs, mutability, gas, hc, hg, hv, ho, hq, hd.symm⟩,
      ?_⟩
    rw [hc, Cursor.advance_append, Cursor.advance_append, Cursor.advance_append]
  · intro hr
    obtain ⟨⟨name, is, vs, os, gs, inputs, outputs, mutability, gas, hc, hg, hv, ho, hq, rfl⟩,
      rfl⟩ := hr
    have hc₀ := hc
    rw [List.append_assoc, List.append_assoc] at hc
    have hvs := Cursor.symbols_advance_of_eq hc
    have hos := Cursor.symbols_advance_of_eq hvs
    have hgs := Cursor.symbols_advance_of_eq hos
    obtain ⟨items₁, h₁, -⟩ := h.advance_closed (hclosed hg) hc
    obtain ⟨items₂, h₂, -⟩ := h₁.advance_closed hv.closed hvs
    obtain ⟨items₃, h₃, -⟩ := h₂.advance_closed ho.closed hos
    -- neither of the clauses that may follow begins with a word of the one before it
    have hstop : ∀ w, gs.head? ≠ some (.keyword w) := by
      intro w hk
      cases hq.head?_eq_some hk
    refine ⟨name, is, inputs, _, hc, hg, ?_⟩
    refine bind_iff.mpr ⟨mutability, _, mutability_iff.mpr
      ⟨vs, _, hvs, hv, fun _ => ho.not_mem_visibility hstop, rfl⟩, ?_⟩
    refine (returns_bind_iff h₂).mpr ⟨os, outputs, gs, hos, ho, fun _ => hstop _, ?_⟩
    refine (gas_end_iff h₃).mpr ⟨gas, hgs.symm ▸ hq,
      Declaration.mkFunction_eq name mutability hg.isSome_indexed ho.isSome_indexed gas, ?_⟩
    rw [hgs, hc₀, Cursor.advance_append, Cursor.advance_append, Cursor.advance_append]

/-- What stands before the clauses of a declaration without a name. -/
theorem unnamed_bind_iff {allowed : List String} {opening : String}
    {k : String → List Param → Reader α} (h : c.Holds depth items)
    (hs : c.symbols.head? = some (.keyword opening)) (ho : opening ∈ allowed) :
    Reads (do
        let word ← Reader.popKeyword allowed
        let inputs ← Reader.parameters false
        k word inputs) c a c' ↔
      ∃ (is : List Symbol) (inputs : List Param) (rest : List Symbol),
        c.symbols = (.keyword opening :: is) ++ rest ∧ Grammar.Group false is inputs ∧
          Reads (k opening inputs) (c.advance (Symbol.keyword opening :: is).length) a c' := by
  refine ⟨?_, ?_⟩
  · intro hr
    obtain ⟨word, c₁, hword, hr⟩ := bind_iff.mp hr
    obtain ⟨rest, hc, -, rfl⟩ := popKeyword_iff.mp hword
    obtain ⟨inputs, c₂, hinputs, hr⟩ := bind_iff.mp hr
    obtain rfl : word = opening := by simpa [hc] using hs
    have hc₁ : c.symbols = [.keyword word] ++ rest := hc
    obtain ⟨items', h', -⟩ := h.advance_closed (.leaf rfl .nil) hc₁
    obtain ⟨is, rest', hc', hg, rfl⟩ := (parameters_iff h').mp hinputs
    rw [Cursor.symbols_advance_of_eq hc₁] at hc'
    refine ⟨is, inputs, rest', by rw [hc, hc']; rfl, hg, ?_⟩
    rw [List.length_cons, Nat.add_comm, ← Cursor.advance_advance]
    exact hr
  · intro hr
    obtain ⟨is, inputs, rest, hc, hg, hr⟩ := hr
    have hc₁ : c.symbols = [.keyword opening] ++ (is ++ rest) := hc
    obtain ⟨items', h', -⟩ := h.advance_closed (.leaf rfl .nil) hc₁
    refine bind_iff.mpr ⟨opening, _, popKeyword_iff.mpr ⟨_, hc, ho, rfl⟩, ?_⟩
    refine bind_iff.mpr ⟨inputs, _, (parameters_iff h').mpr ⟨is, rest, ?_, hg, rfl⟩, ?_⟩
    · exact Cursor.symbols_advance_of_eq hc₁
    · rw [List.length_singleton, Cursor.advance_advance, Nat.add_comm]
      exact hr

theorem constructorDeclaration_iff {d : Declaration} (h : c.Holds depth items)
    (hs : c.symbols.head? = some (.keyword "constructor")) :
    Reads Reader.constructorDeclaration c d c' ↔
      (∃ is words gs inputs gas,
        c.symbols = (.keyword "constructor" :: is) ++ words.map .keyword ++ gs ∧
        Grammar.Group false is inputs ∧ Grammar.Words Keyword.deployment words ∧
        Grammar.Gas gs gas ∧ d = .constructor inputs (decide ("payable" ∈ words)) gas) ∧
        c' = c.advance c.symbols.length := by
  have hclosed {is : List Symbol} {inputs : List Param} (hg : Grammar.Group false is inputs) :
      Closed false (.keyword "constructor" :: is) := .leaf rfl hg.closed
  rw [Reader.constructorDeclaration, unnamed_bind_iff h hs (by decide)]
  refine ⟨?_, ?_⟩
  · intro hr
    obtain ⟨is, inputs, r₁, hc, hg, hr⟩ := hr
    obtain ⟨items₁, h₁, -⟩ := h.advance_closed (hclosed hg) hc
    obtain ⟨words, c₂, hwords, hr⟩ := bind_iff.mp hr
    obtain ⟨gs, hws, hw, -, rfl⟩ := words_iff.mp hwords
    obtain ⟨items₂, h₂, -⟩ := h₁.advance_closed (Grammar.closed_keywords words) hws
    obtain ⟨gas, hq, hd, rfl⟩ := (gas_end_iff h₂).mp hr
    rw [Declaration.mkConstructor_eq hg.isSome_indexed, Except.ok.injEq] at hd
    rw [Cursor.symbols_advance_of_eq hws] at hq ⊢
    rw [Cursor.symbols_advance_of_eq hc] at hws
    rw [hws, ← List.append_assoc] at hc
    refine ⟨⟨is, words, gs, inputs, gas, hc, hg, hw, hq, ?_⟩, ?_⟩
    · rw [← hd, ← List.elem_eq_mem, List.contains]
    · rw [hc, Cursor.advance_append, Cursor.advance_append]
  · intro hr
    obtain ⟨⟨is, words, gs, inputs, gas, hc, hg, hw, hq, rfl⟩, rfl⟩ := hr
    have hc₀ := hc
    rw [List.append_assoc] at hc
    have hws := Cursor.symbols_advance_of_eq hc
    have hgs := Cursor.symbols_advance_of_eq hws
    obtain ⟨items₁, h₁, -⟩ := h.advance_closed (hclosed hg) hc
    obtain ⟨items₂, h₂, -⟩ := h₁.advance_closed (Grammar.closed_keywords words) hws
    have hstop : ∀ w, gs.head? = some (.keyword w) → w ∉ Keyword.deployment := by
      intro w hk
      cases hq.head?_eq_some hk
    refine ⟨is, inputs, _, hc, hg, ?_⟩
    refine bind_iff.mpr ⟨words, _, words_iff.mpr ⟨gs, hws, hw, hstop, rfl⟩, ?_⟩
    refine (gas_end_iff h₂).mpr ⟨gas, hgs.symm ▸ hq, ?_, ?_⟩
    · rw [Declaration.mkConstructor_eq hg.isSome_indexed, ← List.elem_eq_mem, List.contains]
    · rw [hgs, hc₀, Cursor.advance_append, Cursor.advance_append]

theorem isBytesOnly_iff {ps : List Param} : Reader.isBytesOnly ps = true ↔ Grammar.IsBytes ps := by
  unfold Reader.isBytesOnly Grammar.IsBytes Ty.isBytes
  split
  next p => simp
  next hne =>
    refine iff_of_false (by simp) fun h => ?_
    obtain ⟨p, hp, -⟩ := h
    exact hne p hp

theorem takes_iff {ps : List Param} :
    ¬ (!ps.isEmpty && !Reader.isBytesOnly ps) = true ↔ ps = [] ∨ Grammar.IsBytes ps := by
  rw [← isBytesOnly_iff, ← List.isEmpty_iff]
  cases ps.isEmpty <;> simp

/-- Both ways through what may follow the inputs of a fallback end alike. -/
theorem fallbackAfter_eq (offset : Option Nat) (inputs : List Param) (mutability : Mutability) :
    ∃ last : Reader Declaration,
      (Reader.fallbackAfter offset inputs mutability = do
        if !inputs.isEmpty && !Reader.isBytesOnly inputs then Reader.fail .fallbackInputs offset
        if ← Reader.keyword? "returns" then
          let outputs ← Reader.parameters false
          if !Reader.isBytesOnly outputs then Reader.fail .fallbackOutputs offset
        last) ∧
      ∀ {d : Declaration} {c c' : Cursor}, Reads last c d c' ↔
        ∃ payable, mutability = (if payable then .payable else .nonpayable) ∧
          d = .fallback payable ∧ c' = c := by
  cases mutability <;> exact ⟨_, rfl, by simp⟩

/-- The outputs of a fallback are looked at only where they are stated. -/
theorem fallbackAfter_iff {offset : Option Nat} {inputs : List Param} {mutability : Mutability}
    {d : Declaration} (h : c.Holds depth items) :
    Reads (Reader.fallbackAfter offset inputs mutability) c d c' ↔
      ∃ payable os outputs rest, c.symbols = os ++ rest ∧
        (inputs = [] ∨ Grammar.IsBytes inputs) ∧
        mutability = (if payable then .payable else .nonpayable) ∧
        Grammar.Returns os outputs ∧ (os = [] ∨ Grammar.IsBytes outputs) ∧
        (os = [] → rest.head? ≠ some (.keyword "returns")) ∧
        d = .fallback payable ∧ c' = c.advance os.length := by
  obtain ⟨last, heq, hlast⟩ := fallbackAfter_eq offset inputs mutability
  rw [heq]
  by_cases hin : (!inputs.isEmpty && !Reader.isBytesOnly inputs) = true
  · have hno : ¬ (inputs = [] ∨ Grammar.IsBytes inputs) := fun ht => takes_iff.mpr ht hin
    simp only [hin, if_true, fail_bind_iff, hno, false_and, and_false, exists_false]
  have ht := takes_iff.mp hin
  simp only [hin]
  refine (returns_cases_iff h).trans ⟨?_, ?_⟩
  · intro hr
    rcases hr with ⟨hstop, hr⟩ | ⟨ts, outputs, rest, hc, hg, hr⟩
    · obtain ⟨payable, hm, rfl, rfl⟩ := hlast.mp hr
      exact ⟨payable, [], [], _, rfl, ht, hm, .omitted, .inl rfl, fun _ => hstop, rfl, rfl⟩
    · split at hr
      · exact absurd hr fail_bind_iff
      next hb =>
        obtain ⟨payable, hm, rfl, rfl⟩ := hlast.mp hr
        have hbytes : Grammar.IsBytes outputs := isBytesOnly_iff.mp (by simpa using hb)
        exact ⟨payable, _, outputs, rest, hc, ht, hm, .stated hg, .inr hbytes, by simp, rfl, rfl⟩
  · intro hr
    obtain ⟨payable, os, outputs, rest, hc, -, hm, ho, hb, hstop, rfl, rfl⟩ := hr
    cases ho with
    | omitted => exact .inl ⟨hc ▸ hstop rfl, hlast.mpr ⟨payable, hm, rfl, rfl⟩⟩
    | stated hg =>
      have hbytes : Grammar.IsBytes outputs := hb.resolve_left (List.cons_ne_nil _ _)
      refine .inr ⟨_, outputs, rest, hc, hg, ?_⟩
      rw [if_neg (by simp [isBytesOnly_iff.mpr hbytes])]
      exact hlast.mpr ⟨payable, hm, rfl, rfl⟩

theorem receiveAfter_iff {offset : Option Nat} {inputs : List Param} {mutability : Mutability}
    {d : Declaration} :
    Reads (Reader.receiveAfter offset inputs mutability) c d c' ↔
      inputs = [] ∧ mutability = .payable ∧ d = .receive ∧ c' = c := by
  unfold Reader.receiveAfter
  cases inputs with
  | nil => cases mutability <;> simp
  | cons p ps => simp

/-- What stands before the end of a declaration without a name that has no gas. -/
theorem answering_iff {opening : String} {d : Declaration} (h : c.Holds depth items)
    (hs : c.symbols.head? = some (.keyword opening)) (ho : opening ∈ ["fallback", "receive"]) :
    Reads Reader.fallbackDeclaration c d c' ↔
      ∃ is vs inputs mutability rest, c.symbols = (.keyword opening :: is) ++ vs ++ rest ∧
        Grammar.Group false is inputs ∧ Grammar.Visibility vs mutability ∧
        (∀ w, rest.head? = some (.keyword w) → w ∉ Keyword.visibility) ∧
        Reads (if opening = "receive" then Reader.receiveAfter c.offset? inputs mutability
          else Reader.fallbackAfter c.offset? inputs mutability)
          (c.advance (Symbol.keyword opening :: is ++ vs).length) d c' ∧ c'.symbols = [] := by
  unfold Reader.fallbackDeclaration
  obtain ⟨ss, hss⟩ := List.head?_eq_some_iff.mp hs
  obtain ⟨t, hpeek, -⟩ := Cursor.symbols_eq_cons.mp hss
  rw [peek_bind_iff, Cursor.offset?]
  simp only [hpeek, Option.some.injEq, exists_eq_left', unnamed_bind_iff h hs ho, Option.map_some]
  have hend {r : Reader Declaration} {c : Cursor} :
      Reads (do
        let d ← r
        Reader.endOfInput
        pure d) c d c' ↔ Reads r c d c' ∧ c'.symbols = [] := by
    simp only [bind_iff, endOfInput_iff, pure_iff]
    refine ⟨?_, ?_⟩
    · intro hr
      obtain ⟨d', c₁, hr, -, c₂, ⟨hs, rfl⟩, rfl, rfl⟩ := hr
      exact ⟨hr, hs⟩
    · intro hr
      exact ⟨d, c', hr.1, ⟨⟩, c', ⟨hr.2, rfl⟩, rfl, rfl⟩
  refine ⟨?_, ?_⟩
  · intro hr
    obtain ⟨is, inputs, r₁, hc, hg, hr⟩ := hr
    obtain ⟨mutability, c₂, hm, hr⟩ := bind_iff.mp hr
    obtain ⟨vs, r₂, hvs, hv, hstop, rfl⟩ := mutability_iff.mp hm
    rw [Cursor.symbols_advance_of_eq hc] at hvs
    rw [hvs, ← List.append_assoc] at hc
    refine ⟨is, vs, inputs, mutability, r₂, hc, hg, hv, hstop, ?_⟩
    rw [Cursor.advance_append]
    split at hr
    next he =>
      rw [if_pos he]
      exact hend.mp hr
    next he =>
      rw [if_neg he]
      exact hend.mp hr
  · intro hr
    obtain ⟨is, vs, inputs, mutability, rest, hc, hg, hv, hstop, hr⟩ := hr
    rw [List.append_assoc] at hc
    refine ⟨is, inputs, _, hc, hg, ?_⟩
    refine bind_iff.mpr ⟨mutability, _, mutability_iff.mpr
      ⟨vs, rest, Cursor.symbols_advance_of_eq hc, hv, hstop, rfl⟩, ?_⟩
    rw [Cursor.advance_append] at hr
    split at hr
    next he =>
      rw [if_pos he]
      exact hend.mpr hr
    next he =>
      rw [if_neg he]
      exact hend.mpr hr

theorem receive_iff {d : Declaration} (h : c.Holds depth items)
    (hs : c.symbols.head? = some (.keyword "receive")) :
    Reads Reader.fallbackDeclaration c d c' ↔
      (∃ vs, c.symbols = (.keyword "receive" :: .openParen :: [.closeParen]) ++ vs ∧
        Grammar.Visibility vs .payable ∧ d = .receive) ∧ c' = c.advance c.symbols.length := by
  rw [answering_iff h hs (by decide)]
  simp only [if_true, receiveAfter_iff]
  refine ⟨?_, ?_⟩
  · intro hr
    obtain ⟨is, vs, inputs, m, rest, hc, hg, hv, -, ⟨rfl, rfl, rfl, rfl⟩, hend⟩ := hr
    obtain rfl := Grammar.group_nil_iff.mp hg
    rw [Cursor.symbols_advance_of_eq hc] at hend
    rw [hend, List.append_nil] at hc
    exact ⟨⟨vs, hc, hv, rfl⟩, by rw [hc]⟩
  · intro hr
    obtain ⟨⟨vs, hc, hv, rfl⟩, rfl⟩ := hr
    have hc' := hc.trans (List.append_nil _).symm
    refine ⟨_, vs, [], .payable, [], hc', .empty, hv, by simp, ⟨rfl, rfl, rfl, by rw [hc]⟩, ?_⟩
    rw [hc]
    exact Cursor.symbols_advance_of_eq hc'

theorem fallback_iff {d : Declaration} (h : c.Holds depth items)
    (hs : c.symbols.head? = some (.keyword "fallback")) :
    Reads Reader.fallbackDeclaration c d c' ↔
      (∃ is vs os inputs outputs payable,
        c.symbols = (.keyword "fallback" :: is) ++ vs ++ os ∧ Grammar.Group false is inputs ∧
        (inputs = [] ∨ Grammar.IsBytes inputs) ∧
        Grammar.Visibility vs (if payable then .payable else .nonpayable) ∧
        Grammar.Returns os outputs ∧ (os = [] ∨ Grammar.IsBytes outputs) ∧
        d = .fallback payable) ∧ c' = c.advance c.symbols.length := by
  have hafter {is vs rest : List Symbol} {inputs : List Param} {m : Mutability}
      (hc : c.symbols = (.keyword "fallback" :: is) ++ vs ++ rest)
      (hg : Grammar.Group false is inputs) (hv : Grammar.Visibility vs m) :
      ∃ items', (c.advance (Symbol.keyword "fallback" :: is ++ vs).length).Holds depth items' := by
    have hclosed : Closed false (.keyword "fallback" :: is) := .leaf rfl hg.closed
    obtain ⟨items', h', -⟩ := h.advance_closed (hclosed.append hv.closed) hc
    exact ⟨items', h'⟩
  rw [answering_iff h hs (by decide)]
  simp only [show ("fallback" = "receive") = False by decide, if_false]
  refine ⟨?_, ?_⟩
  · intro hr
    obtain ⟨is, vs, inputs, m, rest, hc, hg, hv, -, hr, hend⟩ := hr
    obtain ⟨items', h'⟩ := hafter hc hg hv
    obtain ⟨payable, os, outputs, rest', hos, ht, rfl, ho, hb, -, rfl, rfl⟩ :=
      (fallbackAfter_iff h').mp hr
    rw [Cursor.symbols_advance_of_eq hos] at hend
    rw [Cursor.symbols_advance_of_eq hc, hend, List.append_nil] at hos
    subst hos
    exact ⟨⟨is, vs, rest, inputs, outputs, payable, hc, hg, ht, hv, ho, hb, rfl⟩,
      by rw [hc, Cursor.advance_append c (Symbol.keyword "fallback" :: is ++ vs)]⟩
  · intro hr
    obtain ⟨⟨is, vs, os, inputs, outputs, payable, hc, hg, ht, hv, ho, hb, rfl⟩, rfl⟩ := hr
    obtain ⟨items', h'⟩ := hafter hc hg hv
    have hos := (Cursor.symbols_advance_of_eq hc).trans (List.append_nil _).symm
    refine ⟨is, vs, inputs, _, os, hc, hg, hv, ho.not_visibility, (fallbackAfter_iff h').mpr
      ⟨payable, os, outputs, [], hos, ht, rfl, ho, hb, by simp, rfl, ?_⟩, ?_⟩
    · rw [hc, Cursor.advance_append c (Symbol.keyword "fallback" :: is ++ vs)]
    · rw [hc, Cursor.advance_append c (Symbol.keyword "fallback" :: is ++ vs)]
      exact Cursor.symbols_advance_of_eq hos

/-- No word opens declarations of two kinds. -/
theorem kind_eq_of_mem_words {kind other : Declaration.Kind} {word : String}
    (h : word ∈ kind.words) (h' : word ∈ other.words) : kind = other := by
  have hdisjoint : kind ≠ other → ∀ w ∈ kind.words, w ∉ other.words := by
    cases kind <;> cases other <;> decide
  by_contra hne
  exact hdisjoint hne word h h'

/-- Every declaration is read by the reader of its kind. -/
theorem declaration_iff {d : Declaration} :
    Reads Reader.declaration c d c' ↔
      ∃ kind word, c.symbols.head? = some (.keyword word) ∧ word ∈ kind.words ∧
        Reads (Reader.declarationOf kind) c d c' := by
  have hword (kind : Declaration.Kind) :
      (c.peekKeyword? Keyword.declarations).any kind.words.contains = true ↔
        ∃ word, c.symbols.head? = some (.keyword word) ∧ word ∈ kind.words := by
    rw [Option.any_eq_true]
    simp only [Cursor.peekKeyword?_eq_some, List.contains_iff_mem, List.head?_eq_some_iff]
    apply exists_congr
    intro word
    have hsub : word ∈ kind.words → word ∈ Keyword.declarations := by
      cases kind <;> revert word <;> decide
    refine ⟨?_, ?_⟩
    · intro h
      exact ⟨h.1.1, h.2⟩
    · intro h
      exact ⟨⟨h.1, hsub h.2⟩, h.2⟩
  unfold Reader.declaration
  rw [get_bind_iff]
  dsimp only
  split
  next kind hfind =>
    -- the first kind that fits is the only one, whatever the order in which they are tried
    have hany := List.find?_some hfind
    obtain ⟨word, hs, hm⟩ := (hword kind).mp hany
    refine ⟨fun hr => ⟨kind, word, hs, hm, hr⟩, ?_⟩
    intro hr
    obtain ⟨kind', word', hs', hm', hr⟩ := hr
    obtain rfl : word = word' := by simpa [hs] using hs'
    rwa [kind_eq_of_mem_words hm hm']
  next hfind =>
    refine iff_of_false throw_iff fun hr => ?_
    obtain ⟨kind, word, hs, hm, -⟩ := hr
    have hmem : kind ∈ Declaration.Kind.all := by cases kind <;> decide
    exact List.find?_eq_none.mp hfind kind hmem ((hword kind).mpr ⟨word, hs, hm⟩)

theorem errorDeclaration_iff {d : Declaration} (h : c.Holds depth items)
    (hs : c.symbols.head? = some (.keyword "error")) :
    Reads Reader.errorDeclaration c d c' ↔
      (∃ name is inputs, c.symbols = .keyword "error" :: .identifier name.text :: is ∧
        Grammar.Group false is inputs ∧ d = .error name inputs) ∧
        c' = c.advance c.symbols.length := by
  apply named_iff h hs (by decide)
  intro name ps hps
  exact Declaration.mkError_eq name hps

theorem structDeclaration_iff {d : Declaration} (h : c.Holds depth items)
    (hs : c.symbols.head? = some (.keyword "struct")) :
    Reads Reader.structDeclaration c d c' ↔
      (∃ name is inputs, c.symbols = .keyword "struct" :: .identifier name.text :: is ∧
        Grammar.Group false is inputs ∧ d = .struct name inputs) ∧
        c' = c.advance c.symbols.length := by
  apply named_iff h hs (by decide)
  intro name ps hps
  exact Declaration.mkStruct_eq name hps

theorem declares_of_reads {d : Declaration} (h : c.Holds depth items)
    (hr : Reads Reader.declaration c d c') :
    Grammar.Declares c.symbols d ∧ c' = c.advance c.symbols.length := by
  obtain ⟨kind, word, hs, hm, hr⟩ := declaration_iff.mp hr
  cases kind with
  | constructor =>
    obtain rfl := List.mem_singleton.mp hm
    obtain ⟨⟨is, words, gs, inputs, gas, hc, hg, hw, hq, rfl⟩, hend⟩ :=
      (constructorDeclaration_iff h hs).mp hr
    exact ⟨hc ▸ .constructor hg hw hq, hend⟩
  | error =>
    obtain rfl := List.mem_singleton.mp hm
    obtain ⟨⟨name, is, inputs, hc, hg, rfl⟩, hend⟩ := (errorDeclaration_iff h hs).mp hr
    exact ⟨hc ▸ .error name hg, hend⟩
  | event =>
    obtain rfl := List.mem_singleton.mp hm
    obtain ⟨⟨name, is, inputs, anonymous, hc, hg, rfl⟩, hend⟩ :=
      (eventDeclaration_iff h hs).mp hr
    exact ⟨hc ▸ .event name anonymous hg, hend⟩
  | fallback =>
    obtain rfl | hm := List.mem_cons.mp hm
    · obtain ⟨⟨is, vs, os, inputs, outputs, payable, hc, hg, ht, hv, ho, hb, rfl⟩, hend⟩ :=
        (fallback_iff h hs).mp hr
      exact ⟨hc ▸ .fallback payable hg ht hv ho hb, hend⟩
    · obtain rfl := List.mem_singleton.mp hm
      obtain ⟨⟨vs, hc, hv, rfl⟩, hend⟩ := (receive_iff h hs).mp hr
      exact ⟨hc ▸ .receive hv, hend⟩
  | function =>
    obtain rfl := List.mem_singleton.mp hm
    obtain ⟨⟨name, is, vs, os, gs, inputs, outputs, m, gas, hc, hg, hv, ho, hq, rfl⟩, hend⟩ :=
      (functionDeclaration_iff h hs).mp hr
    exact ⟨hc ▸ .function name hg hv ho hq, hend⟩
  | struct =>
    obtain rfl := List.mem_singleton.mp hm
    obtain ⟨⟨name, is, inputs, hc, hg, rfl⟩, hend⟩ := (structDeclaration_iff h hs).mp hr
    exact ⟨hc ▸ .struct name hg, hend⟩

theorem reads_of_declares {d : Declaration} (h : c.Holds depth items)
    (hd : Grammar.Declares c.symbols d) :
    Reads Reader.declaration c d (c.advance c.symbols.length) := by
  obtain ⟨ss, hc⟩ : ∃ ss, c.symbols = ss := ⟨_, rfl⟩
  rw [hc] at hd
  apply declaration_iff.mpr
  cases hd with
  | constructor hg hw hq =>
    have hs : c.symbols.head? = some (.keyword "constructor") := by rw [hc]; rfl
    exact ⟨.constructor, _, hs, by decide, (constructorDeclaration_iff h hs).mpr
      ⟨⟨_, _, _, _, _, hc, hg, hw, hq, rfl⟩, rfl⟩⟩
  | error name hg =>
    have hs : c.symbols.head? = some (.keyword "error") := by rw [hc]; rfl
    exact ⟨.error, _, hs, by decide, (errorDeclaration_iff h hs).mpr
      ⟨⟨name, _, _, hc, hg, rfl⟩, rfl⟩⟩
  | struct name hg =>
    have hs : c.symbols.head? = some (.keyword "struct") := by rw [hc]; rfl
    exact ⟨.struct, _, hs, by decide, (structDeclaration_iff h hs).mpr
      ⟨⟨name, _, _, hc, hg, rfl⟩, rfl⟩⟩
  | event name anonymous hg =>
    have hs : c.symbols.head? = some (.keyword "event") := by rw [hc]; rfl
    exact ⟨.event, _, hs, by decide, (eventDeclaration_iff h hs).mpr
      ⟨⟨name, _, _, anonymous, hc, hg, rfl⟩, rfl⟩⟩
  | function name hg hv ho hq =>
    have hs : c.symbols.head? = some (.keyword "function") := by rw [hc]; rfl
    exact ⟨.function, _, hs, by decide, (functionDeclaration_iff h hs).mpr
      ⟨⟨name, _, _, _, _, _, _, _, _, hc, hg, hv, ho, hq, rfl⟩, rfl⟩⟩
  | fallback payable hg ht hv ho hb =>
    have hs : c.symbols.head? = some (.keyword "fallback") := by rw [hc]; rfl
    exact ⟨.fallback, _, hs, by decide, (fallback_iff h hs).mpr
      ⟨⟨_, _, _, _, _, payable, hc, hg, ht, hv, ho, hb, rfl⟩, rfl⟩⟩
  | receive hv =>
    have hs : c.symbols.head? = some (.keyword "receive") := by rw [hc]; rfl
    exact ⟨.fallback, _, hs, by decide, (receive_iff h hs).mpr ⟨⟨_, hc, hv, rfl⟩, rfl⟩⟩

/-- A declaration is read just when the grammar derives it, and it is read to the end. -/
theorem declares_iff {d : Declaration} (h : c.Holds depth items) :
    Reads Reader.declaration c d c' ↔
      Grammar.Declares c.symbols d ∧ c' = c.advance c.symbols.length := by
  refine ⟨declares_of_reads h, ?_⟩
  intro hd
  obtain ⟨hd, rfl⟩ := hd
  exact reads_of_declares h hd

end Reads

end ContractAbi
