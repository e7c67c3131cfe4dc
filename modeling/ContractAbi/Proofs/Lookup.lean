import ContractAbi.Interface
import ContractAbi.Proofs.Canonical

/-!
Looking up declarations. A key with a parenthesis is a sighash, which says as much as the name and
the types of the inputs; any other key is a name. Whatever is of another kind is passed over.
-/

namespace ContractAbi

namespace Declaration

/-- The same name and, input by input, the same types. -/
def SameSignature (d e : Declaration) : Prop :=
  d.name? = e.name? ∧ d.inputs.map (·.type.text) = e.inputs.map (·.type.text)

instance (d e : Declaration) : Decidable (d.SameSignature e) :=
  inferInstanceAs (Decidable (d.name? = e.name? ∧ _ = _))

/-- Called by this name. -/
def Named (key : String) (d : Declaration) : Prop := d.name?.map Identifier.text = some key

instance (key : String) (d : Declaration) : Decidable (d.Named key) :=
  inferInstanceAs (Decidable (_ = _))

variable {d e : Declaration} {n : Identifier} {key : String}

theorem map_text_eq_iff {ps qs : List Param} :
    ps.map (·.type.text) = qs.map (·.type.text) ↔ ps.map Param.erase = qs.map Param.erase := by
  have hone (p q : Param) : p.type.text = q.type.text ↔ p.erase = q.erase := by
    rw [Ty.text_eq, Ty.text_eq, Ty.canonical_inj (.inl rfl)]
    simp [Param.erase]
  simp only [← List.forall₂_eq_eq_eq, List.forall₂_map_left_iff, List.forall₂_map_right_iff, hone]

theorem print_sighash_eq_iff (hd : ∃ n, d.name? = some n) (he : ∃ m, e.name? = some m) :
    d.print .sighash = e.print .sighash ↔ d.SameSignature e := by
  obtain ⟨n, hn⟩ := hd
  obtain ⟨m, hm⟩ := he
  rw [print_sighash_inj hn hm, SameSignature, hn, hm, Option.some.injEq, map_text_eq_iff]

theorem print_sighash_eq_ok_iff : d.print .sighash = .ok key ↔ d.sighash? = some key := by
  rw [print, sighash]
  cases d.sighash? with
  | none => simp
  | some text => rw [Except.ok.injEq, Option.some.injEq]

theorem openParen_mem_sighash (h : d.print .sighash = .ok key) : '(' ∈ key.toList := by
  cases hn : d.name? with
  | none =>
    rw [print_sighash_eq_ok_iff, sighash?, hn] at h
    cases h
  | some name =>
    obtain ⟨rest, hr⟩ := Ty.toList_canonical_tuple d.inputs
    rw [print_sighash hn] at h
    rw [← Except.ok.inj h, String.toList_append, hr]
    exact List.mem_append_right _ List.mem_cons_self

end Declaration

namespace Interface

open Declaration

variable {i : Interface} {kind : Kind} {key : String} {d : Declaration}

theorem answersTo_sighash (h : '(' ∈ key.toList) :
    answersTo key d = true ↔ d.print .sighash = .ok key := by
  rw [answersTo, if_pos (by simpa using h), beq_iff_eq, print_sighash_eq_ok_iff]

theorem answersTo_name (h : '(' ∉ key.toList) : answersTo key d = true ↔ d.Named key := by
  rw [answersTo, if_neg (by simpa using h), beq_iff_eq, Named]

/-- The declaration found is the only one that answers. -/
theorem find_eq_ok_iff :
    i.find kind key = .ok d ↔ ∃ before after, i.ofKind kind = before ++ d :: after ∧
      answersTo key d = true ∧ ∀ g ∈ before ++ after, ¬answersTo key g = true := by
  have hfind : i.find kind key = .ok d ↔ (i.ofKind kind).filter (answersTo key) = [d] := by
    rw [find]
    split
    next found h => rw [h, Except.ok.injEq, List.singleton_inj]
    next h => rw [h]; exact iff_of_false nofun nofun
    next h _ => exact iff_of_false nofun fun hd => h d hd
  simp only [hfind, List.filter_eq_cons_iff, List.filter_eq_nil_iff, List.forall_mem_append]
  constructor
  · rintro ⟨before, after, h, hb, hd, ha⟩
    exact ⟨before, after, h, hd, hb, ha⟩
  · rintro ⟨before, after, h, hd, hb, ha⟩
    exact ⟨before, after, h, hb, hd, ha⟩

theorem find_eq_noMatch (h : ∀ g ∈ i.ofKind kind, ¬answersTo key g = true) :
    i.find kind key = .error (.argument (.noMatch kind key)) := by
  rw [find, List.filter_eq_nil_iff.mpr h]

theorem find_eq_ambiguous {before after : List Declaration}
    (h : i.ofKind kind = before ++ d :: after) (hd : answersTo key d = true)
    (hg : ∃ g ∈ before ++ after, answersTo key g = true) :
    i.find kind key = .error (.argument (.ambiguous kind key)) := by
  rw [find]
  split
  next found hf =>
    -- two places in the list leave two declarations after the filter
    obtain ⟨g, hmem, hg⟩ := hg
    have hlength := congrArg List.length hf
    rw [h, List.filter_append, List.filter_cons_of_pos hd] at hlength
    have hpos : 0 < ((before ++ after).filter (answersTo key)).length :=
      List.length_pos_of_mem (List.mem_filter.mpr ⟨hmem, hg⟩)
    rw [List.filter_append] at hpos
    simp only [List.length_append, List.length_cons, List.length_nil] at hlength hpos
    omega
  next hf =>
    have hmem : d ∈ i.ofKind kind := h ▸ List.mem_append_right before List.mem_cons_self
    exact absurd hd (List.filter_eq_nil_iff.mp hf d hmem)
  next => rfl

theorem exists_name_of_mem_ofKind (hk : kind = .function ∨ kind = .event ∨ kind = .error)
    (h : d ∈ i.ofKind kind) : ∃ name, d.name? = some name := by
  obtain rfl : d.kind = kind := beq_iff_eq.mp (List.mem_filter.mp h).2
  cases d with
  | error name | event name | function name | struct name => exact ⟨name, rfl⟩
  | constructor | fallback | receive => simp [Declaration.kind] at hk

theorem ofKind_insert {before after : List Declaration} (h : d.kind ≠ kind) :
    ofKind ⟨before ++ d :: after⟩ kind = ofKind ⟨before ++ after⟩ kind := by
  rw [ofKind, ofKind, List.filter_append, List.filter_cons_of_neg (by simpa using h),
    List.filter_append]

/-- A sighash leads back to its declaration, unless it is the sighash of another one too. -/
theorem find_sighash (hk : kind = .function ∨ kind = .event ∨ kind = .error)
    {before after : List Declaration} (h : i.ofKind kind = before ++ d :: after)
    (hkey : d.print .sighash = .ok key) :
    (i.find kind key = .ok d ↔ ∀ g ∈ before ++ after, ¬g.SameSignature d) ∧
    ((∃ g ∈ before ++ after, g.SameSignature d) →
      i.find kind key = .error (.argument (.ambiguous kind key))) := by
  have hparen : '(' ∈ key.toList := openParen_mem_sighash hkey
  have hd : answersTo key d = true := (answersTo_sighash hparen).mpr hkey
  have hname : ∀ g ∈ before ++ d :: after, ∃ name, g.name? = some name :=
    fun g hg => exists_name_of_mem_ofKind hk (h ▸ hg)
  have hsame : ∀ g ∈ before ++ after, answersTo key g = true ↔ g.SameSignature d := by
    intro g hg
    have hg : g ∈ before ++ d :: after := by
      rw [List.mem_append, List.mem_cons]
      exact (List.mem_append.mp hg).imp_right .inr
    rw [answersTo_sighash hparen, ← hkey, print_sighash_eq_iff (hname g hg)
      (hname d (List.mem_append_right before List.mem_cons_self))]
  have hmany (hg : ∃ g ∈ before ++ after, g.SameSignature d) :
      i.find kind key = .error (.argument (.ambiguous kind key)) := by
    obtain ⟨g, hg, hs⟩ := hg
    exact find_eq_ambiguous h hd ⟨g, hg, (hsame g hg).mpr hs⟩
  refine ⟨⟨fun hfind g hg hs => ?_, fun hone => ?_⟩, hmany⟩
  · rw [hmany ⟨g, hg, hs⟩] at hfind
    cases hfind
  · exact find_eq_ok_iff.mpr
      ⟨before, after, h, hd, fun g hg => mt (hsame g hg).mp (hone g hg)⟩

end Interface

/-- Functions, events and errors are found by their sighash where no other of the kind has the same
name and the same types of inputs, and by their name where no other has it. -/
theorem find_by_signature_or_name (i : Interface) (kind : Declaration.Kind)
    (hk : kind = .function ∨ kind = .event ∨ kind = .error) :
    (∀ before f after, i.ofKind kind = before ++ f :: after → ∃ key,
      f.print .sighash = .ok key ∧
      (i.find kind key = .ok f ↔ ∀ g ∈ before ++ after, ¬g.SameSignature f) ∧
      ((∃ g ∈ before ++ after, g.SameSignature f) →
        i.find kind key = .error (.argument (.ambiguous kind key)))) ∧
    (∀ key, '(' ∈ key.toList → (∀ f ∈ i.ofKind kind, f.print .sighash ≠ .ok key) →
      i.find kind key = .error (.argument (.noMatch kind key))) ∧
    (∀ key, '(' ∉ key.toList →
      ((∀ f ∈ i.ofKind kind, ¬f.Named key) →
        i.find kind key = .error (.argument (.noMatch kind key))) ∧
      ∀ f, i.find kind key = .ok f ↔ ∃ before after, i.ofKind kind = before ++ f :: after ∧
        f.Named key ∧ ∀ g ∈ before ++ after, ¬g.Named key) ∧
    ∀ before d after, i.declarations = before ++ d :: after → d.kind ≠ kind →
      ∀ key, (Interface.mk (before ++ after)).find kind key = i.find kind key := by
  refine ⟨?_, ?_, ?_, ?_⟩
  · intro before f after h
    have hf : f ∈ i.ofKind kind := h ▸ List.mem_append_right before List.mem_cons_self
    obtain ⟨name, hn⟩ := Interface.exists_name_of_mem_ofKind hk hf
    have hkey := Declaration.print_sighash hn
    exact ⟨_, hkey, Interface.find_sighash hk h hkey⟩
  · intro key hkey hnone
    exact Interface.find_eq_noMatch fun f hf =>
      mt (Interface.answersTo_sighash hkey).mp (hnone f hf)
  · intro key hkey
    refine ⟨fun hnone => ?_, fun f => ?_⟩
    · exact Interface.find_eq_noMatch fun f hf =>
        mt (Interface.answersTo_name hkey).mp (hnone f hf)
    · simp only [Interface.find_eq_ok_iff, Interface.answersTo_name hkey]
  · intro before d after h hd key
    obtain ⟨declarations⟩ := i
    obtain rfl : declarations = before ++ d :: after := h
    rw [Interface.find, Interface.find, Interface.ofKind_insert hd]

/-- Three functions with one name, two of them with the same types of inputs, and an event. -/
theorem find_by_signature_or_name_overloads :
    let e : Declaration := .event ⟨"f", by decide⟩ [⟨none, some true, .elementary .bool⟩] false
    let f : Declaration := .function ⟨"f", by decide⟩ .view [.ofType (.elementary .bool)] [] none
    let g : Declaration := .function ⟨"f", by decide⟩ .pure [.ofType (.tuple [])] [] none
    let h : Declaration := .function ⟨"f", by decide⟩ .payable
      [⟨some ⟨"a", by decide⟩, none, .tuple []⟩] [] (some 9)
    let i : Interface := ⟨[f, e, g, h]⟩
    i.find .function "f(bool)" = .ok f ∧
      i.find .function "f(())" = .error (.argument (.ambiguous .function "f(())")) ∧
      i.find .function "f()" = .error (.argument (.noMatch .function "f()")) ∧
      i.find .function "e" = .error (.argument (.noMatch .function "e")) ∧
      i.find .event "f" = .ok e ∧
      (Interface.mk [f, g, h]).find .function "f" = i.find .function "f" := by
  intro e f g h i
  obtain ⟨hsighash, hunknown, hname, hothers⟩ := find_by_signature_or_name i .function (.inl rfl)
  obtain ⟨-, -, hevent, -⟩ := find_by_signature_or_name i .event (.inr (.inl rfl))
  obtain ⟨fkey, hf, hfound, -⟩ := hsighash [] f [g, h] (by decide)
  obtain rfl : fkey = "f(bool)" := Except.ok.inj (hf.symm.trans (eq_ok_of_toOption (by decide)))
  obtain ⟨gkey, hg, -, hmany⟩ := hsighash [f] g [h] (by decide)
  obtain rfl : gkey = "f(())" := Except.ok.inj (hg.symm.trans (eq_ok_of_toOption (by decide)))
  have hnone : ∀ d ∈ i.ofKind .function, d.print .sighash ≠ .ok "f()" := by
    intro d hd he
    have hkeys : ∀ d ∈ [f, g, h], d.sighash? ≠ some "f()" := by decide
    exact hkeys d hd (Declaration.print_sighash_eq_ok_iff.mp he)
  exact ⟨hfound.mpr (by decide), hmany ⟨h, by decide, by decide⟩,
    hunknown "f()" (by decide) hnone,
    (hname "e" (by decide)).1 (by decide),
    ((hevent "f" (by decide)).2 e).mpr ⟨[], [], by decide, by decide, nofun⟩,
    hothers [f] e [g, h] rfl (by decide) "f"⟩

end ContractAbi
