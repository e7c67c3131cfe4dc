import ContractAbi.Proofs.Names

/-!
The declarations that answer what no function answers, as text and as objects. The reader of texts
has rules for their parameters and for their mutability, the reader of objects for the latter only.
-/

namespace ContractAbi

namespace Reads

variable {c : Cursor} {depth : Nat} {items : List Item} {word : String} {inputs : List Param}
  {m : Mutability} {is vs rest : List Symbol}

/-- What stands before the outputs. -/
theorem answering_opening (h : c.Holds depth items) (ho : word ∈ ["fallback", "receive"])
    (hc : c.symbols = (.keyword word :: is) ++ vs ++ rest) (hg : Grammar.Group false is inputs)
    (hv : Grammar.Visibility vs m)
    (hstop : ∀ w, rest.head? = some (.keyword w) → w ∉ Keyword.visibility) :
    Reads (do
        let _ ← Reader.popKeyword ["fallback", "receive"]
        let inputs ← Reader.parameters false
        let mutability ← Reader.mutability
        pure (inputs, mutability)) c (inputs, m)
      (c.advance (Symbol.keyword word :: is ++ vs).length) := by
  have hs : c.symbols.head? = some (.keyword word) := by rw [hc]; rfl
  rw [List.append_assoc] at hc
  refine (unnamed_bind_iff h hs ho).mpr ⟨is, inputs, _, hc, hg, ?_⟩
  have hvs := Cursor.symbols_advance_of_eq hc
  refine bind_iff.mpr ⟨m, _, mutability_iff.mpr ⟨vs, rest, hvs, hv, hstop, rfl⟩, ?_⟩
  rw [pure_iff, Cursor.advance_append]
  exact ⟨rfl, rfl⟩

end Reads

namespace Cursor.Holds

variable {c : Cursor} {depth : Nat} {items : List Item} {word : String} {m : Mutability}
  {is vs os : List Symbol} {inputs outputs : List Param} {d : Declaration}

theorem group_functional (h : c.Holds depth items) {indexable : Bool} {ps qs : List Param}
    {ts rest : List Symbol} (hc : c.symbols = ts ++ rest) (hp : Grammar.Group indexable ts ps)
    (hq : Grammar.Group indexable ts qs) : ps = qs :=
  (((Reads.parameters_iff h).mpr ⟨ts, rest, hc, hp, rfl⟩).functional
    ((Reads.parameters_iff h).mpr ⟨ts, rest, hc, hq, rfl⟩)).1

theorem returns_functional (h : c.Holds depth items) {ps qs : List Param}
    (hp : Grammar.Returns c.symbols ps) (hq : Grammar.Returns c.symbols qs) : ps = qs := by
  obtain ⟨ss, hc⟩ : ∃ ss, c.symbols = ss := ⟨_, rfl⟩
  rw [hc] at hp hq
  cases hp with
  | omitted =>
    cases hq
    rfl
  | @stated ts _ hp =>
    cases hq with
    | stated hq =>
      have hc' : c.symbols = [.keyword "returns"] ++ ts := hc
      obtain ⟨items', h', -⟩ := h.advance_closed (.leaf rfl .nil) hc'
      have hts := (Cursor.symbols_advance_of_eq hc').trans (List.append_nil ts).symm
      exact h'.group_functional hts hp hq

/-- The symbols of a declaration stand for one thing. -/
theorem answering_functional (h : c.Holds depth items) (ho : word ∈ ["fallback", "receive"])
    (hc : c.symbols = (.keyword word :: is) ++ vs ++ os) (hg : Grammar.Group false is inputs)
    (hv : Grammar.Visibility vs m) (hos : Grammar.Returns os outputs)
    {is' vs' os' : List Symbol} {inputs' outputs' : List Param} {m' : Mutability}
    (hc' : c.symbols = (.keyword word :: is') ++ vs' ++ os')
    (hg' : Grammar.Group false is' inputs') (hv' : Grammar.Visibility vs' m')
    (hos' : Grammar.Returns os' outputs') :
    inputs = inputs' ∧ m = m' ∧ os = os' ∧ outputs = outputs' := by
  obtain ⟨he, hadvance⟩ := (Reads.answering_opening h ho hc hg hv hos.not_visibility).functional
    (Reads.answering_opening h ho hc' hg' hv' hos'.not_visibility)
  obtain ⟨rfl, rfl⟩ := Prod.mk.inj he
  have hrest := Cursor.symbols_advance_of_eq hc
  obtain rfl : os = os' := by
    rw [← hrest, hadvance]
    exact Cursor.symbols_advance_of_eq hc'
  have hclosed : Closed false (.keyword word :: is) := .leaf rfl hg.closed
  obtain ⟨items', h', -⟩ := h.advance_closed (hclosed.append hv.closed) hc
  exact ⟨rfl, rfl, rfl, h'.returns_functional (hrest.symm ▸ hos) (hrest.symm ▸ hos')⟩

/-- Once it is known what the symbols of a declaration stand for, it is known what they declare. -/
theorem declares_answering_iff (h : c.Holds depth items) (ho : word ∈ ["fallback", "receive"])
    (hc : c.symbols = (.keyword word :: is) ++ vs ++ os) (hg : Grammar.Group false is inputs)
    (hv : Grammar.Visibility vs m) (hos : Grammar.Returns os outputs) :
    Grammar.Declares c.symbols d ↔
      (word = "receive" ∧ d = .receive ∧ m = .payable ∧ inputs = [] ∧ os = []) ∨
      (word = "fallback" ∧
        (∃ payable, m = (if payable then .payable else .nonpayable) ∧ d = .fallback payable) ∧
        (inputs = [] ∨ Grammar.IsBytes inputs) ∧ (os = [] ∨ Grammar.IsBytes outputs)) := by
  refine ⟨?_, ?_⟩
  · intro hd
    obtain ⟨ss, hss⟩ : ∃ ss, c.symbols = ss := ⟨_, rfl⟩
    rw [hss] at hd
    have hword {w : String} (hw : ss.head? = some (.keyword w)) : word = w := by
      simpa [← hss, hc] using hw
    cases hd with
    | constructor | error | struct | event | function =>
      obtain rfl := hword rfl
      simp at ho
    | fallback payable hg' hi hv' hos' hb =>
      obtain rfl := hword rfl
      obtain ⟨rfl, rfl, rfl, rfl⟩ := h.answering_functional ho hc hg hv hos hss hg' hv' hos'
      exact .inr ⟨rfl, ⟨payable, rfl, rfl⟩, hi, hb⟩
    | receive hv' =>
      obtain rfl := hword rfl
      have hss' := hss.trans (List.append_nil _).symm
      obtain ⟨rfl, rfl, rfl, -⟩ :=
        h.answering_functional ho hc hg hv hos hss' .empty hv' .omitted
      exact .inl ⟨rfl, rfl, rfl, rfl, rfl⟩
  · intro hd
    rw [hc]
    rcases hd with ⟨rfl, rfl, rfl, rfl, rfl⟩ | ⟨rfl, ⟨payable, rfl, rfl⟩, hi, hb⟩
    · obtain rfl := Grammar.group_nil_iff.mp hg
      rw [List.append_nil]
      exact .receive hv
    · exact .fallback payable hg hi hv hos hb

end Cursor.Holds

namespace DeclarationObject

variable {o : DeclarationObject}

/-- No parameters, or one that is read as a byte string. -/
def AtMostBytes (objects : Option (List ParamObject)) : Prop :=
  objects.getD [] = [] ∨ ∃ object p, objects = some [object] ∧
    Param.ofObject false object = .ok p ∧ p.type = .elementary .bytes

theorem params_nil_iff {indexable : Bool} {objects : Option (List ParamObject)} {ps : List Param}
    (h : params indexable objects = .ok ps) : ps = [] ↔ objects.getD [] = [] := by
  have hlength := (mapM_eq_ok_iff.mp h).length_eq
  rw [← List.length_eq_zero_iff, ← List.length_eq_zero_iff, hlength]

theorem atMostBytes_iff {objects : Option (List ParamObject)} {ps : List Param}
    (h : params false objects = .ok ps) : AtMostBytes objects ↔ ps = [] ∨ Grammar.IsBytes ps := by
  refine or_congr (params_nil_iff h).symm ⟨?_, ?_⟩
  · rintro ⟨object, p, rfl, hp, htype⟩
    have hps : params false (some [object]) = .ok [p] := by simp [params, hp]
    exact ⟨p, Except.ok.inj (h.symm.trans hps), htype⟩
  · rintro ⟨p, rfl, htype⟩
    obtain ⟨object, rest, hp, hrest, hobjects⟩ :=
      List.forall₂_cons_right_iff.mp (mapM_eq_ok_iff.mp h)
    obtain rfl := List.forall₂_nil_right_iff.mp hrest
    cases objects with
    | none => cases hobjects
    | some objects => exact ⟨object, p, congrArg some hobjects, hp, htype⟩

theorem mutability_of_mem {m : Mutability} (h : m ∈ o.stateMutability) : o.mutability = .ok m := by
  rw [mutability, Option.mem_def.mp h]

/-- Symbols of a signature with the word, the parameters and the mutability of an object. Outputs
are stated where there are some. -/
inductive WrittenAs (o : DeclarationObject) : List Symbol → Prop where
  | mk {is vs os : List Symbol} {inputs outputs : List Param} {m : Mutability}
      (takes : params false o.inputs = .ok inputs) (returns : params false o.outputs = .ok outputs)
      (does : o.mutability = .ok m) (hi : Grammar.Group false is inputs)
      (hv : Grammar.Visibility vs m) (ho : Grammar.Returns os outputs)
      (stated : outputs = [] → os = []) :
      WrittenAs o ((.keyword o.typeText :: is) ++ vs ++ os)

/-- What an object says can be written, if none of the names in it is taken. -/
theorem exists_writtenAs {inputs outputs : List Param} {m : Mutability}
    (h : o.typeText ∈ ["fallback", "receive"]) (takes : params false o.inputs = .ok inputs)
    (returns : params false o.outputs = .ok outputs) (does : o.mutability = .ok m)
    (hf : ∀ name ∈ Param.names (inputs ++ outputs), name.Free) :
    ∃ text tokens, Token.scan text = .ok tokens ∧ o.WrittenAs (tokens.map Token.symbol) := by
  have hgroup {objects : Option (List ParamObject)} {ps : List Param}
      (hps : params false objects = .ok ps) (hsub : ps ⊆ inputs ++ outputs) :
      ∃ ts, Grammar.Group false ts ps ∧ Grammar.Spellable ts := by
    have hflags : ∀ p ∈ ps, p.indexed.isSome = false ∧ p.type.Unflagged :=
      forall_of_mapM_eq_ok hps fun object _ _ hp => Param.ofObject_flags object hp
    refine Grammar.exists_group_of_free (fun p hp => (hflags p hp).1) (fun p hp => (hflags p hp).2)
      fun name hn => hf name ?_
    obtain ⟨p, hp, hn⟩ := Param.mem_names.mp hn
    exact Param.mem_names.mpr ⟨p, hsub hp, hn⟩
  obtain ⟨is, hi, his⟩ := hgroup takes (List.subset_append_left _ _)
  obtain ⟨os, ho, hos⟩ := hgroup returns (List.subset_append_right _ _)
  obtain ⟨is', hi', hispell⟩ := hi.spelled (.inr rfl) his
  obtain ⟨vs, hv, hvspell⟩ := Grammar.visibility_spelled m
  obtain ⟨os', ho', hospell⟩ := (Grammar.Returns.stated ho).spelled (.inr rfl) (.cons nofun hos)
  have hstated : outputs = [] → os' = [] := by
    rintro rfl
    cases hospell
    rfl
  have hword : isIdentifier o.typeText = true ∧ isKeyword o.typeText = true := by
    revert h
    generalize o.typeText = word
    revert word
    decide
  have hhead := Grammar.spells_keyword_group (.inr rfl) hword.1 hword.2 hispell
  have hspell := ((Grammar.SpellsWords.single hhead).append hvspell).append hospell
  obtain ⟨tokens, hscan, hsymbols⟩ := Token.scan_of_spells hspell.spells
  refine ⟨_, tokens, hscan, hsymbols ▸ ?_⟩
  exact .mk takes returns does (Param.renameAll_id inputs ▸ hi') hv
    (Param.renameAll_id outputs ▸ ho') hstated

/-- What a text may say that begins with the word of the object. -/
def FitForText (o : DeclarationObject) : Prop :=
  if o.typeText = "receive" then
    o.mutability = .ok .payable ∧ o.inputs.getD [] = [] ∧ o.outputs.getD [] = []
  else AtMostBytes o.inputs ∧ AtMostBytes o.outputs

end DeclarationObject

namespace Declaration

variable {o : DeclarationObject} {d : Declaration}

theorem fallbackOfObject_eq_ok_of_receive (h : o.typeText = "receive") :
    fallbackOfObject o = .ok d ↔ (∀ m ∈ o.stateMutability, m = .payable) ∧ d = .receive := by
  have hkind : o.checkType .fallback = .ok () := by rw [DeclarationObject.checkType, h]; rfl
  rw [fallbackOfObject, hkind, if_pos h]
  cases o.stateMutability with
  | none => simp [bind, Except.bind, pure, Except.pure, eq_comm]
  | some m => cases m <;> simp [bind, Except.bind, pure, Except.pure, throw, throwThe,
      MonadExceptOf.throw, eq_comm]

theorem fallbackOfObject_eq_ok_of_fallback (h : o.typeText = "fallback") :
    fallbackOfObject o = .ok d ↔
      ∃ payable, o.mutability = .ok (if payable then .payable else .nonpayable) ∧
        d = .fallback payable := by
  have hkind : o.checkType .fallback = .ok () := by rw [DeclarationObject.checkType, h]; rfl
  rw [fallbackOfObject, hkind, if_neg (by rw [h]; decide)]
  cases o.mutability with
  | error e => simp [bind, Except.bind]
  | ok m => cases m <;> simp [bind, Except.bind, pure, Except.pure, throw, throwThe,
      MonadExceptOf.throw, eq_comm]

/-- Whether a text is read that says what an object says: only if the object is read as well, and
then if there is nothing in it that a text may not say. -/
theorem ofSignature_eq_ok_of_writtenAs {text : String} {tokens : List Token}
    (h : o.typeText ∈ ["fallback", "receive"]) (hscan : Token.scan text = .ok tokens)
    (hw : o.WrittenAs (tokens.map Token.symbol)) :
    ofSignature text = .ok d ↔ fallbackOfObject o = .ok d ∧ o.FitForText := by
  obtain ⟨items, -, hholds⟩ := Token.scan_eq_ok hscan
  rw [ofSignature_eq_ok, hscan]
  simp only [Except.ok.injEq, exists_eq_left']
  generalize hs : tokens.map Token.symbol = ss at hw
  cases hw with
  | @mk is vs os inputs outputs m takes returns does hi hv ho stated =>
    rw [← hs, ← Cursor.symbols_ofTokens, hholds.declares_answering_iff h hs hi hv ho]
    have hos : os = [] ↔ outputs = [] := ⟨ho.params_eq_nil, stated⟩
    rw [DeclarationObject.FitForText, does, Except.ok.injEq]
    obtain h | h : o.typeText = "fallback" ∨ o.typeText = "receive" := by simpa using h
    · rw [fallbackOfObject_eq_ok_of_fallback h, does, h, hos,
        DeclarationObject.atMostBytes_iff takes, DeclarationObject.atMostBytes_iff returns]
      simp
    · have hstated : m = .payable → ∀ n ∈ o.stateMutability, n = .payable := by
        rintro rfl n hn
        exact Except.ok.inj ((DeclarationObject.mutability_of_mem hn).symm.trans does)
      rw [fallbackOfObject_eq_ok_of_receive h, h, hos, DeclarationObject.params_nil_iff takes,
        DeclarationObject.params_nil_iff returns]
      have hno : ¬ "receive" = "fallback" := by decide
      simp only [true_and, if_true, hno, false_and, or_false]
      refine ⟨?_, ?_⟩
      · intro hd
        exact ⟨⟨hstated hd.2.1, hd.1⟩, hd.2⟩
      · intro hd
        exact ⟨hd.1.2, hd.2⟩

/-- An object that answers what no function answers is held to a mutability that fits, and to no
more: its inputs and outputs do not count, nor do its flags if it is a `receive`. A text that says
the same is held to what fits it as well; there is such a text if the object can be written. -/
theorem fallbackOfObject_and_text (h : o.typeText ∈ ["fallback", "receive"]) :
    (∀ d, fallbackOfObject o = .ok d ↔
      (o.typeText = "receive" ∧ (∀ m ∈ o.stateMutability, m = .payable) ∧ d = .receive) ∨
      (o.typeText = "fallback" ∧
        ∃ payable, o.mutability = .ok (if payable then .payable else .nonpayable) ∧
          d = .fallback payable)) ∧
    (∀ inputs outputs,
      fallbackOfObject { o with inputs := inputs, outputs := outputs } = fallbackOfObject o) ∧
    (o.typeText = "receive" → ∀ constant payable,
      fallbackOfObject { o with constant := constant, payable := payable } =
        fallbackOfObject o) ∧
    (∀ text tokens d, Token.scan text = .ok tokens → o.WrittenAs (tokens.map Token.symbol) →
      (ofSignature text = .ok d ↔ fallbackOfObject o = .ok d ∧ o.FitForText)) ∧
    ∀ inputs outputs m, DeclarationObject.params false o.inputs = .ok inputs →
      DeclarationObject.params false o.outputs = .ok outputs → o.mutability = .ok m →
        (∀ name ∈ Param.names (inputs ++ outputs), name.Free) →
          ∃ text tokens, Token.scan text = .ok tokens ∧
            o.WrittenAs (tokens.map Token.symbol) := by
  refine ⟨?_, fun _ _ => rfl, ?_, fun _ _ _ => ofSignature_eq_ok_of_writtenAs h,
    fun _ _ _ => DeclarationObject.exists_writtenAs h⟩
  · intro d
    obtain h | h : o.typeText = "fallback" ∨ o.typeText = "receive" := by simpa using h
    · rw [fallbackOfObject_eq_ok_of_fallback h]
      simp [h]
    · rw [fallbackOfObject_eq_ok_of_receive h]
      simp [h]
  · intro hr constant payable
    have hr' : { o with constant := constant, payable := payable }.typeText = "receive" := hr
    rw [fallbackOfObject, fallbackOfObject, if_pos hr, if_pos hr']
    rfl

theorem fallbackOfObject_and_text_bytes :
    let data : ParamObject := ⟨some "data", "bytes", none, none⟩
    let o : DeclarationObject :=
      ⟨some "fallback", none, some [data], some [data], some .payable, none, none, none, none⟩
    let text := "fallback(bytes data) payable returns (bytes data)"
    fallbackOfObject o = .ok (.fallback true) ∧ ofSignature text = .ok (.fallback true) := by
  intro data o text
  obtain ⟨hobject, -, -, htext, -⟩ := fallbackOfObject_and_text (o := o) (by decide)
  have hok : fallbackOfObject o = .ok (.fallback true) :=
    (hobject _).mpr (.inr ⟨rfl, true, rfl, rfl⟩)
  let name : Identifier := ⟨"data", by decide⟩
  let p : Param := ⟨some name, none, .elementary .bytes⟩
  have hp : DeclarationObject.params false (some [data]) = .ok [p] :=
    eq_ok_of_toOption (by decide +kernel)
  have hgroup : Grammar.Group false
      [.openParen, .type "bytes", .identifier "data", .closeParen] [p] := by
    have htype : Elementary.ofString "bytes" = .ok .bytes := eq_ok_of_toOption (by decide +kernel)
    have hnone : Grammar.Modifiers false ([].map .keyword) none :=
      .mk ⟨by simp, .nil⟩ (by simp)
    exact .list (.one (.mk [] (.elementary htype) hnone (.named name)))
  have hpayable : Grammar.Visibility (["payable"].map .keyword) .payable :=
    .mk ⟨by decide, by decide⟩ ((Grammar.atMostOne_iff _ (by decide)).mpr (by decide))
      ((Grammar.atMostOne_iff _ (by decide)).mpr (by decide))
  have hscan : Token.scan text = .ok ((Token.scan text).toOption.getD []) :=
    eq_ok_of_toOption (by decide +kernel)
  have hsymbols : ((Token.scan text).toOption.getD []).map Token.symbol =
      (.keyword "fallback" :: [.openParen, .type "bytes", .identifier "data", .closeParen]) ++
        [.keyword "payable"] ++
        .keyword "returns" :: [.openParen, .type "bytes", .identifier "data", .closeParen] := by
    decide +kernel
  have hwritten : o.WrittenAs (((Token.scan text).toOption.getD []).map Token.symbol) := by
    rw [hsymbols]
    exact .mk hp hp rfl hgroup hpayable (.stated hgroup) (by simp)
  have hbytes : DeclarationObject.AtMostBytes (some [data]) :=
    (DeclarationObject.atMostBytes_iff hp).mpr (.inr ⟨p, rfl, rfl⟩)
  exact ⟨hok, (htext _ _ _ hscan hwritten).mpr ⟨hok, hbytes, hbytes⟩⟩

/-- The inputs of a fallback are not looked at. -/
theorem not_atMostBytes_of_fallbackOfObject :
    ¬ ∀ (o : DeclarationObject) (d : Declaration), fallbackOfObject o = .ok d →
      (o.typeText = "receive" → o.inputs.getD [] = [] ∧ (∀ m ∈ o.stateMutability, m = .payable) ∧
        o.constant ≠ some true ∧ o.payable ≠ some false) ∧
      (o.typeText = "fallback" → DeclarationObject.AtMostBytes o.inputs ∧
        DeclarationObject.AtMostBytes o.outputs) := by
  intro h
  let x : ParamObject := ⟨some "x", "uint256", none, none⟩
  let o : DeclarationObject :=
    ⟨some "fallback", none, some [x], none, some .nonpayable, none, none, none, none⟩
  obtain ⟨hbytes, -⟩ := (h o (.fallback false) rfl).2 rfl
  have hx : Param.ofObject false x = .ok ⟨some ⟨"x", by decide⟩, none, .elementary (.uint 31)⟩ :=
    eq_ok_of_toOption (by decide +kernel)
  rcases hbytes with hnone | ⟨object, p, hobject, hp, htype⟩
  · cases hnone
  · obtain rfl : x = object := (List.cons.inj (Option.some.inj hobject)).1
    obtain rfl := Except.ok.inj (hx.symm.trans hp)
    cases htype

end Declaration

end ContractAbi
