import ContractAbi.Proofs.Declaration
import ContractAbi.Proofs.Lexing
import Mathlib.Data.List.Chain

/-!
Signature texts and the grammar. A text is read just when its tokens are derived, and as what they
are derived for.
-/

namespace ContractAbi

theorem Reader.onText_eq_ok {α : Type} {r : Reader α} {text : String} {a : α} :
    r.onText text = .ok a ↔
      ∃ tokens, Token.scan text = .ok tokens ∧ ∃ c, Reads r (Cursor.ofTokens tokens) a c := by
  rw [onText]
  cases Token.scan text with
  | error e => simp [bind, Except.bind]
  | ok tokens =>
    simp only [Except.ok.injEq, exists_eq_left', Reads, bind, Except.bind]
    cases r.run (Cursor.ofTokens tokens) with
    | ok b c => simp [pure, Except.pure]
    | error e c => simp [throw, throwThe, MonadExceptOf.throw]

theorem Cursor.symbols_ofTokens (tokens : List Token) :
    (ofTokens tokens).symbols = tokens.map Token.symbol := rfl

theorem Param.ofSignature_eq_ok {indexable : Bool} {text : String} {p : Param} :
    Param.ofSignature indexable text = .ok p ↔
      ∃ tokens, Token.scan text = .ok tokens ∧
        Grammar.Parameter indexable (tokens.map Token.symbol) p := by
  rw [Param.ofSignature, Reader.onText_eq_ok]
  apply exists_congr
  intro tokens
  apply and_congr_right
  intro hscan
  obtain ⟨items, -, h⟩ := Token.scan_eq_ok hscan
  exact Reads.parameter_iff h

theorem Declaration.ofSignature_eq_ok {text : String} {d : Declaration} :
    Declaration.ofSignature text = .ok d ↔
      ∃ tokens, Token.scan text = .ok tokens ∧ Grammar.Declares (tokens.map Token.symbol) d := by
  rw [Declaration.ofSignature, Reader.onText_eq_ok]
  apply exists_congr
  intro tokens
  apply and_congr_right
  intro hscan
  obtain ⟨items, -, h⟩ := Token.scan_eq_ok hscan
  simp only [Reads.declares_iff h, exists_and_left, exists_eq, and_true, Cursor.symbols_ofTokens]

namespace Grammar

/-- Two symbols next to each other with nothing where a group should have an item. -/
inductive MissingItem : Symbol → Symbol → Prop where
  | first : MissingItem .openParen .comma
  | between : MissingItem .comma .comma
  | last : MissingItem .comma .closeParen

/-- No item is missing in these symbols, nor next to them. -/
structure Solid (ts : List Symbol) : Prop where
  chain : ts.IsChain fun s t => ¬ MissingItem s t
  head : ∀ s ∈ ts.head?, s ≠ .comma ∧ s ≠ .closeParen
  last : ∀ s ∈ ts.getLast?, s ≠ .openParen ∧ s ≠ .comma

namespace Solid

variable {ts us : List Symbol}

theorem nil : Solid [] := ⟨.nil, by simp, by simp⟩

theorem append (ht : Solid ts) (hu : Solid us) : Solid (ts ++ us) := by
  refine ⟨List.isChain_append.mpr ⟨ht.chain, hu.chain, ?_⟩, ?_, ?_⟩
  · intro s hs t _ hm
    have hlast := ht.last s hs
    cases hm with
    | first => exact hlast.1 rfl
    | between | last => exact hlast.2 rfl
  · intro s hs
    rw [List.head?_append] at hs
    rcases Option.or_eq_some_iff.mp hs with hs | ⟨-, hs⟩
    · exact ht.head s hs
    · exact hu.head s hs
  · intro s hs
    rw [List.getLast?_append] at hs
    rcases Option.or_eq_some_iff.mp hs with hs | ⟨-, hs⟩
    · exact hu.last s hs
    · exact ht.last s hs

theorem pair : Solid [.openParen, .closeParen] := by
  refine ⟨.cons_cons nofun (.singleton _), ?_, ?_⟩
  · intro s hs
    obtain rfl := Option.some.inj hs
    exact ⟨nofun, nofun⟩
  · intro s hs
    obtain rfl := Option.some.inj hs
    exact ⟨nofun, nofun⟩

theorem leaf {s : Symbol} (h : s.isStructural = false) : Solid [s] := by
  have hne : s ≠ .openParen ∧ s ≠ .comma ∧ s ≠ .closeParen := by
    refine ⟨?_, ?_, ?_⟩
    all_goals
      intro he
      subst he
      cases h
  refine ⟨.singleton s, ?_, ?_⟩
  · intro t ht
    obtain rfl : s = t := by simpa using ht
    exact hne.2
  · intro t ht
    obtain rfl : s = t := by simpa using ht
    exact ⟨hne.1, hne.2.1⟩

theorem map_leaf {α : Type} {f : α → Symbol} (h : ∀ a, (f a).isStructural = false) (as : List α) :
    Solid (as.map f) := by
  induction as with
  | nil => exact nil
  | cons a as ih => exact (leaf (h a)).append ih

/-- A comma may stand between two items, and parentheses around them. -/
theorem comma (ht : Solid ts) (hu : Solid us) (hne : ts ≠ []) (hne' : us ≠ []) :
    Solid (ts ++ .comma :: us) := by
  obtain ⟨t, ts, rfl⟩ := List.exists_cons_of_ne_nil hne
  obtain ⟨u, us, rfl⟩ := List.exists_cons_of_ne_nil hne'
  refine ⟨?_, ht.head, ?_⟩
  · refine List.isChain_append.mpr ⟨ht.chain, .cons_cons ?_ hu.chain, ?_⟩
    · intro hm
      have hhead := hu.head u rfl
      cases hm with
      | between => exact hhead.1 rfl
      | last => exact hhead.2 rfl
    · intro s hs v hv hm
      obtain rfl : .comma = v := by simpa using hv
      have hlast := ht.last s hs
      cases hm with
      | first => exact hlast.1 rfl
      | between => exact hlast.2 rfl
  · intro s hs
    rw [List.getLast?_append, List.getLast?_cons_cons] at hs
    rcases Option.or_eq_some_iff.mp hs with hs | ⟨hn, -⟩
    · exact hu.last s hs
    · simp at hn

theorem group (h : Solid ts) (hne : ts ≠ []) : Solid (.openParen :: ts ++ [.closeParen]) := by
  obtain ⟨t, ts, rfl⟩ := List.exists_cons_of_ne_nil hne
  refine ⟨List.isChain_append.mpr ⟨.cons_cons ?_ h.chain, .singleton _, ?_⟩, by simp, ?_⟩
  · intro hm
    cases hm
    exact (h.head _ rfl).1 rfl
  · intro s hs v hv hm
    obtain rfl : .closeParen = v := by simpa using hv
    cases hm
    exact (h.last _ (by simpa using hs)).2 rfl
  · intro s hs
    rw [List.getLast?_concat] at hs
    obtain rfl := Option.some.inj hs
    exact ⟨nofun, nofun⟩

theorem not_missingItem {s t : Symbol} (h : Solid (ts ++ s :: t :: us)) : ¬ MissingItem s t :=
  (List.isChain_append_cons_cons.mp h.chain).2.1

end Solid

theorem Modifiers.solid {indexable : Bool} {ms : List Symbol} {flag : Option Bool}
    (h : Modifiers indexable ms flag) : Solid ms := by
  cases h
  exact .map_leaf (fun _ => rfl) _

theorem Name.solid {ns : List Symbol} {name : Option Identifier} (h : Name ns name) : Solid ns := by
  cases h with
  | unnamed => exact .nil
  | named => exact .leaf rfl

mutual

theorem Parameter.solid {indexable : Bool} {ts : List Symbol} {p : Param} :
    Parameter indexable ts p → Solid ts
  | .mk lengths head modifiers named =>
    ((head.solid.append (.map_leaf (fun _ => rfl) lengths)).append modifiers.solid).append
      named.solid

theorem Head.solid {ts : List Symbol} {type : Ty} : Head ts type → Solid ts
  | .elementary _ => .leaf rfl
  | .tuple h => h.solid
  | .wordedTuple h => (Solid.leaf rfl).append h.solid

theorem Group.solid {indexable : Bool} {ts : List Symbol} {ps : List Param} :
    Group indexable ts ps → Solid ts
  | .empty => .pair
  | .list h => h.solid.group h.ne_nil

theorem Parameters.solid {indexable : Bool} {ts : List Symbol} {ps : List Param} :
    Parameters indexable ts ps → Solid ts
  | .one h => h.solid
  | .cons h hs => h.solid.comma hs.solid h.ne_nil hs.ne_nil

end

end Grammar

/-- The reader of parameters accepts its grammar and nothing more, and so no group with an item
missing; a group of no items is read. -/
theorem Param.ofSignature_accepts_grammar (indexable : Bool) (text : String) :
    (∀ p, Param.ofSignature indexable text = .ok p ↔
      ∃ tokens, Token.scan text = .ok tokens ∧
        Grammar.Parameter indexable (tokens.map Token.symbol) p) ∧
    (∀ tokens before s t after, Token.scan text = .ok tokens →
      tokens.map Token.symbol = before ++ s :: t :: after → Grammar.MissingItem s t →
        ∃ e, Param.ofSignature indexable text = .error e) ∧
    Param.ofSignature indexable "()" =
      .ok ⟨none, if indexable then some false else none, .tuple []⟩ := by
  refine ⟨fun p => Param.ofSignature_eq_ok, ?_, by cases indexable <;> rfl⟩
  intro tokens before s t after hscan hsymbols hmissing
  cases hp : Param.ofSignature indexable text with
  | error e => exact ⟨e, rfl⟩
  | ok p =>
    obtain ⟨tokens', hscan', hparam⟩ := Param.ofSignature_eq_ok.mp hp
    obtain rfl : tokens = tokens' := Except.ok.inj (hscan.symm.trans hscan')
    exact absurd hmissing (hsymbols ▸ hparam.solid).not_missingItem

theorem Param.ofSignature_trailing_comma : ∃ e, Param.ofSignature false "(bool,)" = .error e :=
  (Param.ofSignature_accepts_grammar false "(bool,)").2.1
    ((Token.scan "(bool,)").toOption.getD []) [.openParen, .type "bool"] .comma .closeParen []
    (eq_ok_of_toOption (by decide +kernel)) (by decide +kernel) .last

/-- The reader of declarations accepts its grammar and nothing more, and leaves no token over. -/
theorem Declaration.ofSignature_accepts_productions (text : String) :
    (∀ d, Declaration.ofSignature text = .ok d ↔
      ∃ tokens, Token.scan text = .ok tokens ∧ Grammar.Declares (tokens.map Token.symbol) d) ∧
    ∀ tokens d c, Token.scan text = .ok tokens →
      Reader.declaration.run (Cursor.ofTokens tokens) = .ok d c → c.unread = [] := by
  refine ⟨fun d => Declaration.ofSignature_eq_ok, ?_⟩
  intro tokens d c hscan hrun
  obtain ⟨items, -, h⟩ := Token.scan_eq_ok hscan
  obtain ⟨-, rfl⟩ := (Reads.declares_iff h).mp hrun
  rw [Cursor.unread_advance, Cursor.symbols, List.length_map, List.drop_length]

theorem Declaration.ofSignature_receive :
    ∃ tokens c, Token.scan "receive() payable" = .ok tokens ∧
      Reader.declaration.run (Cursor.ofTokens tokens) = .ok .receive c ∧ c.unread = [] := by
  have hread : Declaration.ofSignature "receive() payable" = .ok .receive :=
    eq_ok_of_toOption (by decide +kernel)
  obtain ⟨tokens, hscan', c, hrun⟩ := Reader.onText_eq_ok.mp hread
  exact ⟨tokens, c, hscan', hrun,
    (Declaration.ofSignature_accepts_productions "receive() payable").2 tokens _ c hscan' hrun⟩

end ContractAbi
