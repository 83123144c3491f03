import ShaderRepair.Proofs.Advance
import ShaderRepair.Proofs.CarrySession
import ShaderRepair.Proofs.Cover
import ShaderRepair.Proofs.Dispatch

/-!
# Text that is no token

A piece of text that no pattern matches becomes a token of its own kind. A parse may pass symbols
without looking for a certain one, and goes on where something is missing, but it never passes such
a token: every step that passes a symbol has looked at its kind. This file contains:
- `Clears`, symbols passed none of which is an error;
- `Procedure.Safe.clears`, the step: one procedure, accepted or not;
- `Rule.clears` and `Session.advance_clears`, the runs of a rule and of a session;
- `Document.parse_unlexable`, the answer for a source with such a token.
-/

namespace ShaderRepair

namespace Grammar

/-! ## Symbols passed -/

/-- Between the states symbols have been passed, none of which is an error. -/
def Clears (s t : State) : Prop :=
  ∃ w, s.rest = w ++ t.rest ∧ t.passed = s.passed + w.length ∧ ∀ x ∈ w, x.kind ≠ .error

namespace Clears

variable {s m t : State}

theorem refl (s : State) : Clears s s :=
  ⟨[], rfl, rfl, fun _ hx => nomatch hx⟩

theorem trans (h : Clears s m) (h' : Clears m t) : Clears s t := by
  obtain ⟨w, hrest, hpassed, hw⟩ := h
  obtain ⟨w', hrest', hpassed', hw'⟩ := h'
  refine ⟨w ++ w', ?_, ?_, fun x hx => (List.mem_append.1 hx).elim (hw x) (hw' x)⟩
  · rw [hrest, hrest', List.append_assoc]
  · rw [hpassed', hpassed, List.length_append, Nat.add_assoc]

theorem shift (hx : Passable s.next) : Clears s s.shift := by
  obtain ⟨more, hrest⟩ := State.rest_of_next rfl hx.2
  rw [State.shift_of_rest hrest]
  exact ⟨[s.next], hrest, rfl, fun x hmem => List.mem_singleton.1 hmem ▸ hx.1⟩

theorem skipSemicolons (s : State) : Clears s s.skipSemicolons := by
  have hw := Advances.skipSemicolons s
  refine ⟨_, hw.rest, hw.passed, fun x hx => ?_⟩
  have hkind : x.kind = .semicolon := by simpa using List.mem_takeWhile_imp hx
  rw [hkind]
  exact Kind.noConfusion

/-- An error ahead is still ahead. -/
theorem le_of_error {j : Nat} {x : Symbol} (h : Clears s t) (hs : s.passed = 0)
    (hx : s.rest[j]? = some x) (hk : x.kind = .error) : t.passed ≤ j ∧ t.rest ≠ [] := by
  obtain ⟨w, hrest, hpassed, hw⟩ := h
  have hle : w.length ≤ j := by
    by_contra hlt
    rw [hrest, List.getElem?_append_left (by omega)] at hx
    exact hw x (List.mem_of_getElem? hx) hk
  refine ⟨by omega, fun hnil => ?_⟩
  rw [hrest, hnil, List.append_nil, List.getElem?_eq_none hle] at hx
  cases hx

end Clears

/-! ## Rules -/

/-- A run ends with no error passed, and if it is rejected this is because of a symbol that has been
passed or is the next one. -/
def Outcome.Clears {α : Type} (s : State) : Outcome α → Prop
  | .accepted _ t => Grammar.Clears s t
  | .rejected why t => Grammar.Clears s t ∧ why.index ≤ t.passed

theorem Outcome.Clears.of_trans {α : Type} {s m : State} {o : Outcome α} (h : Grammar.Clears s m)
    (ho : o.Clears m) : o.Clears s := by
  cases o with
  | accepted a t => exact h.trans ho
  | rejected why t => exact ⟨h.trans ho.1, ho.2⟩

/-- No step of a safe procedure passes an error if the rules it calls do not. -/
theorem Procedure.Safe.clears {α : Type} {Q : α → State → Prop} {p : Procedure α} {s : State}
    {callee : (r : Rule) → State → Outcome r.Result} (h : p.Safe Q s)
    (hpost : ∀ r s a t, Holds r.held s → callee r s = .accepted a t → r.Post s a t)
    (hcallee : ∀ r s, Holds r.held s → (callee r s).Clears s) : (p.exec callee s).Clears s := by
  induction p generalizing s with
  | done a => exact .refl s
  | look k ih => exact ih _ _ h
  | ahead k ih => exact ih _ h
  | here k ih => exact ih _ h
  | shift k ih => exact .of_trans (.shift h.1) (ih h.2)
  | skipSemicolons k ih => exact .of_trans (.skipSemicolons s) (ih h)
  | repair m k ih => exact ih h.2
  | build e k ih => exact ih h.2
  | widen e k ih => exact ih h.2
  | reject index expected => exact ⟨.refl s, h.1⟩
  | call r k ih =>
    have hcall := hcallee r s h.1
    rw [exec]
    cases hc : callee r s with
    | accepted a t =>
      rw [hc] at hcall
      exact .of_trans hcall (ih a (h.2 a t (hpost r s a t h.1 hc)))
    | rejected why t =>
      rw [hc] at hcall
      exact hcall

/-- So it is with rules, by induction on the depth of calls. -/
theorem Rule.clears {d : Nat} {r : Rule} {s : State} (hs : Holds r.held s) :
    (Rule.run d r s).Clears s := by
  induction d generalizing r s with
  | zero => exact ⟨.refl s, Nat.le_refl _⟩
  | succ d ih =>
    exact (r.safe s hs).clears (fun r s a t hs h => Rule.post_of_run hs h) fun r s hs => ih hs

end Grammar

open Grammar

/-! ## Sessions -/

/-- So it is with all items that a session reads, by induction on their number. -/
theorem Session.advance_clears (count : Nat) {s t : Session} {why : Option Rejection}
    (h : s.advance count = (t, why)) :
    Clears s.state t.state ∧ ∀ r ∈ why, r.index ≤ t.state.passed := by
  induction count generalizing s with
  | zero =>
    cases h
    exact ⟨.refl _, nofun⟩
  | succ count ih =>
    rw [Session.advance] at h
    split at h
    · cases h
      exact ⟨.refl _, nofun⟩
    · have hitem : (item? s.state).Clears s.state := Rule.clears (Holds.nil s.state)
      split at h
      · next node m hm =>
        rw [hm] at hitem
        obtain ⟨hmore, hwhy⟩ := ih h
        exact ⟨hitem.trans hmore, hwhy⟩
      · next r m hm =>
        rw [hm] at hitem
        cases h
        exact ⟨hitem.1, fun r' hr => Option.some.inj hr ▸ hitem.2⟩

/-! ## Sources -/

namespace Document

/-- Each error token has a number, and shows as an error symbol. -/
theorem exists_error_symbol {source : Text} {keep : Bool} {t : Token}
    (ht : t ∈ Lexer.lex source keep) (hk : t.kind = .error) :
    ∃ j x, (Stream.ofSource source).symbols[j]? = some x ∧ x.kind = .error ∧
      (Stream.ofSource source).token j = t := by
  have hseen : t.isSeen = true := by
    rw [Token.isSeen_iff, Token.isSignificant, hk]
    exact ⟨rfl, Kind.noConfusion⟩
  have hmem : t ∈ Lexer.lex source false := by
    cases keep with
    | false => exact ht
    | true => exact (Stream.mem_lex_iff hseen).2 ht
  obtain ⟨j, hj, htoken⟩ := Stream.exists_number hmem hseen
  obtain ⟨broken, hsymbol⟩ := Stream.exists_symbol (List.getElem?_eq_getElem hj)
  refine ⟨j, _, List.getElem?_eq_getElem hj, ?_, htoken⟩
  rw [hsymbol, htoken]
  exact hk

/-- A source with an error token does not parse, whatever the options, and the token that the parse
gives up at does not come behind it. -/
theorem parse_unlexable {source : Text} {keep : Bool} {t : Token}
    (ht : t ∈ Lexer.lex source keep) (hk : t.kind = .error) (o : Options) :
    ∃ e, parse source o = .error e ∧ e.token.start.offset ≤ t.start.offset := by
  obtain ⟨j, x, hx, hxk, rfl⟩ := exists_error_symbol ht hk
  have hj : j < (Stream.ofSource source).symbols.length := (List.getElem?_eq_some_iff.1 hx).1
  cases hrun : ((Session.start (Lexer.lex source false) o).setSource source).run with
  | mk u why =>
    obtain ⟨hclears, hindex⟩ := Session.advance_clears _ hrun
    obtain ⟨hle, hrest⟩ := hclears.le_of_error rfl hx hxk
    cases why with
    | none =>
      -- Without a rejection all symbols would have been passed.
      obtain ⟨ns, hreads, -⟩ := Session.advance_content _ hrun (Nat.lt_succ_self _)
      exact absurd hreads.rest hrest
    | some r =>
      have hr : r.index ≤ j := (hindex r rfl).trans hle
      have hstream : u.stream = Stream.ofSource source := Session.stream_of_run hrun
      refine ⟨u.error r, by rw [parse, parseTokens, Session.parse, hrun], ?_⟩
      rw [Session.error, hstream]
      exact (Stream.start_le_iff (hr.trans_lt hj) hj).2 hr

/-- A stray character behind a missing parenthesis, which the parse goes on over. -/
theorem parse_unlexable_stray :
    ∃ t ∈ Lexer.lex (Text.ascii "float x = f(1.0 $ /* $ */") true, t.kind = .error ∧
      ∃ e, parse (Text.ascii "float x = f(1.0 $ /* $ */") Options.all = .error e ∧
        e.token.start.offset ≤ t.start.offset := by
  have hstray : ∃ t ∈ Lexer.lex (Text.ascii "float x = f(1.0 $ /* $ */") true, t.kind = .error := by
    rw [Lexer.lex_eq_scan]
    decide +kernel
  obtain ⟨t, ht, hk⟩ := hstray
  exact ⟨t, ht, hk, parse_unlexable ht hk Options.all⟩

end Document

end ShaderRepair
