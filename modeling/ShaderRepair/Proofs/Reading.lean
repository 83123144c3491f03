import ShaderRepair.Proofs.Depth
import ShaderRepair.Proofs.RetraceDocument
import ShaderRepair.Proofs.Spelling

/-!
# Reading given symbols

What a procedure makes of symbols that are known beforehand. This file contains:
- `Parses K p w Q rest`, which says that `p` reads the symbols `w` up to `rest`, produces something
  with the property `Q`, and notes repairs of the class `K` only;
- one rule for each step of a procedure;
- `Document.parse_of_symbols`, the report on a source whose symbols are read item by item.

How deep calls nest does not matter here, since the bound on it is never met.
-/

namespace ShaderRepair

namespace Grammar

open Procedure

variable {α β : Type} {K : Missing → Prop} {Q : α → Prop} {w rest : List Symbol} {x : Symbol}

/-! ## Reading -/

/-- Whenever the symbols `w` are left, the procedure accepts with some depth of calls and leaves
`rest`; what it produces has the property `Q`, and what it notes as missing is in the class `K`. -/
def Parses (K : Missing → Prop) (p : Procedure α) (w : List Symbol) (Q : α → Prop)
    (rest : List Symbol) : Prop :=
  ∀ ⦃s : State⦄, s.rest = w → ∃ d a t R, p.exec (Rule.run d) s = .accepted a t ∧
    t.rest = rest ∧ t.repairs = R ++ s.repairs ∧ (∀ r ∈ R, K r.missing) ∧ Q a

namespace Parses

theorem weaken {Q' : α → Prop} {p : Procedure α} (h : Parses K p w Q rest)
    (hQ : ∀ a, Q a → Q' a) : Parses K p w Q' rest := by
  intro s hs
  obtain ⟨d, a, t, R, hp, ht, hR, hK, ha⟩ := h hs
  exact ⟨d, a, t, R, hp, ht, hR, hK, hQ a ha⟩

/-! ### Results, sequences, calls -/

theorem done {a : α} (h : Q a) : Parses K (pure a) w Q w :=
  fun s hs => ⟨0, a, s, [], rfl, hs, rfl, by simp, h⟩

/-- One procedure after the other. The deeper one of the two runs is deep enough for both. -/
theorem bind {Q' : β → Prop} {p : Procedure β} {f : β → Procedure α} {m : List Symbol}
    (hp : Parses K p w Q' m) (hf : ∀ b, Q' b → Parses K (f b) m Q rest) :
    Parses K (p >>= f) w Q rest := by
  intro s hs
  obtain ⟨d, b, t, R, hb, ht, hR, hK, hQ⟩ := hp hs
  obtain ⟨d', a, t', R', ha, ht', hR', hK', hQ'⟩ := hf b hQ ht
  refine ⟨max d d', a, t', R' ++ R, ?_, ht', ?_, ?_, hQ'⟩
  · exact exec_bind_accepted.2 ⟨b, t, exec_run_mono (Nat.le_max_left d d') p hb,
      exec_run_mono (Nat.le_max_right d d') (f b) ha⟩
  · rw [hR', hR, List.append_assoc]
  · intro r hr
    exact (List.mem_append.1 hr).elim (hK' r) (hK r)

theorem call {r : Rule} {Q : r.Result → Prop} (h : Parses K r.body w Q rest) :
    Parses K (run r) w Q rest := by
  intro s hs
  obtain ⟨d, a, t, R, hp, hmore⟩ := h hs
  exact ⟨d + 1, a, t, R, (exec_run_succ d r s).trans hp, hmore⟩

theorem map {f : β → α} {Q' : β → Prop} {p : Procedure β} (h : Parses K p w Q' rest)
    (hf : ∀ b, Q' b → Q (f b)) : Parses K (f <$> p) w Q rest := by
  rw [map_eq_pure_bind]
  exact bind h fun b hb => done (hf b hb)

/-! ### Decisions -/

theorem yes {c : Prop} [Decidable c] {p q : Procedure α} (hc : c) (h : Parses K p w Q rest) :
    Parses K (if c then p else q) w Q rest := by
  rw [if_pos hc]
  exact h

theorem no {c : Prop} [Decidable c] {p q : Procedure α} (hc : ¬c) (h : Parses K q w Q rest) :
    Parses K (if c then p else q) w Q rest := by
  rw [if_neg hc]
  exact h

/-! ### Looking ahead -/

theorem next {f : Symbol → Procedure α}
    (h : Parses K (f (w.headD Symbol.finish)) w Q rest) : Parses K (next >>= f) w Q rest := by
  intro s hs
  obtain ⟨d, a, t, R, hp, hmore⟩ := h hs
  refine ⟨d, a, t, R, ?_, hmore⟩
  rw [← hs] at hp
  exact hp

theorem second {f : Symbol → Procedure α}
    (h : Parses K (f (w.tail.headD Symbol.finish)) w Q rest) :
    Parses K (second >>= f) w Q rest := by
  intro s hs
  obtain ⟨d, a, t, R, hp, hmore⟩ := h hs
  refine ⟨d, a, t, R, ?_, hmore⟩
  rw [← hs] at hp
  exact hp

theorem ahead {f : Bool → Procedure α}
    (h : Parses K (f (Symbol.startsDeclaration w)) w Q rest) :
    Parses K (.ahead .done >>= f) w Q rest := by
  intro s hs
  obtain ⟨d, a, t, R, hp, hmore⟩ := h hs
  refine ⟨d, a, t, R, ?_, hmore⟩
  rw [← hs] at hp
  exact hp

/-! ### Places -/

theorem position {f : Nat → Procedure α} (h : ∀ n, Parses K (f n) w Q rest) :
    Parses K (position >>= f) w Q rest :=
  fun s hs => h s.passed hs

theorem extentFrom {first : Nat} {f : Extent Nat → Procedure α}
    (h : ∀ X, Parses K (f X) w Q rest) : Parses K (extentFrom first >>= f) w Q rest :=
  fun s hs => h ⟨first, s.passed - 1⟩ hs

theorem make {first : Nat} {e : Extent Nat → Tree} {f : Tree → Procedure α}
    (h : ∀ X, Parses K (f (e X)) w Q rest) : Parses K (make first e >>= f) w Q rest :=
  fun s hs => h ⟨first, s.passed - 1⟩ (s := s.build (e ⟨first, s.passed - 1⟩)) hs

theorem make_done {first : Nat} {e : Extent Nat → Tree} {Q : Tree → Prop} (h : ∀ X, Q (e X)) :
    Parses K (Procedure.make first e) w Q w := by
  rw [← bind_pure (Procedure.make first e)]
  exact make fun X => done (h X)

theorem widen {e : Tree} {p : Procedure α} (h : Parses K p w Q rest) :
    Parses K (.widen e p) w Q rest :=
  fun s hs => h (s := s.widen e) hs

/-! ### Passing symbols -/

theorem take {f : Name Nat → Procedure α} (h : ∀ n, Parses K (f ⟨x.lexeme, n⟩) w Q rest) :
    Parses K (take >>= f) (x :: w) Q rest := by
  intro s hs
  have hshift : s.shift.rest = w := by rw [State.shift_of_rest hs]
  obtain ⟨d, a, t, R, hp, ht, hR, hmore⟩ := h s.passed hshift
  have hrepairs : s.shift.repairs = s.repairs := by rw [State.shift_of_rest hs]
  refine ⟨d, a, t, R, ?_, ht, by rw [hR, hrepairs], hmore⟩
  have hnext : s.next = x := by rw [State.next, hs]; rfl
  rw [← hnext] at hp
  exact hp

theorem take_done {Q : Name Nat → Prop} (h : ∀ n, Q ⟨x.lexeme, n⟩) :
    Parses K Procedure.take (x :: w) Q w := by
  rw [← bind_pure Procedure.take]
  exact take fun n => done (h n)

/-- A symbol that is acceptable and there. -/
theorem accept {e : Expectation} (hx : e.accepts x = true) {f : Bool → Procedure α}
    (h : Parses K (f true) w Q rest) :
    Parses K (accept e >>= f) (x :: w) Q rest := by
  intro s hs
  have hnext : s.next = x := by rw [State.next, hs]; rfl
  have hshift : s.shift.rest = w := by rw [State.shift_of_rest hs]
  have hrepairs : s.shift.repairs = s.repairs := by rw [State.shift_of_rest hs]
  obtain ⟨d, a, t, R, hp, ht, hR, hmore⟩ := h hshift
  refine ⟨d, a, t, R, ?_, ht, by rw [hR, hrepairs], hmore⟩
  rw [exec_bind, exec_accept, hnext, if_pos hx]
  exact hp

/-- No acceptable symbol. -/
theorem pass {e : Expectation} (hw : e.accepts (w.headD Symbol.finish) = false)
    {f : Bool → Procedure α} (h : Parses K (f false) w Q rest) :
    Parses K (Procedure.accept e >>= f) w Q rest := by
  intro s hs
  obtain ⟨d, a, t, R, hp, hmore⟩ := h hs
  refine ⟨d, a, t, R, ?_, hmore⟩
  rw [exec_bind, exec_accept, State.next, hs, hw]
  exact hp

theorem passKind {k : Kind} (hw : (w.headD Symbol.finish).kind ≠ k) {f : Bool → Procedure α}
    (h : Parses K (f false) w Q rest) : Parses K (Procedure.accept (.kind k) >>= f) w Q rest :=
  pass (e := .kind k) (decide_eq_false hw) h

theorem expect {expected : List Expectation}
    (hx : (expected.any fun e => e.accepts x) = true) {f : Name Nat → Procedure α}
    (h : ∀ n, Parses K (f ⟨x.lexeme, n⟩) w Q rest) :
    Parses K (expect expected >>= f) (x :: w) Q rest := by
  intro s hs
  have hnext : s.next = x := by rw [State.next, hs]; rfl
  have hexec : ∀ d, (Procedure.expect expected).exec (Rule.run d) s =
      Procedure.take.exec (Rule.run d) s := by
    intro d
    change Procedure.exec _ (if expected.any (fun e => e.accepts s.next) then _ else _) s = _
    rw [hnext, if_pos hx]
  obtain ⟨d, a, t, R, hp, hmore⟩ := take h hs
  refine ⟨d, a, t, R, ?_, hmore⟩
  rw [exec_bind, hexec, ← exec_bind]
  exact hp

/-- A symbol of the expected kind. -/
theorem expectKind {k : Kind} (hx : x.kind = k) {f : Name Nat → Procedure α}
    (h : ∀ n, Parses K (f ⟨x.lexeme, n⟩) w Q rest) :
    Parses K (Procedure.expect [.kind k] >>= f) (x :: w) Q rest :=
  expect (by simp [Expectation.accepts, hx]) h

/-! ### Punctuation -/

/-- A mark that might be missing is there. -/
theorem orMissing {k : Kind} {m : Missing} {f : Unit → Procedure α}
    (h : Parses K (f ()) w Q rest) :
    Parses K (orMissing k m >>= f) (Symbol.mark k :: w) Q rest := by
  intro s hs
  have hnext : s.next = Symbol.mark k := by rw [State.next, hs]; rfl
  have hshift := State.shift_of_rest hs
  have hrest : s.shift.rest = w := by rw [hshift]
  obtain ⟨d, a, t, R, hp, ht, hR, hmore⟩ := h hrest
  refine ⟨d, a, t, R, ?_, ht, by rw [hR, hshift], hmore⟩
  rw [exec_bind, exec_orMissing, hnext, Symbol.mark_kind, if_pos (Eq.refl k)]
  exact hp

/-- One semicolon ends a statement if no other one follows. -/
theorem statementEnd {f : Unit → Procedure α}
    (hw : (w.headD Symbol.finish).kind ≠ .semicolon) (h : Parses K (f ()) w Q rest) :
    Parses K (statementEnd >>= f) (Symbol.mark .semicolon :: w) Q rest := by
  intro s hs
  have hnext : s.next = Symbol.mark .semicolon := by rw [State.next, hs]; rfl
  have hskip : s.skipSemicolons.rest = w := by
    have hrun : w.takeWhile (fun symbol => symbol.kind = .semicolon) = [] := by
      cases w with
      | nil => rfl
      | cons y w => exact List.takeWhile_cons_of_neg (by simpa using hw)
    simp [State.skipSemicolons, hs, hrun]
  obtain ⟨d, a, t, R, hp, ht, hR, hmore⟩ := h hskip
  refine ⟨d, a, t, R, ?_, ht, hR, hmore⟩
  rw [exec_bind, exec_statementEnd, hnext]
  exact hp

theorem note {m : Missing} (hm : K m) {f : Unit → Procedure α} (h : Parses K (f ()) w Q rest) :
    Parses K (note m >>= f) w Q rest := by
  intro s hs
  have hs' : (s.repair m).rest = w := hs
  obtain ⟨d, a, t, R, hp, ht, hR, hK, hQ⟩ := h hs'
  refine ⟨d, a, t, R ++ [⟨s.passed, m⟩], hp, ht, ?_, ?_, hQ⟩
  · rw [hR, List.append_assoc]
    rfl
  · intro r hr
    rcases List.mem_append.1 hr with hr | hr
    · exact hK r hr
    · rw [List.mem_singleton.1 hr]
      exact hm

end Parses

/-! ## Items in a row -/

/-- The symbols `w` are read as the items `ns`, one by one. -/
inductive ParsesItems (K : Missing → Prop) : List Symbol → List (Node Unit (Expr Unit)) → Prop where
  | nil : ParsesItems K [] []
  | cons {w w' : List Symbol} {n : Node Unit (Expr Unit)} {ns : List (Node Unit (Expr Unit))}
      (hw : w ≠ []) (hn : Parses K (run .item) w (fun a => a.bare = n) w') :
      ParsesItems K w' ns → ParsesItems K w (n :: ns)

end Grammar

open Grammar

/-- A session that is given the symbols reads the items. -/
theorem Session.advance_of_parses {K : Missing → Prop} {w : List Symbol}
    {ns : List (Node Unit (Expr Unit))} (h : ParsesItems K w ns) :
    ∀ ⦃s : Session⦄ ⦃count : Nat⦄, s.state.rest = w → w.length < count →
      ∃ ms t R, s.advance count = (t, none) ∧ s.Reads t ms ∧ ms.map Node.bare = ns ∧
        t.state.repairs = R ++ s.state.repairs ∧ ∀ r ∈ R, K r.missing := by
  induction h with
  | nil =>
    intro s count hs _
    exact ⟨[], s, [], advance_of_nil hs, ⟨rfl, hs⟩, rfl, rfl, by simp⟩
  | cons hw hn h ih =>
    rename_i w w' n ns
    intro s count hs hcount
    obtain ⟨count, rfl⟩ : ∃ k, count = k + 1 := ⟨count - 1, by omega⟩
    obtain ⟨d, a, m, R, ha, hm, hR, hK, rfl⟩ := hn hs
    rw [exec_run] at ha
    -- An item passes at least one symbol, so that the bound on items is not met.
    have hlt := progresses_item ha
    rw [hs, hm] at hlt
    have hrest : (s.push (.item a) m).state.rest = w' := hm
    have hmore : w'.length < count := by omega
    obtain ⟨ms, t, R', ht, hreads, hms, hR', hK'⟩ := ih hrest hmore
    refine ⟨a :: ms, t, R' ++ R, ?_, hreads.push, by rw [List.map_cons, hms], ?_, ?_⟩
    · rw [advance_of_accepted (item?_of_run ha) (hs ▸ hw)]
      exact ht
    · rw [hR', List.append_assoc, ← hR]
      rfl
    · intro r hr
      exact (List.mem_append.1 hr).elim (hK' r) (hK r)

namespace Document

/-- A source whose symbols are read as items has a report with these items, and with the edits of
repairs of the given class. -/
theorem parse_of_symbols {K : Missing → Prop} {source : Text} {ns : List (Node Unit (Expr Unit))}
    (h : ParsesItems K (Stream.ofSource source).symbols ns) (o : Options) :
    ∃ report R, parse source o = .ok report ∧ report.module.bare = ns.map .item ∧
      report.edits = ((Repair.chosen (Stream.ofSource source) o R).flatMap Repair.puts).map
        (Put.edit (Stream.ofSource source)) ∧ ∀ r ∈ R, K r.missing := by
  have hrest : (session source o).state.rest = (Stream.ofSource source).symbols := rfl
  obtain ⟨ms, t, R, ht, hreads, hms, hR, hK⟩ :=
    Session.advance_of_parses h hrest (Nat.lt_succ_self _)
  have hrepairs : t.state.repairs = R.reverse.reverse := by
    rw [List.reverse_reverse, hR]
    exact List.append_nil R
  have hreports := reports_of_run ht hreads hrepairs
  refine ⟨t.report, R.reverse, parse_eq_ok.2 ⟨t, ht, rfl⟩, ?_, hreports.edits, ?_⟩
  · rw [hreports.module, Module.bare_map, ← hms, List.map_map]
    rfl
  · exact fun r hr => hK r (List.mem_reverse.1 hr)

end Document

end ShaderRepair
