import ShaderRepair.Proofs.Options
import ShaderRepair.Proofs.RetraceStatement

/-!
# Retracing a session

A session that reads all its symbols, item by item, leaves pieces behind. Another session that is
given the new symbols of these pieces reads as many items, alike up to conversions, and needs no
repair. This file contains:
- `Grammar.item?_retraced`, the step: one item;
- `Session.advance_retraced`, the run: all items.
-/

namespace ShaderRepair

open Grammar Grammar.Piece

/-! ## One item -/

/-- The depth that suffices for the old symbols suffices for the new ones, since each symbol put in
allows for more calls. -/
theorem Grammar.depth_le {s s' t : State} {P : List Piece} {rest' : List Symbol}
    (hs : s.rest = old P ++ t.rest) (hs' : s'.rest = new P ++ rest')
    (hrest : t.rest.length ≤ rest'.length) :
    s.depth + callsPerSymbol * extra P ≤ s'.depth := by
  have hnew := length_new P
  have hle : s.rest.length + 1 + extra P ≤ s'.rest.length + 1 := by
    rw [hs, hs', List.length_append, List.length_append]
    omega
  calc s.depth + callsPerSymbol * extra P
      = (s.rest.length + 1 + extra P) * callsPerSymbol := by
        rw [State.depth, Nat.mul_comm callsPerSymbol, ← Nat.add_mul]
    _ ≤ s'.depth := Nat.mul_le_mul_right _ hle

/-- An item that was read with repairs is read from the repaired symbols without any. -/
theorem Grammar.item?_retraced (C : Nat → Text → Bool) {s t : State} {n : Item}
    (h : item? s = .accepted n t) :
    ∃ P R, Passes s t P R ∧ Opens P ∧
      (Agrees C s.passed P R → ∀ ⦃s' : State⦄ ⦃rest' : List Symbol⦄,
        s'.rest = new P ++ rest' → t.rest.length ≤ rest'.length → Follows [] t.rest rest' →
        ∃ n' t', item? s' = .accepted n' t' ∧ t'.rest = rest' ∧ t'.repairs = s'.repairs ∧
          AlikeNode C n n') := by
  have hrun : (Procedure.run .item).exec (Rule.run s.depth) s = .accepted n t := by
    rw [exec_run]
    exact h
  obtain ⟨-, P, R, hpass, hP, hsim⟩ := (items_retraced C s.depth).item s.next rfl hrun
  refine ⟨P, R, hpass, hP, ?_⟩
  intro hC s' rest' hs' hlen hfollows
  obtain ⟨n', t', hn', ht', hr', hq⟩ :=
    hsim hC (depth_le hpass.rest hs' hlen) hs' hfollows
  refine ⟨n', t', ?_, ht', hr', hq⟩
  rw [exec_run] at hn'
  exact hn'

/-! ## All items -/

namespace Session

/-- Where symbols are left, one item is read first. -/
theorem advance_accepted {count : Nat} {s t : Session}
    (h : s.advance (count + 1) = (t, none)) (hs : s.state.rest ≠ []) :
    ∃ n m, item? s.state = .accepted n m ∧ (s.push (.item n) m).advance count = (t, none) := by
  have hempty : s.state.rest.isEmpty = false := by simpa using hs
  cases hi : item? s.state with
  | accepted n m =>
    simp only [advance, hempty, hi, Bool.false_eq_true, if_false] at h
    exact ⟨n, m, rfl, h⟩
  | rejected why m =>
    simp [advance, hempty, hi] at h

theorem advance_of_accepted {count : Nat} {s : Session} {n : Item} {m : State}
    (h : item? s.state = .accepted n m) (hs : s.state.rest ≠ []) :
    s.advance (count + 1) = (s.push (.item n) m).advance count := by
  have hempty : s.state.rest.isEmpty = false := by simpa using hs
  simp [advance, hempty, h]

theorem advance_of_nil {count : Nat} {s : Session} (hs : s.state.rest = []) :
    s.advance count = (s, none) := by
  cases count with
  | zero => rfl
  | succ count => simp [advance, hs]

/-- The session `t` came from `s` by reading the items `ns`. -/
structure Reads (s t : Session) (ns : List Item) : Prop where
  pieces : t.pieces = (ns.map .item).reverse ++ s.pieces
  rest : t.state.rest = []

theorem Reads.push {s t : Session} {n : Item} {ns : List Item} {m : State}
    (h : (s.push (.item n) m).Reads t ns) : s.Reads t (n :: ns) := by
  refine ⟨?_, h.rest⟩
  rw [h.pieces]
  simp [Session.push]

/-- A session that reads all its symbols is retraced on the new symbols of its pieces. -/
theorem advance_retraced (C : Nat → Text → Bool) (count : Nat) {s t : Session}
    (h : s.advance count = (t, none)) (hcount : s.state.rest.length < count) :
    ∃ ns P R, s.Reads t ns ∧ Passes s.state t.state P R ∧ Led P ∧
      (Agrees C s.state.passed P R → ∀ ⦃s' : Session⦄ ⦃count' : Nat⦄,
        s'.state.rest = new P → (new P).length < count' →
        ∃ ns' t', s'.advance count' = (t', none) ∧ s'.Reads t' ns' ∧
          t'.state.repairs = s'.state.repairs ∧ AlikeNodes C ns ns') := by
  induction count generalizing s with
  | zero => exact absurd hcount (Nat.not_lt_zero _)
  | succ count ih =>
    by_cases hs : s.state.rest = []
    · rw [advance_of_nil hs] at h
      cases h
      refine ⟨[], [], [], ⟨rfl, hs⟩, .refl _, .inl rfl, ?_⟩
      intro _ s' count' hs' _
      exact ⟨[], s', advance_of_nil hs', ⟨rfl, hs'⟩, rfl, rfl⟩
    · obtain ⟨n, m, hn, hmore⟩ := advance_accepted h hs
      obtain ⟨P, R, hpass, hP, hitem⟩ := item?_retraced C hn
      -- An item passes a symbol, so the bound suffices for the rest.
      obtain ⟨y, P₁, rfl⟩ := hP
      have hlen : m.rest.length < count := by
        have hlen' := congrArg List.length hpass.rest
        simp only [old_kept, List.length_append, List.length_cons] at hlen'
        omega
      obtain ⟨ns, P', R', hreads, hpass', hP', hitems⟩ := ih hmore hlen
      have hpass'' : Passes m t.state P' R' :=
        ⟨hpass'.rest, hpass'.passed, hpass'.repairs, hpass'.noted⟩
      refine ⟨n :: ns, _ ++ P', R ++ R', hreads.push, hpass.trans hpass'', ?_, ?_⟩
      · exact .inr opens_kept.append
      intro hC s' count' hs' hcount'
      have hnoted : Noted (s.state.passed + (old (.kept y :: P₁)).length) P' R' := by
        have := hpass''.noted
        rwa [hpass.passed] at this
      obtain ⟨hC₁, hC₂⟩ := hC.split hpass.noted hnoted
      rw [← hpass.passed] at hC₂
      have hrest : m.rest = old P' := by
        rw [hpass''.rest, hreads.rest, List.append_nil]
      have hfollows : Follows [] m.rest (new P') := by
        have hnil : Follows [] ([] : List Symbol) [] := ⟨.nil, .inl rfl⟩
        have htol : Tolerates (Among []) [] P' := hP'.tolerates (by simp)
        simpa [hrest] using hnil.of_tolerates hpass''.noted htol
      have hle : m.rest.length ≤ (new P').length := by
        rw [hrest]
        exact length_old_le_new P'
      rw [new_append] at hs' hcount'
      obtain ⟨n', m', hn', hm', hr', hq⟩ := hitem hC₁ hs' hle hfollows
      obtain ⟨count', rfl⟩ : ∃ k, count' = k + 1 := ⟨count' - 1, by omega⟩
      have hs'' : s'.state.rest ≠ [] := by
        rw [hs', new_kept]
        exact List.cons_ne_nil _ _
      have hcount'' : (new P').length < count' := by
        simp only [new_kept, List.length_append, List.length_cons] at hcount'
        omega
      have hpush : (s'.push (.item n') m').state.rest = new P' := hm'
      obtain ⟨ns', t', ht', hreads', hr'', hq'⟩ := hitems hC₂ hpush hcount''
      refine ⟨n' :: ns', t', ?_, hreads'.push, hr''.trans hr', ?_⟩
      · rw [advance_of_accepted hn' hs'']
        exact ht'
      · simp only [AlikeNodes, Node.convertAll, Node.bareAll, Node.mapAll, List.cons.injEq]
        exact ⟨hq, hq'⟩

end Session

end ShaderRepair
