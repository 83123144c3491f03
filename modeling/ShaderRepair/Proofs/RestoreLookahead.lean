import ShaderRepair.Proofs.Omission
import ShaderRepair.Proofs.RetraceExpression

/-!
# Looking ahead over semicolons that are gone

Whether a declaration starts is found out by looking at a type, array dimensions and a name. In a
run without repairs the brackets of an expression are closed where it ends, so the lookahead does
not go on to what stands behind a semicolon that is gone. This file contains:
- `Symbol.scan`, the lookahead over the kinds of some symbols;
- `Omission.Beside.startsDeclaration`, a declaration among the new symbols;
- `Omission.Beside.not_startsDeclaration_of_expression`, an expression among the new symbols.
-/

namespace ShaderRepair

/-! ## Scanning -/

namespace Symbol

/-- The lookahead after one symbol: the answer, or how many brackets are open. -/
def scanNext : Nat → Kind → Bool ⊕ Nat
  | 0, k => if k = .leftBracket then .inr 1 else .inl (k = .identifier)
  | depth + 1, k =>
    match k with
    | .leftBracket => .inr (depth + 2)
    | .rightBracket => .inr depth
    | .semicolon | .leftBrace | .rightBrace => .inl false
    | _ => .inr (depth + 1)

/-- The lookahead over some symbols. -/
def scan : Nat → List Kind → Bool ⊕ Nat
  | depth, [] => .inr depth
  | depth, k :: w => (scanNext depth k).elim .inl fun depth' => scan depth' w

theorem nameAfterDims_cons (depth : Nat) (s : Symbol) (more : List Symbol) :
    nameAfterDims depth (s :: more) =
      (scanNext depth s.kind).elim id fun depth' => nameAfterDims depth' more := by
  cases depth with
  | zero =>
    rw [nameAfterDims, scanNext]
    split <;> rfl
  | succ depth => cases hk : s.kind <;> simp [nameAfterDims, scanNext, hk]

theorem nameAfterDims_append (depth : Nat) (w rest : List Symbol) :
    nameAfterDims depth (w ++ rest) =
      (scan depth (w.map Symbol.kind)).elim id fun depth' => nameAfterDims depth' rest := by
  induction w generalizing depth with
  | nil => rfl
  | cons s w ih =>
    rw [List.cons_append, nameAfterDims_cons, List.map_cons, scan]
    cases scanNext depth s.kind with
    | inl b => rfl
    | inr depth' => exact ih depth'

theorem scanNext_succ {depth depth' : Nat} {k : Kind} (h : scanNext depth k = .inr depth') :
    scanNext (depth + 1) k = .inr (depth' + 1) := by
  cases depth with
  | zero =>
    rw [scanNext] at h
    split at h
    · next hk =>
      cases h
      rw [hk]
      rfl
    · cases h
  | succ depth => cases k <;> cases h <;> rfl

/-- Inside one more bracket the lookahead goes on where it would without it. -/
theorem scan_succ {depth depth' : Nat} {w : List Kind} (h : scan depth w = .inr depth') :
    scan (depth + 1) w = .inr (depth' + 1) := by
  induction w generalizing depth with
  | nil =>
    cases h
    rfl
  | cons k w ih =>
    rw [scan] at h ⊢
    cases hn : scanNext depth k with
    | inl b =>
      rw [hn] at h
      cases h
    | inr n =>
      rw [hn] at h
      rw [scanNext_succ hn]
      exact ih h

/-! ## What stands behind statements -/

theorem not_plays_of_stops {x : Symbol} {r : Role} (h : x.kind.stops = true) :
    ¬x.plays r = true :=
  fun hx => Kind.ne_of_stops h rfl (Symbol.kind_of_plays hx)

theorem not_startsExpression_of_stops {x : Symbol} (h : x.kind.stops = true) :
    x.startsExpression = false := by
  unfold startsExpression
  split
  · next hk => exact absurd hk (Kind.ne_of_stops h rfl)
  · next hk => exact absurd hk (Kind.ne_of_stops h rfl)
  · next hk => exact absurd hk (Kind.ne_of_stops h rfl)
  · exact Bool.eq_false_iff.2 (not_plays_of_stops h)

end Symbol

namespace Grammar

open Procedure

/-- Pieces without a repair are read as they are. -/
theorem Noted.new_eq {n : Nat} {P : List Piece} {R : List Repair} (h : Noted n P R)
    (hR : R = []) : Piece.new P = Piece.old P := by
  induction h with
  | nil n => rfl
  | kept n h => rfl
  | behind n h => cases hR
  | append h h' ih ih' =>
    obtain ⟨hR, hR'⟩ := List.append_eq_nil_iff.1 hR
    rw [Piece.new_append, Piece.old_append, ih hR, ih' hR']
  | paren h ih => cases hR
  | conversion hs hT h ih => cases (List.append_eq_nil_iff.1 hR).2

namespace Omission

variable {o : Omission} {d : Nat} {s s' m : State} {e : Tree} {w rest : List Symbol}

/-- The symbols of an expression that is read without a repair leave no bracket open. -/
theorem scan_expression (hrun : Rule.run d .expression s = .accepted e m)
    (hrepairs : m.repairs = s.repairs) :
    ∃ w, s.rest = w ++ m.rest ∧ m.passed = s.passed + w.length ∧
      ∀ depth rest, Symbol.nameAfterDims (depth + 1) (w ++ rest) =
        Symbol.nameAfterDims (depth + 1) rest := by
  obtain ⟨-, P, R, hpass, hwhole, -⟩ := (expressions (fun _ _ => false) d).expression s.next rfl
    ((exec_run _ _).trans hrun)
  have hR : R = [] := by
    have hsame := hpass.repairs.symm.trans hrepairs
    simpa using hsame
  refine ⟨Piece.old P, hpass.rest, hpass.passed, ?_⟩
  rw [← hpass.noted.new_eq hR]
  exact hwhole.2

theorem startsExpression_of_expression (hrun : Rule.run d .expression s = .accepted e m) :
    s.next.startsExpression = true := by
  obtain ⟨-, P, R, hpass, hwhole, -⟩ := (expressions (fun _ _ => false) d).expression s.next rfl
    ((exec_run _ _).trans hrun)
  obtain ⟨y, P', rfl, hy⟩ := hwhole.1
  have hnext : s.next = y := by rw [State.next, hpass.rest, Piece.old_kept]; rfl
  rw [hnext]
  exact hy

/-- No expression starts with what ends a statement by itself. -/
theorem not_closes_of_expression (hrun : Rule.run d .expression s = .accepted e m) :
    s.next.kind.closes = false := by
  refine Bool.eq_false_iff.2 fun hcloses => ?_
  have hno := Symbol.not_startsExpression_of_stops (Kind.stops_of_closes hcloses)
  rw [startsExpression_of_expression hrun] at hno
  cases hno

/-- Symbols none of which is gone. -/
theorem exists_new {n : Nat} (hw : o.old.drop n = w ++ rest)
    (hkept : ∀ i, n ≤ i → i < n + w.length → o.gone i = false) :
    ∃ w', o.new.drop (o.count n) = w' ++ o.new.drop (o.count (n + w.length)) ∧
      w'.map Symbol.kind = w.map Symbol.kind := by
  induction w generalizing n with
  | nil => exact ⟨[], rfl, rfl⟩
  | cons x w ih =>
    have hx : o.old[n]? = some x := by
      rw [← List.head?_drop, hw]
      rfl
    have hn : o.gone n = false := hkept n (Nat.le_refl _) (by simp)
    have hmore : o.old.drop (n + 1) = w ++ rest := by
      rw [← List.tail_drop, hw]
      rfl
    obtain ⟨y, hy, hkind⟩ := new_cons hx hn
    obtain ⟨w', hw', hkinds⟩ := ih hmore fun i hle hlt =>
      hkept i (Nat.le_of_succ_le hle) (by rw [List.length_cons]; omega)
    have hlen : n + (x :: w).length = n + 1 + w.length := by
      rw [List.length_cons]
      omega
    refine ⟨y :: w', ?_, ?_⟩
    · rw [hlen, List.cons_append, ← hw', hy]
    · rw [List.map_cons, List.map_cons, hkinds, hkind]

/-! ## Declarations -/

/-- What is a name behind dimensions among the old symbols is one among the new ones. -/
theorem nameAfterDims_new {n depth : Nat} (h : Symbol.nameAfterDims depth (o.old.drop n) = true) :
    Symbol.nameAfterDims depth (o.new.drop (o.count n)) = true := by
  induction hxs : o.old.drop n generalizing n depth with
  | nil =>
    rw [hxs] at h
    cases depth <;> cases h
  | cons x more ih =>
    have hx : o.old[n]? = some x := by
      rw [← List.head?_drop, hxs]
      rfl
    have hmore : o.old.drop (n + 1) = more := by
      rw [← List.tail_drop, hxs]
      rfl
    rw [hxs, Symbol.nameAfterDims_cons] at h
    -- The lookahead stops at a semicolon, so it has not come to one that is gone.
    have hn : o.gone n = false := by
      refine Bool.eq_false_iff.2 fun hgone => ?_
      obtain ⟨y, hy, hk⟩ := o.semicolon n hgone
      obtain rfl : y = x := Option.some.inj (hy.symm.trans hx)
      rw [hk] at h
      cases depth <;> cases h
    obtain ⟨y, hy, hk⟩ := new_cons hx hn
    rw [hy, Symbol.nameAfterDims_cons, hk]
    cases hnext : Symbol.scanNext depth x.kind with
    | inl b =>
      rw [hnext] at h
      exact h
    | inr depth' =>
      rw [hnext] at h
      exact ih (hmore.symm ▸ h) hmore

namespace Beside

theorem startsDeclaration (h : o.Beside s s') (hs : Symbol.startsDeclaration s.rest = true) :
    Symbol.startsDeclaration s'.rest = true := by
  cases hrest : s.rest with
  | nil =>
    rw [hrest] at hs
    cases hs
  | cons x more =>
    rw [hrest] at hs
    simp only [Symbol.startsDeclaration, Bool.and_eq_true, decide_eq_true_eq] at hs
    obtain ⟨hident, hname⟩ := hs
    have hold := hrest.symm.trans h.rest
    have hx : o.old[s.passed]? = some x := by
      rw [← List.head?_drop, ← hold]
      rfl
    have hmore : o.old.drop (s.passed + 1) = more := by
      rw [← List.tail_drop, ← hold]
      rfl
    have hnext : s.next = x := by rw [State.next, hrest, List.headD_cons]
    have hkept : o.gone s.passed = false := by
      refine kept_of_kind h.rest ?_
      rw [hnext, hident]
      exact Kind.noConfusion
    obtain ⟨y, hy, hk⟩ := new_cons hx hkept
    rw [h.rest', h.passed, hy, Symbol.startsDeclaration, nameAfterDims_new (hmore.symm ▸ hname), hk,
      hident]
    rfl

/-- A declaration starts with an identifier. -/
theorem not_startsDeclaration (h : o.Beside s s') (hs : s.next.kind ≠ .identifier) :
    Symbol.startsDeclaration s'.rest = false := by
  have hnext : s'.next.kind ≠ .identifier := by
    cases hgone : o.gone s.passed with
    | true =>
      intro hk
      have hcloses := h.next_of_gone hgone
      rw [hk] at hcloses
      cases hcloses
    | false =>
      rw [h.next_kind hgone]
      exact hs
  cases hrest : s'.rest with
  | nil => rfl
  | cons y more =>
    rw [State.next, hrest, List.headD_cons] at hnext
    simp [Symbol.startsDeclaration, hnext]

/-- Behind an expression stands a semicolon, or what ends a statement without one. -/
theorem not_nameAfterDims (h : o.Beside s s') (hs : s.next.kind = .semicolon) :
    Symbol.nameAfterDims 0 s'.rest = false := by
  have hnext : s'.next.kind.stops = true := by
    cases hgone : o.gone s.passed with
    | true => exact Kind.stops_of_closes (h.next_of_gone hgone)
    | false =>
      rw [h.next_kind hgone, hs]
      rfl
  cases hrest : s'.rest with
  | nil => rfl
  | cons y more =>
    rw [State.next, hrest, List.headD_cons] at hnext
    have hbracket : y.kind ≠ .leftBracket := Kind.ne_of_stops hnext rfl
    have hident : y.kind ≠ .identifier := Kind.ne_of_stops hnext rfl
    simp [Symbol.nameAfterDims, hbracket, hident]

/-- An expression up to a semicolon does not become a declaration where semicolons are gone. -/
theorem not_startsDeclaration_of_expression (h : o.Beside s s')
    (hrun : Rule.run d .expression s = .accepted e m) (hrepairs : m.repairs = s.repairs)
    (hkept : ∀ i, s.passed ≤ i → i < m.passed → o.gone i = false) (hm : m.next.kind = .semicolon)
    (hs : Symbol.startsDeclaration s.rest = false) : Symbol.startsDeclaration s'.rest = false := by
  by_cases hident : s.next.kind = .identifier
  swap
  · exact h.not_startsDeclaration hident
  obtain ⟨w, hw, hpassed, hneutral⟩ := scan_expression hrun hrepairs
  rw [hpassed] at hkept
  obtain ⟨w', hw', hkinds⟩ := exists_new (h.rest.symm.trans hw) hkept
  cases w with
  | nil =>
    have hsame : s.next = m.next := by rw [State.next, State.next, hw, List.nil_append]
    rw [hsame, hm] at hident
    cases hident
  | cons x w =>
    cases w' with
    | nil => cases hkinds
    | cons y w' =>
      obtain ⟨-, hkinds⟩ := List.cons.inj hkinds
      have hx : x.kind = .identifier := by
        rw [State.next, hw] at hident
        exact hident
      -- The brackets that the lookahead has met are closed where the expression ends.
      have hclosed : ∀ depth, Symbol.scan 0 (w.map Symbol.kind) = .inr depth → depth = 0 := by
        intro depth hscan
        have hname := hneutral 0 [Symbol.mark .rightBracket, Symbol.mark .identifier]
        rw [Symbol.nameAfterDims_append, List.map_cons, hx] at hname
        change (Symbol.scan 1 (w.map Symbol.kind)).elim id _ = true at hname
        rw [Symbol.scan_succ hscan] at hname
        cases depth with
        | zero => rfl
        | succ depth => cases hname
      rw [hw, List.cons_append, Symbol.startsDeclaration, decide_eq_true hx, Bool.true_and,
        Symbol.nameAfterDims_append] at hs
      rw [h.rest', h.passed, hw', List.cons_append, Symbol.startsDeclaration,
        Symbol.nameAfterDims_append, hkinds]
      cases hscan : Symbol.scan 0 (w.map Symbol.kind) with
      | inl b =>
        rw [hscan] at hs
        exact Bool.and_eq_false_imp.2 fun _ => hs
      | inr depth =>
        obtain rfl := hclosed depth hscan
        have hbehind : o.Beside m ⟨o.new.drop (o.count m.passed), o.count m.passed,
            o.missed m.passed, []⟩ := by
          refine ⟨?_, rfl, rfl, rfl⟩
          obtain ⟨v, R, hv⟩ := Rule.advances d .expression hrun
          exact hv.drop h.rest
        rw [← hpassed]
        exact Bool.and_eq_false_imp.2 fun _ => hbehind.not_nameAfterDims hm

end Beside

end Omission

end Grammar

end ShaderRepair
