import Mathlib.Order.Monotone.Basic
import ShaderRepair.Proofs.Advance
import ShaderRepair.Proofs.Evaluation

/-!
# Leaving semicolons out

Some single semicolons are left out, each of them in front of something that ends a statement by
itself. This file contains:
- `Kind.closes`, what a semicolon may be left out in front of;
- `Omission`, a list of symbols and what is left of it, with `moved`, the new place of a symbol;
- `Omission.Beside`, which says that two states stand at the same place, one in each list;
- what the steps of a procedure do to such states.
-/

namespace ShaderRepair

/-- A closing brace, the end of input, qualifiers and the other keywords. -/
def Kind.closes : Kind → Bool
  | .rightBrace | .endOfInput | .precision | .struct | .layout | .qualifier | .if | .else | .for
  | .while | .do | .break | .continue | .switch | .case | .default | .return | .discard => true
  | _ => false

/-- What may stand behind a statement: a semicolon, or what ends it without one. -/
def Kind.stops (k : Kind) : Bool :=
  k == .semicolon || k.closes

/-- What may stand behind a statement is not of another kind. -/
theorem Kind.ne_of_stops {k k' : Kind} (h : k.stops = true) (h' : k'.stops = false) : k ≠ k' := by
  rintro rfl
  rw [h] at h'
  cases h'

theorem Kind.stops_of_closes {k : Kind} (h : k.closes = true) : k.stops = true := by
  rw [stops, h, Bool.or_true]

/-- A semicolon can be passed. -/
theorem Kind.passes_of_semicolon {k : Kind} (h : k = .semicolon) :
    k ≠ .error ∧ k ≠ .endOfInput := by
  rw [h]
  exact ⟨Kind.noConfusion, Kind.noConfusion⟩

/-! ## Where semicolons stand -/

mutual

/-- The marks of the semicolons that end declarations, members and statements. A return statement
without a value, qualifiers on their own, an empty statement and the clauses of a for statement are
not among them. -/
def Node.terminators {μ ε : Type} : Node μ ε → List μ
  | .struct x _ _ ms _ => ms.map (fun l => l.extent.last) ++ [x.last]
  | .interface x _ _ ms _ => ms.map (fun l => l.extent.last) ++ [x.last]
  | .vars x _ => [x.last]
  | .prototype x _ => [x.last]
  | .function _ _ _ body => Node.terminatorsAll body
  | .precision x _ _ => [x.last]
  | .qualifiers _ _ _ => []
  | .expression x _ => [x.last]
  | .empty _ => []
  | .block _ body => Node.terminatorsAll body
  | .ifThen _ _ yes => yes.terminators
  | .ifElse _ _ yes no => yes.terminators ++ no.terminators
  | .switch _ _ cases => Case.terminatorsAll cases
  | .forLoop _ _ _ _ body => body.terminators
  | .whileLoop _ _ body => body.terminators
  | .doWhile x body _ => body.terminators ++ [x.last]
  | .break x => [x.last]
  | .continue x => [x.last]
  | .return x (some _) => [x.last]
  | .return _ none => []
  | .discard x => [x.last]

def Node.terminatorsAll {μ ε : Type} : List (Node μ ε) → List μ
  | [] => []
  | n :: more => n.terminators ++ Node.terminatorsAll more

def Case.terminatorsAll {μ ε : Type} : List (Case μ ε) → List μ
  | [] => []
  | .mk _ _ body :: more => Node.terminatorsAll body ++ Case.terminatorsAll more

end

namespace Grammar

/-! ## Passing symbols -/

namespace State

/-- A symbol that can be passed is. -/
theorem advances_shift (s : State) (hx : s.next.kind ≠ .error ∧ s.next.kind ≠ .endOfInput) :
    Advances s s.shift [s.next] [] :=
  s.shift_cases.resolve_right fun hno => hx.2 hno.2

theorem next_shift (s : State) (hx : s.next.kind ≠ .error ∧ s.next.kind ≠ .endOfInput) :
    s.shift.next = s.second := by
  obtain ⟨more, hrest⟩ := rest_of_next rfl hx.2
  rw [shift_of_rest hrest, second, hrest]
  rfl

/-- Semicolons in a row are passed one by one. -/
theorem skipSemicolons_of_shift (s : State) (h : s.next.kind = .semicolon) :
    s.skipSemicolons = s.shift.skipSemicolons := by
  rw [skipSemicolons_of_semicolon h, shift_eq_pass (.of_kind h (by decide))]

theorem lt_skipSemicolons (s : State) (h : s.next.kind = .semicolon) :
    s.passed < s.skipSemicolons.passed := by
  have hs := (s.advances_shift (Kind.passes_of_semicolon h)).passed
  have hle := (Advances.skipSemicolons s.shift).le
  rw [hs, ← s.skipSemicolons_of_shift h] at hle
  exact hle

end State

/-! ## Omissions -/

/-- How many of the first `n` symbols are kept. -/
def keptCount (gone : Nat → Bool) : Nat → Nat
  | 0 => 0
  | n + 1 => keptCount gone n + if gone n then 0 else 1

/-- The symbol as it is, or with a line break that stood in front of a semicolon. -/
def Shows (x y : Symbol) : Prop :=
  y = x ∨ (x.kind.closes = true ∧ y = { x with broken := true })

theorem Shows.kind_eq {x y : Symbol} (h : Shows x y) : y.kind = x.kind := by
  rcases h with h | ⟨-, h⟩ <;> rw [h]

/-- Some semicolons of `old` are gone, the others are in `new`. -/
structure Omission where
  /-- Whether the symbol with a number is gone. -/
  gone : Nat → Bool
  old : List Symbol
  new : List Symbol
  shows : ∀ n x, old[n]? = some x → gone n = false →
    ∃ y, new[keptCount gone n]? = some y ∧ Shows x y
  length : new.length = keptCount gone old.length
  /-- Each semicolon that is gone stands alone, in front of what ends a statement without one. -/
  semicolon : ∀ n, gone n = true → ∃ x, old[n]? = some x ∧ x.kind = .semicolon
  closed : ∀ n x, gone n = true → old[n + 1]? = some x → x.kind.closes = true
  single : ∀ n x, gone (n + 1) = true → old[n]? = some x → x.kind ≠ .semicolon

namespace Omission

variable (o : Omission)

/-- How many of the first symbols are kept. -/
def count (n : Nat) : Nat :=
  keptCount o.gone n

/-- The new place of a symbol, for one that is gone that of the symbol before. -/
def moved (n : Nat) : Nat :=
  o.count (n + 1) - 1

/-- The expression with moved marks. -/
def tree (e : Tree) : Tree :=
  e.map (Extent.map o.moved)

@[simp] theorem note_tree (e : Tree) : (o.tree e).note = e.note.map o.moved := by
  cases e <;> rfl

theorem first_tree (e : Tree) : (o.tree e).note.first = o.moved e.note.first := by
  rw [note_tree]
  rfl

theorem tree_setNote (e : Tree) (X : Extent Nat) :
    o.tree (e.setNote X) = (o.tree e).setNote (X.map o.moved) := by
  cases e <;> rfl

/-- The semicolons that are missed among the first symbols, the latest one first. -/
def missed : Nat → List Repair
  | 0 => []
  | n + 1 => if o.gone n then ⟨o.count n, .semicolon⟩ :: missed n else missed n

section Count

variable {o} {n : Nat}

theorem count_of_gone (h : o.gone n = true) : o.count (n + 1) = o.count n := by
  simp [count, keptCount, h]

theorem count_of_kept (h : o.gone n = false) : o.count (n + 1) = o.count n + 1 := by
  simp [count, keptCount, h]

theorem count_mono : Monotone o.count :=
  monotone_nat_of_le_succ fun _ => Nat.le_add_right _ _

theorem moved_of_kept (h : o.gone n = false) : o.moved n = o.count n := by
  rw [moved, count_of_kept h, Nat.add_sub_cancel]

/-- The symbol passed last is the one passed last among those that are kept. -/
theorem moved_pred : o.moved (n - 1) = o.count n - 1 := by
  cases n with
  | zero =>
    have hle : o.count 1 ≤ 1 := by
      cases h : o.gone 0 with
      | true =>
        rw [count_of_gone h]
        exact Nat.zero_le _
      | false =>
        rw [count_of_kept h]
        exact Nat.le_refl _
    rw [moved, count, keptCount]
    exact Nat.sub_eq_zero_of_le hle
  | succ n => rfl

theorem missed_of_gone (h : o.gone n = true) :
    o.missed (n + 1) = ⟨o.count n, .semicolon⟩ :: o.missed n := by
  simp [missed, h]

theorem missed_of_kept (h : o.gone n = false) : o.missed (n + 1) = o.missed n := by
  simp [missed, h]

end Count

/-- A symbol that is kept comes next among the new symbols too. -/
theorem new_cons {o : Omission} {n : Nat} {x : Symbol} (hx : o.old[n]? = some x)
    (hn : o.gone n = false) :
    ∃ y, o.new.drop (o.count n) = y :: o.new.drop (o.count (n + 1)) ∧ y.kind = x.kind := by
  obtain ⟨y, hy, hshows⟩ := o.shows n x hx hn
  obtain ⟨hlt, heq⟩ := List.getElem?_eq_some_iff.1 hy
  refine ⟨y, ?_, hshows.kind_eq⟩
  rw [count_of_kept hn, count, List.drop_eq_getElem_cons hlt, heq]

/-! ## States beside each other -/

/-- The state `s` among the old symbols and the state `s'` among the new ones stand at the same
place, and the repairs of `s'` are the semicolons that are missed up to there. -/
structure Beside (s s' : State) : Prop where
  rest : s.rest = o.old.drop s.passed
  rest' : s'.rest = o.new.drop s'.passed
  passed : s'.passed = o.count s.passed
  repairs : s'.repairs = o.missed s.passed

variable {o} {s s' : State}

theorem kind_of_gone (h : o.gone s.passed = true) (hs : s.rest = o.old.drop s.passed) :
    s.next.kind = .semicolon := by
  obtain ⟨x, hx, hk⟩ := o.semicolon _ h
  rw [State.next, hs, List.headD_eq_head?_getD, List.head?_drop, hx]
  exact hk

/-- Nothing but semicolons is gone. -/
theorem kept_of_kind (hs : s.rest = o.old.drop s.passed) (h : s.next.kind ≠ .semicolon) :
    o.gone s.passed = false :=
  Bool.eq_false_iff.2 fun hgone => h (kind_of_gone hgone hs)

namespace Beside

/-- A symbol that is kept is the next one among the new symbols too. -/
theorem next (h : o.Beside s s') (hgone : o.gone s.passed = false) : Shows s.next s'.next := by
  rw [State.next, State.next, h.rest, h.rest', h.passed, List.headD_eq_head?_getD,
    List.headD_eq_head?_getD, List.head?_drop, List.head?_drop]
  cases hx : o.old[s.passed]? with
  | some x =>
    obtain ⟨y, hy, hshows⟩ := o.shows _ x hx hgone
    rw [count, hy]
    exact hshows
  -- Behind the last old symbol there is no new one either.
  | none =>
    have hle : o.new.length ≤ o.count s.passed := by
      rw [o.length]
      exact count_mono (List.getElem?_eq_none_iff.1 hx)
    rw [List.getElem?_eq_none hle]
    exact .inl rfl

theorem next_kind (h : o.Beside s s') (hgone : o.gone s.passed = false) :
    s'.next.kind = s.next.kind :=
  (h.next hgone).kind_eq

/-- In the place of a semicolon that is gone stands something that ends the statement. -/
theorem next_of_gone (h : o.Beside s s') (hgone : o.gone s.passed = true) :
    s'.next.kind.closes = true := by
  have hcount : s'.passed = o.count (s.passed + 1) := h.passed.trans (count_of_gone hgone).symm
  rw [State.next, h.rest', hcount, List.headD_eq_head?_getD, List.head?_drop]
  cases hx : o.old[s.passed + 1]? with
  | some x =>
    have hcloses := o.closed _ x hgone hx
    -- What closes a statement is no semicolon, so it is not gone itself.
    have hkept : o.gone (s.passed + 1) = false := by
      refine Bool.eq_false_iff.2 fun hnext => ?_
      obtain ⟨z, hz, hk⟩ := o.semicolon _ hnext
      obtain rfl : z = x := Option.some.inj (hz.symm.trans hx)
      rw [hk] at hcloses
      cases hcloses
    obtain ⟨y, hy, rfl | ⟨-, rfl⟩⟩ := o.shows _ x hx hkept
    · rw [count, hy]
      exact hcloses
    · rw [count, hy]
      exact hcloses
  | none =>
    have hle : o.new.length ≤ o.count (s.passed + 1) := by
      rw [o.length]
      exact count_mono (List.getElem?_eq_none_iff.1 hx)
    rw [List.getElem?_eq_none hle]
    rfl

/-- Both runs pass a symbol that is kept. -/
theorem shift (h : o.Beside s s') (hgone : o.gone s.passed = false)
    (hx : s.next.kind ≠ .error ∧ s.next.kind ≠ .endOfInput) : o.Beside s.shift s'.shift := by
  have hs := s.advances_shift hx
  have hs' := s'.advances_shift (h.next_kind hgone ▸ hx)
  refine ⟨hs.drop h.rest, hs'.drop h.rest', ?_, ?_⟩
  · rw [hs.passed, hs'.passed, h.passed]
    exact (count_of_kept hgone).symm
  · rw [hs'.repairs, hs.passed]
    exact h.repairs.trans (missed_of_kept hgone).symm

/-- One run passes a semicolon that is gone, the other one misses it. -/
theorem miss (h : o.Beside s s') (hgone : o.gone s.passed = true) :
    o.Beside s.shift (s'.repair .semicolon) := by
  have hk := kind_of_gone hgone h.rest
  have hs := s.advances_shift (Kind.passes_of_semicolon hk)
  refine ⟨hs.drop h.rest, h.rest', ?_, ?_⟩
  · rw [hs.passed]
    exact h.passed.trans (count_of_gone hgone).symm
  · rw [hs.passed]
    change ⟨s'.passed, .semicolon⟩ :: s'.repairs = o.missed (s.passed + 1)
    rw [missed_of_gone hgone, h.passed, h.repairs]

/-- Both runs pass semicolons in a row, none of which is gone. -/
theorem skipSemicolons (h : o.Beside s s')
    (hgone : ∀ i, s.passed ≤ i → i < s.skipSemicolons.passed → o.gone i = false) :
    o.Beside s.skipSemicolons s'.skipSemicolons := by
  -- By induction on the symbols left, one semicolon at a time.
  induction hn : s.rest.length generalizing s s' with
  | zero =>
    have hk : s.next.kind ≠ .semicolon := by
      rw [State.next, List.length_eq_zero_iff.1 hn]
      exact Kind.noConfusion
    have hk' : s'.next.kind ≠ .semicolon := by
      rw [h.next_kind (kept_of_kind h.rest hk)]
      exact hk
    rwa [State.skipSemicolons_of_other hk, State.skipSemicolons_of_other hk']
  | succ n ih =>
    by_cases hk : s.next.kind = .semicolon
    · have hpass := Kind.passes_of_semicolon hk
      have hs := s.advances_shift hpass
      have hkept := hgone s.passed (Nat.le_refl _) (s.lt_skipSemicolons hk)
      have hk' : s'.next.kind = .semicolon := (h.next_kind hkept).trans hk
      rw [s.skipSemicolons_of_shift hk] at hgone ⊢
      rw [s'.skipSemicolons_of_shift hk']
      refine ih (h.shift hkept hpass) (fun i hle => hgone i (Nat.le_trans hs.le hle)) ?_
      have hlen := congrArg List.length hs.rest
      simp only [List.length_append, List.length_cons, List.length_nil] at hlen
      omega
    · have hk' : s'.next.kind ≠ .semicolon := by
        rw [h.next_kind (kept_of_kind h.rest hk)]
        exact hk
      rwa [State.skipSemicolons_of_other hk, State.skipSemicolons_of_other hk']

/-- Where the end of a statement is gone, the second run misses it. -/
theorem statementEnd_of_gone {callee : (r : Rule) → State → Outcome r.Result} (h : o.Beside s s')
    (hgone : o.gone s.passed = true) (hsingle : s.skipSemicolons.passed = s.passed + 1)
    (hrest : s.skipSemicolons.rest = o.old.drop s.skipSemicolons.passed) :
    ∃ t', Procedure.statementEnd.exec callee s' = .accepted () t' ∧
      o.Beside s.skipSemicolons t' := by
  have hclosed : s'.next.kind ≠ .semicolon := by
    intro hk
    have hcloses := h.next_of_gone hgone
    rw [hk] at hcloses
    cases hcloses
  have hmiss := h.miss hgone
  have hshift := s.advances_shift (Kind.passes_of_semicolon (kind_of_gone hgone h.rest))
  have hpassed : s.shift.passed = s.skipSemicolons.passed := by
    rw [hsingle]
    exact hshift.passed
  refine ⟨s'.repair .semicolon, ?_, hrest, hmiss.rest', ?_, ?_⟩
  · rw [exec_statementEnd, if_neg hclosed]
  · rw [← hpassed]
    exact hmiss.passed
  · rw [← hpassed]
    exact hmiss.repairs

/-- Where none of the semicolons is gone, both runs pass them. -/
theorem statementEnd_of_kept {callee : (r : Rule) → State → Outcome r.Result} (h : o.Beside s s')
    (hx : s.next.kind = .semicolon)
    (hkept : ∀ i, s.passed ≤ i → i < s.skipSemicolons.passed → o.gone i = false) :
    ∃ t', Procedure.statementEnd.exec callee s' = .accepted () t' ∧
      o.Beside s.skipSemicolons t' := by
  refine ⟨s'.skipSemicolons, ?_, h.skipSemicolons hkept⟩
  rw [exec_statementEnd, if_pos]
  rw [h.next_kind (hkept _ (Nat.le_refl _) (s.lt_skipSemicolons hx)), hx]

end Beside

end Omission

end Grammar

end ShaderRepair
