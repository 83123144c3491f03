import ShaderRepair.Proofs.Procedure

/-!
# Branches of the rules for expressions

What an accepted run of a rule for expressions has gone through: the symbols it looked at, the calls
it made and the tree it built. The rules that are called are any. This file contains:
- `exec_assignment_accepted` and `exec_conditional_accepted`;
- `ReadsOperand`, the operands of binary operators, with `exec_binary_accepted` and
  `exec_binaryRest_accepted`;
- `Trails`, what stands behind an operand, with `exec_unary_accepted`, `exec_suffixes_accepted` and
  `exec_primary_accepted`.
-/

namespace ShaderRepair

/-- Whether a symbol goes on with the operand before it. -/
def Symbol.trails (s : Symbol) : Bool :=
  s.kind = .dot || s.kind = .leftBracket || (s.kind = .leftParen && !s.broken) ||
    (s.plays .trailing && !s.broken)

theorem Symbol.kind_of_plays {s : Symbol} {r : Role} (h : s.plays r = true) :
    s.kind = .operator := by
  simp only [Symbol.plays, Bool.and_eq_true, beq_iff_eq] at h
  exact h.1

namespace Grammar

open Procedure

variable {α : Type} {callee : (r : Rule) → State → Outcome r.Result} {s t : State} {e : Tree}

/-! ## Steps -/

theorem exec_ite_accepted {c : Prop} [Decidable c] {p q : Procedure α} {a : α} :
    (if c then p else q).exec callee s = .accepted a t ↔
      c ∧ p.exec callee s = .accepted a t ∨ ¬c ∧ q.exec callee s = .accepted a t := by
  by_cases h : c <;> simp [h]

theorem exec_extentFrom (first : Nat) :
    (extentFrom first).exec callee s = .accepted ⟨first, s.passed - 1⟩ s :=
  rfl

theorem exec_widen_done {a b : Tree} :
    (Procedure.widen a (.done b)).exec callee s = .accepted e t ↔ b = e ∧ s.widen a = t := by
  rw [Procedure.exec, Procedure.exec, Outcome.accepted.injEq]

/-! ## Assignments and conditionals -/

theorem exec_assignment_accepted :
    assignment.exec callee s = .accepted e t ↔
      ∃ left m, (run .conditional).exec callee s = .accepted left m ∧
        (m.next.plays .assignment = true ∧
          (∃ right m', (run .assignment).exec callee m.shift = .accepted right m' ∧
            (make left.note.first fun X =>
              .binary X .assignment m.next.lexeme left right).exec callee m' = .accepted e t) ∨
        m.next.plays .assignment = false ∧ left = e ∧ m = t) := by
  simp only [assignment, exec_bind_accepted, exec_next, exec_ite_accepted, exec_take, exec_pure,
    Outcome.accepted.injEq, and_assoc, exists_and_left, exists_eq_left', Bool.not_eq_true]

theorem exec_conditional_accepted :
    conditional.exec callee s = .accepted e t ↔
      ∃ condition m, (run (.binary .logicalOr)).exec callee s = .accepted condition m ∧
        (m.next.plays .conditional = true ∧
          (∃ yes m₁, (run .expression).exec callee m.shift = .accepted yes m₁ ∧
            ∃ u m₂, colon.exec callee m₁ = .accepted u m₂ ∧
            ∃ no m₃, (run .assignment).exec callee m₂ = .accepted no m₃ ∧
              (make condition.note.first fun X =>
                .conditional X condition yes no).exec callee m₃ = .accepted e t) ∨
        m.next.plays .conditional = false ∧ condition = e ∧ m = t) := by
  simp only [conditional, exec_bind_accepted, exec_next, exec_ite_accepted, exec_take, exec_pure,
    Outcome.accepted.injEq, and_assoc, exists_and_left, exists_eq_left', Bool.not_eq_true]

/-! ## Binary operators -/

/-- An operand of an operation of the level is read by the next tighter rule. -/
inductive ReadsOperand (callee : (r : Rule) → State → Outcome r.Result) (level : Level) (s : State)
    (operand : Tree) (m : State) : Prop where
  | binary {tighter : Level} (ht : level.tighter = some tighter)
      (h : (run (.binary tighter)).exec callee s = .accepted operand m)
  | unary (ht : level.tighter = none) (h : (run .unary).exec callee s = .accepted operand m)

theorem exec_operand_accepted {level : Level} {k : Tree → Procedure α} {a : α} :
    (match level.tighter with
      | some tighter => run (.binary tighter) >>= k
      | none => run .unary >>= k).exec callee s = .accepted a t ↔
      ∃ operand m, ReadsOperand callee level s operand m ∧
        (k operand).exec callee m = .accepted a t := by
  constructor
  · intro h
    split at h
    · next tighter ht =>
      obtain ⟨operand, m, hoperand, hk⟩ := exec_bind_accepted.1 h
      exact ⟨operand, m, .binary ht hoperand, hk⟩
    · next ht =>
      obtain ⟨operand, m, hoperand, hk⟩ := exec_bind_accepted.1 h
      exact ⟨operand, m, .unary ht hoperand, hk⟩
  · rintro ⟨operand, m, ⟨ht, hoperand⟩ | ⟨ht, hoperand⟩, hk⟩
    · rw [ht]
      exact exec_bind_accepted.2 ⟨operand, m, hoperand, hk⟩
    · rw [ht]
      exact exec_bind_accepted.2 ⟨operand, m, hoperand, hk⟩

theorem exec_binary_accepted {level : Level} :
    (binary level).exec callee s = .accepted e t ↔
      ∃ left m, ReadsOperand callee level s left m ∧
        (run (.binaryRest level left)).exec callee m = .accepted e t :=
  exec_operand_accepted

theorem exec_binaryRest_accepted {level : Level} {left : Tree} :
    (binaryRest level left).exec callee s = .accepted e t ↔
      s.next.plays level.role = true ∧
        (∃ right m, ReadsOperand callee level s.shift right m ∧
          ∃ tree m', (make left.note.first fun X =>
              .binary X level.family s.next.lexeme left right).exec callee m = .accepted tree m' ∧
            (run (.binaryRest level tree)).exec callee m' = .accepted e t) ∨
      s.next.plays level.role = false ∧ left = e ∧ s = t := by
  simp only [binaryRest, exec_bind_accepted, exec_next, exec_ite_accepted, exec_take, exec_pure,
    Outcome.accepted.injEq, and_assoc, exists_and_left, exists_eq_left', Bool.not_eq_true]
  refine or_congr_left (and_congr_right fun _ => exec_operand_accepted.trans ?_)
  simp only [exec_bind_accepted]

/-! ## Operands -/

theorem exec_unary_accepted :
    unary.exec callee s = .accepted e t ↔
      s.next.plays .unary = true ∧
        (∃ operand m, (run .unary).exec callee s.shift = .accepted operand m ∧
          (make s.passed fun X => .unary X s.next.lexeme .before operand).exec callee m =
            .accepted e t) ∨
      s.next.plays .unary = false ∧
        ∃ object m, (run .primary).exec callee s = .accepted object m ∧
          (run (.suffixes object)).exec callee m = .accepted e t := by
  simp only [unary, exec_bind_accepted, exec_next, exec_ite_accepted, exec_take,
    Outcome.accepted.injEq, and_assoc, exists_and_left, exists_eq_left', Bool.not_eq_true]

/-- What trails the object has been read up to the last state, and this is what it makes of it. -/
inductive Trails (callee : (r : Rule) → State → Outcome r.Result) (object : Tree) (s : State) :
    (Extent Nat → Tree) → State → Prop where
  | member {name : Name Nat} {m : State} (hopening : s.next.kind = .dot)
      (hname : (expect [.kind .identifier]).exec callee s.shift = .accepted name m) :
      Trails callee object s (fun X => .member X object name.text) m
  | unsized (hopening : s.next.kind = .leftBracket)
      (hclosing : s.shift.next.kind = .rightBracket) :
      Trails callee object s (fun X => .unsized X object) s.shift.shift
  | index {position : Tree} {closing : Name Nat} {m m' : State}
      (hopening : s.next.kind = .leftBracket) (hne : s.shift.next.kind ≠ .rightBracket)
      (hposition : (run .expression).exec callee s.shift = .accepted position m)
      (hclosing : (expect [.kind .rightBracket]).exec callee m = .accepted closing m') :
      Trails callee object s (fun X => .index X object position) m'
  | call {arguments : List Tree} {u : Unit} {m m' : State} (hopening : s.next.kind = .leftParen)
      (hline : s.next.broken = false)
      (harguments : (run .arguments).exec callee s.shift = .accepted arguments m)
      (hclosing : rightParen.exec callee m = .accepted u m') :
      Trails callee object s (fun X => .call X object arguments) m'
  | operator (hop : s.next.plays .trailing = true) (hline : s.next.broken = false) :
      Trails callee object s (fun X => .unary X s.next.lexeme .after object) s.shift

theorem Trails.note {object : Tree} {f : Extent Nat → Tree} {m : State}
    (h : Trails callee object s f m) (X : Extent Nat) : (f X).note = X := by
  cases h <;> rfl

/-- What trails the object makes one with it, and the object alone is left where nothing does. -/
theorem exec_suffixes_accepted {object : Tree} :
    (suffixes object).exec callee s = .accepted e t ↔
      (∃ f m, Trails callee object s f m ∧
        ∃ tree m', (make object.note.first f).exec callee m = .accepted tree m' ∧
          (run (.suffixes tree)).exec callee m' = .accepted e t) ∨
      s.next.trails = false ∧ object = e ∧ s = t := by
  simp only [suffixes, exec_bind_accepted, exec_next, exec_ite_accepted, exec_take, exec_pure,
    Outcome.accepted.injEq, and_assoc, exists_and_left, exists_eq_left', Bool.not_eq_true]
  constructor
  · rintro (⟨hdot, name, m, hname, htree⟩ | ⟨hdot, hmore⟩)
    · exact .inl ⟨_, m, .member hdot hname, htree⟩
    rcases hmore with ⟨hbracket, hindex⟩ | ⟨hbracket, hmore⟩
    · rcases hindex with ⟨hclosing, htree⟩ | ⟨hne, i, m, hi, closing, m', hclosing, htree⟩
      · exact .inl ⟨_, _, .unsized hbracket hclosing, htree⟩
      · exact .inl ⟨_, m', .index hbracket hne hi hclosing, htree⟩
    rcases hmore with ⟨hparen, arguments, m, harguments, u, m', hclosing, htree⟩ | ⟨hparen, hmore⟩
    · simp only [Bool.and_eq_true, decide_eq_true_eq, Bool.not_eq_true'] at hparen
      exact .inl ⟨_, m', .call hparen.1 hparen.2 harguments hclosing, htree⟩
    rcases hmore with ⟨hop, htree⟩ | ⟨hop, hsame⟩
    · simp only [Bool.and_eq_true, Bool.not_eq_true'] at hop
      exact .inl ⟨_, _, .operator hop.1 hop.2, htree⟩
    · simp only [Symbol.trails, hdot, hbracket, hparen, hop, decide_false, Bool.or_false]
      exact .inr ⟨trivial, hsame⟩
  · rintro (⟨f, m, htrails, htree⟩ | ⟨htrails, hsame⟩)
    · cases htrails with
      | member hdot hname => exact .inl ⟨hdot, _, m, hname, htree⟩
      | unsized hbracket hclosing =>
        exact .inr ⟨by simp [hbracket], .inl ⟨hbracket, .inl ⟨hclosing, htree⟩⟩⟩
      | index hbracket hne hi hclosing =>
        refine .inr ⟨by simp [hbracket], .inl ⟨hbracket, .inr ⟨hne, ?_⟩⟩⟩
        exact ⟨_, _, hi, _, m, hclosing, htree⟩
      | call hparen hline harguments hclosing =>
        refine .inr ⟨by simp [hparen], .inr ⟨by simp [hparen], .inl ⟨by simp [hparen, hline], ?_⟩⟩⟩
        exact ⟨_, _, harguments, _, m, hclosing, htree⟩
      | operator hop hline =>
        have hkind : s.next.kind = .operator := Symbol.kind_of_plays hop
        refine .inr ⟨by simp [hkind], .inr ⟨by simp [hkind], .inr ⟨by simp [hkind], ?_⟩⟩⟩
        exact .inl ⟨by simp [hop, hline], htree⟩
    · simp only [Symbol.trails, Bool.or_eq_false_iff, decide_eq_false_iff_not] at htrails
      obtain ⟨⟨⟨hdot, hbracket⟩, hparen⟩, hop⟩ := htrails
      exact .inr ⟨hdot, .inr ⟨hbracket, .inr ⟨hparen, .inr ⟨hop, hsame⟩⟩⟩⟩

theorem exec_primary_accepted :
    primary.exec callee s = .accepted e t ↔
      s.next.kind = .leftParen ∧
        (∃ inner m, (run .expression).exec callee s.shift = .accepted inner m ∧
          ∃ u m', rightParen.exec callee m = .accepted u m' ∧
            inner.setNote ⟨s.passed, m'.passed - 1⟩ = e ∧ m'.widen e = t) ∨
      s.next.kind = .literal ∧
        (make s.passed fun X => .literal X s.next.tags.literal s.next.lexeme).exec callee s.shift =
          .accepted e t ∨
      s.next.kind = .identifier ∧
        (make s.passed fun X => .identifier X s.next.lexeme).exec callee s.shift =
          .accepted e t := by
  rw [primary, exec_bind, exec_next]
  simp only
  split
  · next h =>
    simp only [exec_bind_accepted, exec_take, exec_extentFrom, exec_widen_done,
      Outcome.accepted.injEq, and_assoc, exists_and_left, exists_eq_left', h, reduceCtorEq,
      false_and, or_false, true_and]
    refine exists₂_congr fun inner m => and_congr_right fun _ => ?_
    refine exists₂_congr fun u m' => and_congr_right fun _ => ?_
    exact and_congr_right fun h => by rw [h]
  · next h =>
    simp only [exec_bind_accepted, exec_take, Outcome.accepted.injEq, and_assoc, exists_and_left,
      exists_eq_left', h, reduceCtorEq, false_and, or_false, true_and, false_or]
  · next h =>
    simp only [exec_bind_accepted, exec_take, Outcome.accepted.injEq, and_assoc, exists_and_left,
      exists_eq_left', h, reduceCtorEq, false_and, true_and, false_or]
  · next hparen hliteral hidentifier =>
    simp only [eq_false hparen, eq_false hliteral, eq_false hidentifier, false_and, or_false,
      iff_false]
    exact fun h => by cases h

end Grammar

end ShaderRepair
