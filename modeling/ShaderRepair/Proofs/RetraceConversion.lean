import ShaderRepair.Proofs.RetraceExpression

/-!
# Retracing conversions

An initializer that had to be converted is read again as the argument of a constructor call. This
file contains:
- climbing from a unary expression to an assignment where no operator follows;
- `reads_call`, the run on the call that was put in;
- `Expr.needsConversion_call`, which says that the call is not converted again.
-/

namespace ShaderRepair

/-! ## Calls need no conversion -/

namespace ValueType

/-- Values convert to their own type. -/
theorem implicitlyConvertible_self {t : ValueType} (h : t.isValue = true) :
    t.implicitlyConvertible t = true := by
  cases t with
  | error => cases h
  | void => cases h
  | scalar s => cases s <;> decide
  | vector s n => cases s <;> cases n <;> decide
  | matrix f c r => cases f <;> cases c <;> cases r <;> decide

end ValueType

/-- A call of the declared type has that type already. -/
theorem Expr.needsConversion_call {α : Type} (a a' : α) (T : Text) (arguments : List (Expr α)) :
    (Expr.call a (.identifier a' T) arguments).needsConversion T = false := by
  unfold needsConversion
  cases hT : ValueType.lookup T with
  | none => rfl
  | some declared =>
    simp only [type, constructed, hT, Option.getD_some, Typing.provided]
    by_cases hv : declared.isValue = true
    · simp [hv, ValueType.implicitlyConvertible_self hv]
    · have herror : ValueType.error.isValue = false := by decide
      simp [hv, ValueType.explicitlyConvertible, herror]

/-- A list has no type. -/
theorem Expr.needsConversion_initializers {α : Type} (a : α) (items : List (Expr α)) (T : Text) :
    (Expr.initializers a items).needsConversion T = false := by
  have herror : ValueType.error.isValue = false := by decide
  unfold needsConversion
  cases ValueType.lookup T with
  | none => rfl
  | some declared => simp [type, ValueType.explicitlyConvertible, herror]

namespace Grammar

open Piece Procedure

/-! ## Climbing the ladder -/

section Climb

variable {e : Nat} {s t : State} {a : Tree}

/-- Nothing trails the operand. -/
theorem exec_suffixes_of_closes {object : Tree} (h : s.next.trails = false) :
    (run (.suffixes object)).exec (Rule.run (e + 1)) s = .accepted object s := by
  rw [exec_run_succ]
  exact exec_suffixes_accepted.2 (.inr ⟨h, rfl, rfl⟩)

/-- No operator of the level follows. -/
theorem exec_binaryRest_of_closes {level : Level} {left : Tree}
    (h : s.next.plays level.role = false) :
    (run (.binaryRest level left)).exec (Rule.run (e + 1)) s = .accepted left s := by
  rw [exec_run_succ]
  exact exec_binaryRest_accepted.2 (.inr ⟨h, rfl, rfl⟩)

/-- A unary expression is an operation of every level. -/
theorem exec_binary_of_unary (h : (run .unary).exec (Rule.run (e + 1)) s = .accepted a t)
    (ht : Closes 0 t.next) (n : Nat) :
    ∀ level : Level, level.rank + n = 10 →
      (run (.binary level)).exec (Rule.run (e + n + 2)) s = .accepted a t := by
  induction n with
  | zero =>
    intro level hn
    rw [exec_run_succ]
    have hlevel : level = .multiplicative := Level.rank_injective hn
    subst hlevel
    have htight : Level.multiplicative.tighter = none := rfl
    refine exec_binary_accepted.2 ⟨a, t, .unary htight h, ?_⟩
    exact exec_binaryRest_of_closes (ht.2 _ (Nat.zero_le _))
  | succ n ih =>
    intro level hn
    rw [exec_run_succ]
    cases htight : level.tighter with
    | none =>
      have hle : 10 ≤ level.rank := Level.rank_le_of_tightest (l := .multiplicative) htight
      omega
    | some tighter =>
      have hrank := Level.rank_of_tighter htight
      refine exec_binary_accepted.2 ⟨a, t, .binary htight (ih tighter (by omega)), ?_⟩
      exact exec_binaryRest_of_closes (ht.2 _ (Nat.zero_le _))

/-- A unary expression is an assignment expression where nothing goes on with it. -/
theorem exec_assignment_of_unary (h : (run .unary).exec (Rule.run (e + 1)) s = .accepted a t)
    (ht : Finishes t.next) :
    (run .assignment).exec (Rule.run (e + 14)) s = .accepted a t := by
  have hbinary := exec_binary_of_unary h ht.closes 10 .logicalOr rfl
  have hconditional : (run .conditional).exec (Rule.run (e + 13)) s = .accepted a t := by
    rw [exec_run_succ]
    exact exec_conditional_accepted.2 ⟨a, t, hbinary, .inr ⟨ht.conditional, rfl, rfl⟩⟩
  rw [exec_run_succ]
  exact exec_assignment_accepted.2 ⟨a, t, hconditional, .inr ⟨ht.assignment, rfl, rfl⟩⟩

end Climb

/-! ## Reading the call -/

section Call

variable {e : Nat} {T : Text} {broken : Bool} {s : State}

/-- The name of the type is an operand. -/
theorem exec_primary_of_name (hs : s.next = ⟨.identifier, T, Tags.none, broken⟩) :
    (run .primary).exec (Rule.run (e + 2)) s =
      .accepted (.identifier ⟨s.passed, s.shift.passed - 1⟩ T)
        (s.shift.build (.identifier ⟨s.passed, s.shift.passed - 1⟩ T)) := by
  have hkind : s.next.kind = .identifier := by rw [hs]
  rw [exec_run_succ]
  refine exec_primary_accepted.2 (.inr (.inr ⟨hkind, ?_⟩))
  rw [hs, exec_make]

/-- The rest of the call: one argument and the closing parenthesis. -/
theorem exec_arguments_of_one {m m' : State} {I : Tree} {rest : List Symbol}
    (hfirst : m.next.kind ≠ .rightParen)
    (h : (run .assignment).exec (Rule.run e) m = .accepted I m')
    (hm' : m'.rest = Symbol.mark .rightParen :: rest) :
    (run .arguments).exec (Rule.run (e + 1)) m = .accepted [I] m' := by
  have hnext : m'.next = Symbol.mark .rightParen := by
    rw [State.next, hm']
    rfl
  rw [exec_run_succ]
  change arguments.exec (Rule.run e) m = _
  rw [arguments, exec_bind, exec_next]
  simp only [if_neg hfirst]
  refine exec_bind_accepted.2 ⟨I, m', h, ?_⟩
  rw [exec_bind, exec_accept, hnext]
  simp only [Expectation.accepts, Symbol.mark_kind, reduceCtorEq, decide_false,
    Bool.false_eq_true, if_false]
  rw [exec_bind, exec_next, hnext]
  simp [Symbol.startsExpression]

/-- A parenthesis behind an operand begins a call of it, and nothing goes on with the call. -/
theorem exec_suffixes_of_call {f : Tree} {items : List Tree} {m : State} {rest : List Symbol}
    (hs : s.next = Symbol.mark .leftParen)
    (hitems : (run .arguments).exec (Rule.run (e + 1)) s.shift = .accepted items m)
    (hm : m.rest = Symbol.mark .rightParen :: rest)
    (hrest : Finishes (rest.headD Symbol.finish)) :
    (run (.suffixes f)).exec (Rule.run (e + 2)) s =
      .accepted (.call ⟨f.note.first, m.shift.passed - 1⟩ f items)
        (m.shift.build (.call ⟨f.note.first, m.shift.passed - 1⟩ f items)) := by
  have hclose : m.next = Symbol.mark .rightParen := by
    rw [State.next, hm]
    rfl
  have hparen : rightParen.exec (Rule.run (e + 1)) m = .accepted () m.shift := by
    rw [rightParen, exec_orMissing, hclose, if_pos (Symbol.mark_kind _)]
  have htrails : Trails (Rule.run (e + 1)) f s (fun X => .call X f items) m.shift :=
    .call (by rw [hs, Symbol.mark_kind]) (by rw [hs, Symbol.mark_broken]) hitems hparen
  rw [exec_run_succ]
  refine exec_suffixes_accepted.2 (.inl ⟨_, _, htrails, _, _, exec_make _ _ _, ?_⟩)
  refine exec_suffixes_of_closes ?_
  rw [State.next, State.build, State.shift_of_rest hm]
  exact hrest.closes.1

/-- What begins with a name is an initializer where nothing goes on with it. -/
theorem exec_initializer_of_name {f a : Tree} {m t : State}
    (hs : s.next = ⟨.identifier, T, Tags.none, broken⟩)
    (hprimary : (run .primary).exec (Rule.run (e + 2)) s = .accepted f m)
    (hsuffixes : (run (.suffixes f)).exec (Rule.run (e + 2)) m = .accepted a t)
    (ht : Finishes t.next) : (run .initializer).exec (Rule.run (e + 17)) s = .accepted a t := by
  have hunary : (run .unary).exec (Rule.run (e + 3)) s = .accepted a t := by
    have hplays : Symbol.plays ⟨.identifier, T, Tags.none, broken⟩ .unary = false := by
      simp [Symbol.plays]
    rw [exec_run_succ]
    exact exec_unary_accepted.2 (.inr ⟨by rw [hs, hplays], f, m, hprimary, hsuffixes⟩)
  rw [exec_run_succ]
  change initializer.exec (Rule.run (e + 16)) s = _
  rw [initializer, exec_bind, exec_next, hs]
  simp only [reduceCtorEq, if_false]
  exact exec_assignment_of_unary hunary ht

/-- A run on `T ( I ) rest`, given one on the argument. -/
theorem reads_call {words rest : List Symbol} {R : Tree → Prop}
    (hs : s.rest = opening (some T) broken ++ (words ++ Symbol.mark .rightParen :: rest))
    (hfirst : ((words ++ Symbol.mark .rightParen :: rest).headD Symbol.finish).kind ≠ .rightParen)
    (harg : ∀ m : State, m.rest = words ++ Symbol.mark .rightParen :: rest →
      ∃ I m', (run .assignment).exec (Rule.run e) m = .accepted I m' ∧
        m'.rest = Symbol.mark .rightParen :: rest ∧ m'.repairs = m.repairs ∧ R I)
    (hrest : Finishes (rest.headD Symbol.finish)) :
    ∃ X X' I t, (run .initializer).exec (Rule.run (e + 17)) s =
        .accepted (.call X (.identifier X' T) [I]) t ∧
      t.rest = rest ∧ t.repairs = s.repairs ∧ R I := by
  have hname : s.next = ⟨.identifier, T, Tags.none, broken⟩ := by
    rw [State.next, hs]
    rfl
  have hprimary := exec_primary_of_name (e := e) hname
  generalize (⟨s.passed, s.shift.passed - 1⟩ : Extent Nat) = X' at hprimary
  -- What is left after the name: the parenthesis, the argument, the other parenthesis.
  generalize hs₁ : s.shift.build (.identifier X' T) = s₁ at hprimary
  have hshift := State.shift_of_rest hs
  have hrest₁ : s₁.rest = Symbol.mark .leftParen :: (words ++ Symbol.mark .rightParen :: rest) := by
    rw [← hs₁, State.build, hshift]
    rfl
  have hrepairs₁ : s₁.repairs = s.repairs := by
    rw [← hs₁, State.build, hshift]
  have hparen : s₁.next = Symbol.mark .leftParen := by
    rw [State.next, hrest₁]
    rfl
  have hshift₁ := State.shift_of_rest hrest₁
  obtain ⟨I, m, hI, hm, hmr, hR⟩ := harg s₁.shift (by rw [hshift₁])
  have hargs : (run .arguments).exec (Rule.run (e + 1)) s₁.shift = .accepted [I] m := by
    refine exec_arguments_of_one ?_ hI hm
    rw [State.next, hshift₁]
    exact hfirst
  have hsuffixes := exec_suffixes_of_call (f := .identifier X' T) hparen hargs hm hrest
  have hshift₂ := State.shift_of_rest hm
  refine ⟨_, _, I, _, exec_initializer_of_name hname hprimary hsuffixes ?_, ?_, ?_, hR⟩
  · rw [State.next, State.build, hshift₂]
    exact hrest
  · rw [State.build, hshift₂]
  · rw [State.build, hshift₂]
    change m.repairs = s.repairs
    rw [hmr, hshift₁]
    exact hrepairs₁

end Call

end Grammar

end ShaderRepair
