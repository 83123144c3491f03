import ShaderRepair.Proofs.Branches
import ShaderRepair.Proofs.Piece
import ShaderRepair.Proofs.Shape

/-!
# Reading operands

Facts about a single run of the rules for expressions. This file contains:
- `Blind`, which says that a line break before the first symbol of an expression does not matter;
- `Operands`, which says where an expression starts and which symbols cannot follow it: the rules
  go on as long as the next symbol lets them.
-/

namespace ShaderRepair

/-! ## Symbols and levels -/

/-- The loosest level has rank zero. -/
def Level.rank : Level → Nat
  | .logicalOr => 0
  | .logicalXor => 1
  | .logicalAnd => 2
  | .bitOr => 3
  | .bitXor => 4
  | .bitAnd => 5
  | .equality => 6
  | .relational => 7
  | .shift => 8
  | .additive => 9
  | .multiplicative => 10

theorem Level.rank_of_tighter {level tighter : Level} (h : level.tighter = some tighter) :
    tighter.rank = level.rank + 1 := by
  cases level <;> cases h <;> rfl

theorem Level.rank_le_of_tightest {level l : Level} (h : level.tighter = none) :
    l.rank ≤ level.rank := by
  cases level <;> cases h
  cases l <;> decide

theorem Level.rank_injective {l l' : Level} (h : l.rank = l'.rank) : l = l' := by
  cases l <;> cases l' <;> first | rfl | cases h

namespace Grammar

open Procedure

variable {α β : Type}

/-! ## Line breaks before an expression -/

/-- Started before the symbol `x`, the procedure accepts as well when no line break precedes it. -/
def Blind (callee : (r : Rule) → State → Outcome r.Result) (x : Symbol) (p : Procedure α) : Prop :=
  ∀ ⦃s t : State⦄ ⦃more : List Symbol⦄ ⦃a : α⦄, s.rest = x :: more →
    p.exec callee s = .accepted a t →
    p.exec callee { s with rest := x.joined :: more } = .accepted a t

namespace Blind

variable {callee : (r : Rule) → State → Outcome r.Result} {x : Symbol}

theorem bind {p : Procedure α} {k : α → Procedure β} (h : Blind callee x p) :
    Blind callee x (p >>= k) := by
  intro s t more b hs hp
  obtain ⟨a, m, ha, hb⟩ := exec_bind_accepted.1 hp
  exact exec_bind_accepted.2 ⟨a, m, h hs ha, hb⟩

theorem next {k : Symbol → Procedure α} (hk : k x.joined = k x) (h : Blind callee x (k x)) :
    Blind callee x (next >>= k) := by
  intro s t more a hs hp
  have hp' : (k x).exec callee s = .accepted a t := by
    have hnext : s.next = x := by simp [State.next, hs]
    rw [← hnext]
    exact hp
  change (k x.joined).exec callee _ = _
  rw [hk]
  exact h hs hp'

theorem position {k : Nat → Procedure α} (h : ∀ n, Blind callee x (k n)) :
    Blind callee x (position >>= k) :=
  fun _ _ _ _ hs hp => h _ hs hp

theorem reject {n : Nat} {expected : List Expectation} :
    Blind callee x (.reject n expected : Procedure α) := by
  intro s t more a hs hp
  cases hp

/-- A symbol that is passed is gone. -/
theorem take : Blind callee x take := by
  intro s t more a hs hp
  have hnext : s.next = x := by simp [State.next, hs]
  rw [exec_take, hnext, State.shift_of_rest hs] at hp
  have hshift : ({ s with rest := x.joined :: more } : State).shift =
      { s with rest := more, passed := s.passed + 1 } := State.shift_of_rest rfl
  rw [exec_take, hshift, ← hp]
  rfl

theorem ahead {k : Bool → Procedure α} (h : ∀ b, Blind callee x (k b)) :
    Blind callee x (.ahead .done >>= k) := by
  intro s t more a hs hp
  change (k (Symbol.startsDeclaration s.rest)).exec callee s = _ at hp
  rw [hs] at hp
  exact h _ hs hp

theorem expect {expected : List Expectation} : Blind callee x (expect expected) := by
  have haccepts : (fun e : Expectation => e.accepts x.joined) = fun e => e.accepts x := by
    funext e
    cases e <;> rfl
  refine next (k := fun s => if expected.any fun e => e.accepts s then Procedure.take
    else .here fun n => .reject n expected) ?_ ?_
  · simp only [haccepts]
  · split
    · exact take
    · exact position fun n => reject

end Blind

/-- The rules whose first symbol is an operand or an operator before it. -/
def Rule.leads : Rule → Bool
  | .expression | .assignment | .conditional | .binary _ | .unary | .primary => true
  | _ => false

theorem blind_primary {callee : (r : Rule) → State → Outcome r.Result} (x : Symbol) :
    Blind callee x primary := by
  refine Blind.next rfl ?_
  split
  · exact Blind.take.bind
  · exact Blind.take.bind
  · exact Blind.take.bind
  · exact Blind.position fun n => Blind.reject

/-- A line break before an expression does not matter. -/
theorem blind_run (d : Nat) {r : Rule} (hr : r.leads = true) (x : Symbol) :
    Blind (Rule.run d) x (run r) := by
  induction d generalizing r with
  | zero =>
    intro s t more a hs hp
    cases hp
  | succ d ih =>
    have hbody : Blind (Rule.run d) x r.body := by
      cases r with
      | expression => exact (ih rfl).bind
      | assignment => exact (ih rfl).bind
      | conditional => exact (ih rfl).bind
      | binary level =>
        change Blind (Rule.run d) x (binary level)
        unfold binary
        cases level.tighter with
        | some tighter => exact (ih rfl).bind
        | none => exact (ih rfl).bind
      | unary =>
        refine Blind.next rfl ?_
        split
        · exact Blind.take.bind
        · exact (ih rfl).bind
      | primary => exact blind_primary x
      | _ => cases hr
    intro s t more a hs hp
    rw [exec_run_succ] at hp ⊢
    exact hbody hs hp

/-! ## Where an expression starts and ends -/

/-- The symbol goes on neither with an operand nor with an operation of rank `n` or more. -/
def Closes (n : Nat) (s : Symbol) : Prop :=
  s.trails = false ∧ ∀ l : Level, n ≤ l.rank → s.plays l.role = false

/-- The symbol ends an assignment expression. -/
structure Finishes (s : Symbol) : Prop where
  closes : Closes 0 s
  conditional : s.plays .conditional = false
  assignment : s.plays .assignment = false

/-- What runs of depth `d` say about where expressions start and what follows them. -/
structure Operands (d : Nat) : Prop where
  primary : ∀ {s t : State} {e : Tree}, (run .primary).exec (Rule.run d) s = .accepted e t →
    e.note.first = s.passed
  suffixes : ∀ {s t : State} {object e : Tree},
    (run (.suffixes object)).exec (Rule.run d) s = .accepted e t →
    e.note.first = object.note.first ∧ t.next.trails = false
  unary : ∀ {s t : State} {e : Tree}, (run .unary).exec (Rule.run d) s = .accepted e t →
    e.note.first = s.passed ∧ t.next.trails = false
  binary : ∀ {level : Level} {s t : State} {e : Tree},
    (run (.binary level)).exec (Rule.run d) s = .accepted e t →
    e.note.first = s.passed ∧ Closes level.rank t.next
  binaryRest : ∀ {level : Level} {left : Tree} {s t : State} {e : Tree},
    Closes (level.rank + 1) s.next →
    (run (.binaryRest level left)).exec (Rule.run d) s = .accepted e t →
    e.note.first = left.note.first ∧ Closes level.rank t.next
  conditional : ∀ {s t : State} {e : Tree}, (run .conditional).exec (Rule.run d) s = .accepted e t →
    e.note.first = s.passed ∧ Closes 0 t.next ∧ t.next.plays .conditional = false
  assignment : ∀ {s t : State} {e : Tree}, (run .assignment).exec (Rule.run d) s = .accepted e t →
    e.note.first = s.passed ∧ Finishes t.next

namespace Operands

variable {d : Nat} {s t : State} {e : Tree}

theorem of_primary (h : Grammar.primary.exec (Rule.run d) s = .accepted e t) :
    e.note.first = s.passed := by
  rcases exec_primary_accepted.1 h with ⟨-, inner, m, -, u, m', -, rfl, -⟩ | ⟨-, h⟩ | ⟨-, h⟩
  · exact congrArg Extent.first (Expr.note_setNote _ inner)
  · cases h
    rfl
  · cases h
    rfl

/-- What suffixes are made of does not matter here: the tree that goes on starts with the object,
and the rule calls itself for the rest. -/
theorem of_suffixes (h : Operands d) {object : Tree}
    (hp : (Grammar.suffixes object).exec (Rule.run d) s = .accepted e t) :
    e.note.first = object.note.first ∧ t.next.trails = false := by
  rcases exec_suffixes_accepted.1 hp with
    ⟨f, m, htrails, tree, m', htree, hmore⟩ | ⟨htrails, rfl, rfl⟩
  · cases htree
    obtain ⟨hfirst, hend⟩ := h.suffixes hmore
    rw [htrails.note] at hfirst
    exact ⟨hfirst, hend⟩
  · exact ⟨rfl, htrails⟩

theorem of_unary (h : Operands d) (hp : Grammar.unary.exec (Rule.run d) s = .accepted e t) :
    e.note.first = s.passed ∧ t.next.trails = false := by
  rcases exec_unary_accepted.1 hp with
    ⟨-, operand, m, hoperand, htree⟩ | ⟨-, object, m, hobject, hmore⟩
  · cases htree
    exact ⟨rfl, (h.unary hoperand).2⟩
  · have hs := h.suffixes hmore
    rwa [h.primary hobject] at hs

/-- An operand of an operation of a level ends where no tighter operation goes on. -/
theorem of_operand (h : Operands d) {level : Level} {operand : Tree} {m : State}
    (hp : ReadsOperand (Rule.run d) level s operand m) :
    operand.note.first = s.passed ∧ Closes (level.rank + 1) m.next := by
  cases hp with
  | binary ht hoperand =>
    have hb := h.binary hoperand
    rwa [Level.rank_of_tighter ht] at hb
  | unary ht hoperand =>
    have hu := h.unary hoperand
    refine ⟨hu.1, hu.2, ?_⟩
    intro l hl
    have := Level.rank_le_of_tightest (l := l) ht
    omega

theorem of_binary (h : Operands d) {level : Level}
    (hp : (Grammar.binary level).exec (Rule.run d) s = .accepted e t) :
    e.note.first = s.passed ∧ Closes level.rank t.next := by
  obtain ⟨left, m, hleft, hmore⟩ := exec_binary_accepted.1 hp
  obtain ⟨hfirst, hm⟩ := h.of_operand hleft
  have hr := h.binaryRest hm hmore
  rwa [hfirst] at hr

theorem of_binaryRest (h : Operands d) {level : Level} {left : Tree}
    (hs : Closes (level.rank + 1) s.next)
    (hp : (Grammar.binaryRest level left).exec (Rule.run d) s = .accepted e t) :
    e.note.first = left.note.first ∧ Closes level.rank t.next := by
  rcases exec_binaryRest_accepted.1 hp with
    ⟨-, right, m, hright, tree, m', htree, hmore⟩ | ⟨hplays, rfl, rfl⟩
  · cases htree
    have hm := (h.of_operand hright).2
    have hr := h.binaryRest (s := m.build _) hm hmore
    exact hr
  · refine ⟨rfl, hs.1, ?_⟩
    intro l hl
    by_cases hlevel : l = level
    · rw [hlevel]
      exact hplays
    · refine hs.2 l ?_
      have hne : l.rank ≠ level.rank := fun hr => hlevel (Level.rank_injective hr)
      omega

theorem of_conditional (h : Operands d)
    (hp : Grammar.conditional.exec (Rule.run d) s = .accepted e t) :
    e.note.first = s.passed ∧ Closes 0 t.next ∧ t.next.plays .conditional = false := by
  obtain ⟨condition, m, hcondition, hmore⟩ := exec_conditional_accepted.1 hp
  have hc := h.binary hcondition
  rcases hmore with ⟨-, yes, m₁, -, u, m₂, -, no, m₃, hno, htree⟩ | ⟨hplays, rfl, rfl⟩
  · cases htree
    have hf := (h.assignment hno).2
    exact ⟨hc.1, hf.closes, hf.conditional⟩
  · exact ⟨hc.1, hc.2, hplays⟩

theorem of_assignment (h : Operands d)
    (hp : Grammar.assignment.exec (Rule.run d) s = .accepted e t) :
    e.note.first = s.passed ∧ Finishes t.next := by
  obtain ⟨left, m, hleft, hmore⟩ := exec_assignment_accepted.1 hp
  have hl := h.conditional hleft
  rcases hmore with ⟨-, right, m', hright, htree⟩ | ⟨hplays, rfl, rfl⟩
  · cases htree
    exact ⟨hl.1, (h.assignment hright).2⟩
  · exact ⟨hl.1, hl.2.1, hl.2.2, hplays⟩

end Operands

theorem operands (d : Nat) : Operands d := by
  induction d with
  | zero => constructor <;> intros <;> contradiction
  | succ d ih =>
    refine ⟨?_, ?_, ?_, ?_, ?_, ?_, ?_⟩
    · exact fun h => Operands.of_primary ((exec_run_succ d _ _).symm.trans h)
    · exact fun h => ih.of_suffixes ((exec_run_succ d _ _).symm.trans h)
    · exact fun h => ih.of_unary ((exec_run_succ d _ _).symm.trans h)
    · exact fun h => ih.of_binary ((exec_run_succ d _ _).symm.trans h)
    · exact fun hs h => ih.of_binaryRest hs ((exec_run_succ d _ _).symm.trans h)
    · exact fun h => ih.of_conditional ((exec_run_succ d _ _).symm.trans h)
    · exact fun h => ih.of_assignment ((exec_run_succ d _ _).symm.trans h)

/-- An initializer starts with its first symbol; if it is no list, it ends as an assignment does. -/
theorem initializer_spec {d : Nat} {s t : State} {e : Tree}
    (h : (run .initializer).exec (Rule.run d) s = .accepted e t) :
    e.note.first = s.passed ∧
      ((∃ X items, e = .initializers X items) ∨
        (run .assignment).exec (Rule.run d) s = .accepted e t) := by
  cases d with
  | zero => cases h
  | succ d =>
    rw [exec_run_succ] at h
    change initializer.exec (Rule.run d) s = _ at h
    simp only [initializer, exec_bind_accepted, exec_next, Outcome.accepted.injEq] at h
    obtain ⟨x, m, ⟨rfl, rfl⟩, h⟩ := h
    split at h
    · simp only [exec_bind_accepted, exec_take, exec_make, Outcome.accepted.injEq] at h
      obtain ⟨opening, m₁, ⟨rfl, rfl⟩, items, m₂, -, brace, m₃, -, rfl, -⟩ := h
      exact ⟨rfl, .inl ⟨_, items, rfl⟩⟩
    · exact ⟨((operands d).assignment h).1, .inr (Procedure.exec_run_mono (Nat.le_succ d) _ h)⟩

end Grammar

end ShaderRepair
