import ShaderRepair.Proofs.Grip
import ShaderRepair.Proofs.RetraceConversion

/-!
# Where expressions end

An expression that is no part of another one yet ends with the symbol passed last. This file
contains:
- `Ends`, which says so of an expression and a state;
- `Endings`, which says it of runs of the rules for expressions, and `endings`, by induction on the
  depth of calls;
- `note_of_initializer`, for initializers that need a conversion.
-/

namespace ShaderRepair

namespace Grammar

open Procedure

variable {α : Type} {d : Nat} {s m t : State} {e : Tree}

/-- The expression ends with the symbol passed last. -/
def Ends (e : Tree) (s : State) : Prop :=
  e.note.last + 1 = s.passed

theorem Ends.pos (h : Ends e s) : 0 < s.passed := by
  unfold Ends at h
  omega

/-- An expression that is made ends there, since some symbol has been passed. -/
theorem ends_build {first : Nat} (he : e.note = ⟨first, s.passed - 1⟩) (hs : 0 < s.passed) :
    Ends e (s.build e) := by
  rw [Ends, he]
  exact Nat.sub_add_cancel hs

/-! ## Runs -/

/-- What runs of depth `d` say about where expressions end. -/
structure Endings (d : Nat) : Prop where
  suffixes : ∀ {s t : State} {object e : Tree}, Ends object s →
    (run (.suffixes object)).exec (Rule.run d) s = .accepted e t → Ends e t
  unary : ∀ {s t : State} {e : Tree},
    (run .unary).exec (Rule.run d) s = .accepted e t → Ends e t
  binary : ∀ {level : Level} {s t : State} {e : Tree},
    (run (.binary level)).exec (Rule.run d) s = .accepted e t → Ends e t
  binaryRest : ∀ {level : Level} {left : Tree} {s t : State} {e : Tree}, Ends left s →
    (run (.binaryRest level left)).exec (Rule.run d) s = .accepted e t → Ends e t
  conditional : ∀ {s t : State} {e : Tree},
    (run .conditional).exec (Rule.run d) s = .accepted e t → Ends e t
  assignment : ∀ {s t : State} {e : Tree},
    (run .assignment).exec (Rule.run d) s = .accepted e t → Ends e t

namespace Endings

/-- Whatever trails the object, what is made of both goes on as the object. -/
theorem of_suffixes (h : Endings d) {object : Tree} (hs : Ends object s)
    (hp : (Grammar.suffixes object).exec (Rule.run d) s = .accepted e t) : Ends e t := by
  rcases exec_suffixes_accepted.1 hp with
    ⟨f, m, htrails, tree, m', htree, hmore⟩ | ⟨-, rfl, rfl⟩
  · cases htree
    have hpos : 0 < m.passed := Nat.lt_of_lt_of_le hs.pos htrails.passed_le
    exact h.suffixes (ends_build (htrails.note _) hpos) hmore
  · exact hs

theorem of_unary (h : Endings d) (hp : Grammar.unary.exec (Rule.run d) s = .accepted e t) :
    Ends e t := by
  rcases exec_unary_accepted.1 hp with
    ⟨-, operand, m, hoperand, htree⟩ | ⟨-, object, m, hobject, hmore⟩
  · cases htree
    exact ends_build rfl (h.unary hoperand).pos
  · exact h.suffixes (last_of_primary hobject) hmore

/-- An operand of an operation, read by the next tighter rule. -/
theorem of_operand (h : Endings d) {level : Level} {operand : Tree}
    (hp : ReadsOperand (Rule.run d) level s operand m) : Ends operand m := by
  cases hp with
  | binary _ hoperand => exact h.binary hoperand
  | unary _ hoperand => exact h.unary hoperand

theorem of_binary (h : Endings d) {level : Level}
    (hp : (Grammar.binary level).exec (Rule.run d) s = .accepted e t) : Ends e t := by
  obtain ⟨left, m, hleft, hmore⟩ := exec_binary_accepted.1 hp
  exact h.binaryRest (h.of_operand hleft) hmore

theorem of_binaryRest (h : Endings d) {level : Level} {left : Tree} (hs : Ends left s)
    (hp : (Grammar.binaryRest level left).exec (Rule.run d) s = .accepted e t) : Ends e t := by
  rcases exec_binaryRest_accepted.1 hp with
    ⟨-, right, m, hright, tree, m', htree, hmore⟩ | ⟨-, rfl, rfl⟩
  · cases htree
    exact h.binaryRest (ends_build rfl (h.of_operand hright).pos) hmore
  · exact hs

theorem of_conditional (h : Endings d)
    (hp : Grammar.conditional.exec (Rule.run d) s = .accepted e t) : Ends e t := by
  obtain ⟨condition, m, hcondition, hmore⟩ := exec_conditional_accepted.1 hp
  rcases hmore with ⟨-, yes, m₁, -, u, m₂, -, no, m₃, hno, htree⟩ | ⟨-, rfl, rfl⟩
  · cases htree
    exact ends_build rfl (h.assignment hno).pos
  · exact h.binary hcondition

theorem of_assignment (h : Endings d)
    (hp : Grammar.assignment.exec (Rule.run d) s = .accepted e t) : Ends e t := by
  obtain ⟨left, m, hleft, hmore⟩ := exec_assignment_accepted.1 hp
  rcases hmore with ⟨-, right, m', hright, htree⟩ | ⟨-, rfl, rfl⟩
  · cases htree
    exact ends_build rfl (h.assignment hright).pos
  · exact h.conditional hleft

end Endings

theorem endings (d : Nat) : Endings d := by
  induction d with
  | zero => constructor <;> intros <;> contradiction
  | succ d ih =>
    refine ⟨?_, ?_, ?_, ?_, ?_, ?_⟩
    · exact fun hs h => ih.of_suffixes hs ((exec_run_succ d _ _).symm.trans h)
    · exact fun h => ih.of_unary ((exec_run_succ d _ _).symm.trans h)
    · exact fun h => ih.of_binary ((exec_run_succ d _ _).symm.trans h)
    · exact fun hs h => ih.of_binaryRest hs ((exec_run_succ d _ _).symm.trans h)
    · exact fun h => ih.of_conditional ((exec_run_succ d _ _).symm.trans h)
    · exact fun h => ih.of_assignment ((exec_run_succ d _ _).symm.trans h)

/-- An initializer that needs a conversion goes from its first symbol to the one passed last. It is
no list, since a list has no type. -/
theorem note_of_initializer {T : Text}
    (h : (run .initializer).exec (Rule.run d) s = .accepted e t)
    (hT : e.needsConversion T = true) : e.note.first = s.passed ∧ Ends e t := by
  obtain ⟨hfirst, ⟨X, items, rfl⟩ | hassignment⟩ := initializer_spec h
  · rw [Expr.needsConversion_initializers] at hT
    cases hT
  · exact ⟨hfirst, (endings d).assignment hassignment⟩

end Grammar

end ShaderRepair
