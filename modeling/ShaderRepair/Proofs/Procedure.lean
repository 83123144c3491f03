import Mathlib.Data.List.Basic
import ShaderRepair.Grammar.Run

/-!
# Execution of procedures

What holds of every parsing procedure, whatever rule it belongs to. This file contains:
- `Expectation.wants`, the kind of the symbols that are acceptable;
- the monad laws of `Procedure`;
- `Procedure.exec_bind`, one procedure after the other;
- what the small procedures do;
- `Rule.run_mono`, which says that an accepted run does not change when calls may nest deeper.
-/

namespace ShaderRepair

/-! ## Acceptable symbols -/

namespace Expectation

/-- The kind that is asked for. -/
def wants : Expectation → Kind
  | .kind k => k
  | .word k _ => k

theorem kind_of_accepts {e : Expectation} {x : Symbol} (h : e.accepts x = true) :
    x.kind = e.wants := by
  cases e with
  | kind k => simpa [accepts, wants] using h
  | word k text =>
    simp only [accepts, Bool.and_eq_true, decide_eq_true_eq] at h
    exact h.1

/-- What holds of all kinds asked for holds of the kind of an acceptable symbol. -/
theorem kind_of_any {p : Kind → Prop} {expected : List Expectation} {x : Symbol}
    (h : (expected.any fun e => e.accepts x) = true) (hp : ∀ e ∈ expected, p e.wants) :
    p x.kind := by
  obtain ⟨e, he, hacc⟩ := List.any_eq_true.1 h
  rw [kind_of_accepts hacc]
  exact hp e he

end Expectation

namespace Grammar

namespace Procedure

variable {α β γ : Type}

/-! ## Monad laws -/

theorem bind_done (p : Procedure α) : p.bind .done = p := by
  induction p with
  | done a => rfl
  | look k ih => exact congrArg look (funext fun s => funext fun t => ih s t)
  | ahead k ih => exact congrArg ahead (funext ih)
  | here k ih => exact congrArg here (funext ih)
  | shift k ih => exact congrArg shift ih
  | skipSemicolons k ih => exact congrArg skipSemicolons ih
  | repair m k ih => exact congrArg (repair m) ih
  | build e k ih => exact congrArg (build e) ih
  | widen e k ih => exact congrArg (widen e) ih
  | reject n expected => rfl
  | call r k ih => exact congrArg (call r) (funext ih)

theorem bind_bind (p : Procedure α) (f : α → Procedure β) (g : β → Procedure γ) :
    (p.bind f).bind g = p.bind fun a => (f a).bind g := by
  induction p with
  | done a => rfl
  | look k ih => exact congrArg look (funext fun s => funext fun t => ih s t)
  | ahead k ih => exact congrArg ahead (funext ih)
  | here k ih => exact congrArg here (funext ih)
  | shift k ih => exact congrArg shift ih
  | skipSemicolons k ih => exact congrArg skipSemicolons ih
  | repair m k ih => exact congrArg (repair m) ih
  | build e k ih => exact congrArg (build e) ih
  | widen e k ih => exact congrArg (widen e) ih
  | reject n expected => rfl
  | call r k ih => exact congrArg (call r) (funext ih)

instance : LawfulMonad Procedure :=
  LawfulMonad.mk' Procedure bind_done (fun _ _ => rfl) bind_bind

/-! ## Execution -/

variable {callee callee' : (r : Rule) → State → Outcome r.Result}

/-- A run of one procedure after the other stops in between, or not at all. -/
theorem exec_bind (p : Procedure α) (f : α → Procedure β) (s : State) :
    (p >>= f).exec callee s =
      match p.exec callee s with
      | .accepted a t => (f a).exec callee t
      | .rejected why t => .rejected why t := by
  change (p.bind f).exec callee s = _
  induction p generalizing s with
  | done a => rfl
  | look k ih => exact ih _ _ s
  | ahead k ih => exact ih _ s
  | here k ih => exact ih _ s
  | shift k ih => exact ih _
  | skipSemicolons k ih => exact ih _
  | repair m k ih => exact ih _
  | build e k ih => exact ih _
  | widen e k ih => exact ih _
  | reject n expected => rfl
  | call r k ih =>
    simp only [Procedure.bind, exec]
    cases callee r s with
    | accepted a t => exact ih a t
    | rejected why t => rfl

/-- An accepted run of two procedures has an accepted run of the first in it, and one of the
second from there on. -/
theorem exec_bind_accepted {p : Procedure α} {f : α → Procedure β} {s t : State} {b : β} :
    (p >>= f).exec callee s = .accepted b t ↔
      ∃ a m, p.exec callee s = .accepted a m ∧ (f a).exec callee m = .accepted b t := by
  rw [exec_bind]
  cases p.exec callee s with
  | accepted a m => simp
  | rejected why m => simp

/-- What the callees accept is all that an accepted run depends on. -/
theorem exec_mono
    (h : ∀ r s a t, callee r s = .accepted a t → callee' r s = .accepted a t)
    (p : Procedure α) {s t : State} {a : α} (hp : p.exec callee s = .accepted a t) :
    p.exec callee' s = .accepted a t := by
  induction p generalizing s with
  | done b => exact hp
  | look k ih => exact ih _ _ hp
  | ahead k ih => exact ih _ hp
  | here k ih => exact ih _ hp
  | shift k ih => exact ih hp
  | skipSemicolons k ih => exact ih hp
  | repair m k ih => exact ih hp
  | build e k ih => exact ih hp
  | widen e k ih => exact ih hp
  | reject n expected => cases hp
  | call r k ih =>
    rw [exec] at hp ⊢
    cases hc : callee r s with
    | accepted b m =>
      rw [hc] at hp
      rw [h r s b m hc]
      exact ih b hp
    | rejected why m =>
      rw [hc] at hp
      cases hp

end Procedure

/-! ## Small procedures -/

section Small

variable {callee : (r : Rule) → State → Outcome r.Result}

open Procedure

@[simp] theorem exec_pure {α : Type} (a : α) (s : State) :
    (pure a : Procedure α).exec callee s = .accepted a s := rfl

@[simp] theorem exec_next (s : State) : next.exec callee s = .accepted s.next s := rfl

@[simp] theorem exec_position (s : State) : position.exec callee s = .accepted s.passed s := rfl

@[simp] theorem exec_take (s : State) :
    take.exec callee s = .accepted ⟨s.next.lexeme, s.passed⟩ s.shift := rfl

@[simp] theorem exec_make (first : Nat) (e : Extent Nat → Tree) (s : State) :
    (make first e).exec callee s =
      .accepted (e ⟨first, s.passed - 1⟩) (s.build (e ⟨first, s.passed - 1⟩)) := rfl

theorem exec_run (r : Rule) (s : State) : (run r).exec callee s = callee r s := by
  unfold run
  rw [exec]
  cases callee r s with
  | accepted a t => rfl
  | rejected why t => rfl

theorem exec_accept (e : Expectation) (s : State) :
    (accept e).exec callee s =
      if e.accepts s.next then .accepted true s.shift else .accepted false s := by
  change Procedure.exec callee (if e.accepts s.next then .shift (.done true) else .done false) s = _
  split
  · rfl
  · rfl

theorem exec_expect_accepted {expected : List Expectation} {s t : State} {w : Name Nat} :
    (expect expected).exec callee s = .accepted w t ↔
      (expected.any fun e => e.accepts s.next) = true ∧ w = ⟨s.next.lexeme, s.passed⟩ ∧
        t = s.shift := by
  change Procedure.exec callee (if expected.any fun e => e.accepts s.next then take
    else .here fun n => .reject n expected) s = _ ↔ _
  split
  · next h => simp [h, eq_comm]
  · next h => simp [h, exec]

theorem exec_orMissing (k : Kind) (m : Missing) (s : State) :
    (orMissing k m).exec callee s =
      .accepted () (if s.next.kind = k then s.shift else s.repair m) := by
  change ((if Expectation.accepts (.kind k) s.next then Procedure.shift (.done true)
    else .done false).bind _).exec callee s = _
  by_cases h : s.next.kind = k
  · simp only [Expectation.accepts, h, decide_true, if_true]
    rfl
  · simp only [Expectation.accepts, h, decide_false, Bool.false_eq_true, if_false]
    rfl

theorem exec_orMissing_bind {α : Type} (k : Kind) (m : Missing) (p : Procedure α) (s : State) :
    (orMissing k m >>= fun _ => p).exec callee s =
      p.exec callee (if s.next.kind = k then s.shift else s.repair m) := by
  rw [exec_bind, exec_orMissing]

theorem exec_statementEnd (s : State) :
    statementEnd.exec callee s =
      .accepted () (if s.next.kind = .semicolon then s.skipSemicolons
        else s.repair .semicolon) := by
  change Procedure.exec callee (if s.next.kind = .semicolon then .skipSemicolons (.done ())
    else note .semicolon) s = _
  by_cases h : s.next.kind = .semicolon
  · rw [if_pos h, if_pos h]
    rfl
  · rw [if_neg h, if_neg h]
    rfl

end Small

/-! ## Depth of calls -/

theorem Rule.run_succ (d : Nat) (r : Rule) (s : State) :
    Rule.run (d + 1) r s = r.body.exec (Rule.run d) s :=
  rfl

theorem exec_run_succ (d : Nat) (r : Rule) (s : State) :
    (Procedure.run r).exec (Rule.run (d + 1)) s = r.body.exec (Rule.run d) s :=
  exec_run r s

/-- Deeper calls do not change what is accepted. -/
theorem Rule.run_mono {d e : Nat} (hde : d ≤ e) (r : Rule) {s t : State} {a : r.Result}
    (h : Rule.run d r s = .accepted a t) : Rule.run e r s = .accepted a t := by
  induction d generalizing e r s t with
  | zero => cases h
  | succ d ih =>
    cases e with
    | zero => exact absurd hde (by omega)
    | succ e =>
      have hcallee : ∀ r s a t, Rule.run d r s = .accepted a t → Rule.run e r s = .accepted a t :=
        fun r s a t => ih (by omega) r
      exact Procedure.exec_mono hcallee r.body h

/-- The same for whole procedures. -/
theorem Procedure.exec_run_mono {α : Type} {d e : Nat} (hde : d ≤ e) (p : Procedure α)
    {s t : State} {a : α} (h : p.exec (Rule.run d) s = .accepted a t) :
    p.exec (Rule.run e) s = .accepted a t :=
  exec_mono (fun r _ _ _ => Rule.run_mono hde r) p h

end Grammar

end ShaderRepair
