import ShaderRepair.Proofs.Advance
import ShaderRepair.Proofs.CarrySession
import ShaderRepair.Proofs.Invariant
import ShaderRepair.Proofs.Precedence

/-!
# Families of operators

The family of a binary expression is settled by its operator, since no operator has two binary
roles. This file contains:
- `Level.ofOperator_of_plays` and `Family.ofOperator_of_assignment`, which say so of the table;
- `Symbol.Tabled`, a symbol with no roles but those of its lexeme;
- `Expr.Classed`, and `Classes`, which says that all that is pending in a state is classed;
- `Rule.classifies`, that every run of a rule keeps this, and `classed_of_item`, for items.
-/

namespace ShaderRepair

/-! ## The table -/

theorem Level.ofOperator_of_plays {op : Text} {level : Level}
    (h : (Symbol.operator op).plays level.role = true) : ofOperator op = some level := by
  cases hfind : ofOperator op with
  | none => exact absurd h (List.find?_eq_none.1 hfind level level.mem_all)
  | some l =>
    have hrole := Symbol.role_unique l.role_ne.1 level.role_ne.1 (plays_of_ofOperator hfind) h
    rw [role_injective hrole]

theorem Family.ofOperator_of_plays {op : Text} {level : Level}
    (h : (Symbol.operator op).plays level.role = true) : ofOperator op = some level.family := by
  rw [ofOperator, Level.ofOperator_of_plays h]

theorem Family.ofOperator_of_assignment {op : Text}
    (h : (Symbol.operator op).plays .assignment = true) : ofOperator op = some .assignment := by
  cases hlevel : Level.ofOperator op with
  | none => simp [ofOperator, hlevel, h]
  | some l =>
    have hrole := Symbol.role_unique l.role_ne.1 (by decide) (Level.plays_of_ofOperator hlevel) h
    exact absurd hrole l.role_ne.2.2.2

/-- The symbol plays no roles but those that the table has for its lexeme. So it is with the symbols
of a source. -/
def Symbol.Tabled (x : Symbol) : Prop :=
  ∀ r, x.plays r = true → (Symbol.operator x.lexeme).plays r = true

theorem Symbol.finish_tabled : Symbol.finish.Tabled := by
  intro r h
  cases h

/-- A binary expression is in the family of its operator. -/
def Expr.Classed {α : Type} : Expr α → Prop
  | .binary _ family op _ _ => Family.ofOperator op = some family
  | _ => True

theorem Expr.classed_setNote {α : Type} {e : Expr α} {a : α} :
    (e.setNote a).Classed ↔ e.Classed := by
  cases e <;> rfl

namespace Grammar

open Procedure

variable {α : Type}

/-! ## Steps -/

/-- All that is ahead is in the table, and all that is pending is classed. -/
structure Classes (s : State) : Prop where
  tabled : ∀ x ∈ s.rest, x.Tabled
  pending : s.Every Expr.Classed

/-- Only two rules build binary expressions. -/
theorem Rule.classed_of_builds {r : Rule} {e : Tree} (hassignment : r ≠ .assignment)
    (hrest : ∀ level left, r ≠ .binaryRest level left) (h : r.Builds e) : e.Classed := by
  cases e with
  | binary X family op left right =>
    cases r with
    | assignment => exact absurd rfl hassignment
    | binaryRest level left => exact absurd rfl (hrest level left)
    | _ => cases h
  | _ => trivial

namespace Classes

variable {s : State}

theorem next (h : Classes s) : s.next.Tabled := by
  rw [State.next]
  cases hrest : s.rest with
  | nil => exact Symbol.finish_tabled
  | cons x more => exact h.tabled x (by simp [hrest])

theorem shift (h : Classes s) : Classes s.shift := by
  refine ⟨fun x hx => h.tabled x ?_, ?_⟩
  · rw [State.shift] at hx
    split at hx
    · exact hx
    · next hrest =>
      rw [hrest]
      exact List.mem_cons_of_mem _ hx
  · rw [State.Every, s.pending_shift]
    exact h.pending

/-- All steps keep it, where what is built is classed. -/
theorem invariant : Invariant Expr.Classed Classes where
  shift := shift
  skipSemicolons h := ⟨fun x hx => h.tabled x (List.mem_of_mem_drop hx), h.pending⟩
  repair h _ := ⟨h.tabled, h.pending⟩
  build h hs he := ⟨h.tabled, State.Every.build h.pending hs he⟩
  widen h hs := ⟨h.tabled, State.Every.widen h.pending hs Expr.classed_setNote.2⟩

end Classes

/-! ## Runs -/

/-- What runs of depth `d` do for the expressions that are pending. -/
def Classifies (d : Nat) : Prop :=
  ∀ ⦃r : Rule⦄ ⦃s t : State⦄ ⦃a : r.Result⦄, Holds r.held s → Classes s →
    Rule.run d r s = .accepted a t → Classes t

namespace Classifies

variable {d : Nat} (ih : Classifies d)
include ih

/-- A call of a rule, with what its contract says of the expressions pending. -/
theorem call (r : Rule) {s t : State} {a : r.Result} (hholds : Holds r.held s) (hs : Classes s)
    (hp : (run r).exec (Rule.run d) s = .accepted a t) : Classes t ∧ r.Post s a t := by
  rw [exec_run] at hp
  exact ⟨ih hholds hs hp, Rule.post_of_run hholds hp⟩

/-- An operand of an operation, read by the next tighter rule. -/
theorem operand {level : Level} {s m : State} {operand : Tree} (hs : Classes s)
    (hp : ReadsOperand (Rule.run d) level s operand m) :
    Classes m ∧ m.pending = operand :: s.pending := by
  cases hp with
  | binary _ hoperand =>
    obtain ⟨hm, hpost⟩ := ih.call (.binary _) (.nil _) hs hoperand
    exact ⟨hm, hpost.carries.pending _ rfl⟩
  | unary _ hoperand =>
    obtain ⟨hm, hpost⟩ := ih.call .unary (.nil _) hs hoperand
    exact ⟨hm, hpost.carries.pending _ rfl⟩

/-- The operator of an assignment has no other binary role. -/
theorem assignment {s t : State} {e : Tree} (hs : Classes s)
    (hp : Grammar.assignment.exec (Rule.run d) s = .accepted e t) : Classes t := by
  obtain ⟨left, m, hleft, hmore⟩ := exec_assignment_accepted.1 hp
  obtain ⟨hm, hpost⟩ := ih.call .conditional (.nil _) hs hleft
  rcases hmore with ⟨hplays, right, m', hright, htree⟩ | ⟨-, rfl, rfl⟩
  · cases htree
    obtain ⟨hm', hpost'⟩ := ih.call .assignment (.nil _) hm.shift hright
    have hpending : m'.pending = [left, right].reverse ++ s.pending := by
      rw [hpost'.carries.pending m.shift.pending rfl, m.pending_shift,
        hpost.carries.pending s.pending rfl]
      rfl
    exact Classes.invariant.build hm' hpending
      (Family.ofOperator_of_assignment (hm.next _ hplays))
  · exact hm

/-- An operator of a level belongs to the family of the level. -/
theorem binaryRest {level : Level} {left : Tree} {s t : State} {e : Tree}
    (hholds : Holds [.expr left] s) (hs : Classes s)
    (hp : (Grammar.binaryRest level left).exec (Rule.run d) s = .accepted e t) : Classes t := by
  obtain ⟨base, hbase⟩ := hholds
  rcases exec_binaryRest_accepted.1 hp with
    ⟨hplays, right, m, hright, tree, m', htree, hmore⟩ | ⟨-, rfl, rfl⟩
  · cases htree
    obtain ⟨hm, hpending⟩ := ih.operand hs.shift hright
    have hoperands : m.pending = [left, right].reverse ++ base := by
      rw [hpending, s.pending_shift, hbase]
      rfl
    have hbuilt := Classes.invariant.build
      (e := .binary ⟨left.note.first, m.passed - 1⟩ level.family s.next.lexeme left right) hm
      hoperands (Family.ofOperator_of_plays (hs.next _ hplays))
    refine (ih.call (.binaryRest level _) ⟨base, ?_⟩ hbuilt hmore).1
    rw [State.build, hoperands]
    rfl
  · exact hs

end Classifies

/-- Every run of a rule keeps pending expressions classed, by induction on the depth of calls. -/
theorem Rule.classifies (d : Nat) : Classifies d := by
  induction d with
  | zero =>
    intro r s t a hholds hs hp
    cases hp
  | succ d ih =>
    intro r s t a hholds hs hp
    have hconfined := r.confined
    have hsafe := r.safe s hholds
    cases r with
    | assignment => exact ih.assignment hs hp
    | binaryRest level left => exact ih.binaryRest hholds hs hp
    | _ =>
      refine (hconfined.mono (fun e he => Rule.classed_of_builds ?_ ?_ he) fun _ h => h).keeps
        Classes.invariant (fun _ hholds hs hc => ih hholds hs hc) hsafe hs hp
      · exact nofun
      · exact nofun

/-- The expressions of an item are classed. -/
theorem classed_of_item {s t : State} {n : Item} (h : item? s = .accepted n t)
    (htabled : ∀ x ∈ s.rest, x.Tabled) (hs : s.pending = []) :
    (∀ e ∈ n.slots, ∀ a ∈ e.postorder, a.Classed) ∧ ∀ x ∈ t.rest, x.Tabled := by
  have hclasses : Classes s := ⟨htabled, fun e he => by rw [hs] at he; cases he⟩
  have hafter : Classes t :=
    Rule.classifies s.depth (show Holds (Rule.held .item) s from Holds.nil s) hclasses h
  refine ⟨fun e he => hafter.pending e ?_, hafter.tabled⟩
  rw [← item?_pending h hs] at he
  exact List.mem_reverse.1 he

end Grammar

end ShaderRepair
