import ShaderRepair.Proofs.Operand
import ShaderRepair.Proofs.Restore

/-!
# Restoring semicolons behind expressions

An expression ends in front of a semicolon, and it ends as well where that is gone. There is one
lemma for the body of each rule. No expression holds a semicolon, so none of them has an end.
-/

namespace ShaderRepair

theorem Symbol.isTaken_of_plays {x : Symbol} {r : Role} (h : x.plays r = true) :
    x.kind.isTaken = true := by
  rw [Symbol.kind_of_plays h]
  rfl

namespace Grammar

open Procedure

namespace Omission

open Restores

variable {o : Omission} {d : Nat} {x : Symbol}

section Bodies

variable (h : o.RestoresRules d)
include h

/-! ## From sequences to conditionals -/

theorem expression_restores :
    o.Restores d x false [] noEnds o.tree Grammar.expression Grammar.expression := by
  refine (h .assignment x).bind fun e y => ?_
  refine next_if (fun z hz => Kind.ne_of_stops hz rfl) (fun _ => ?_) (fun _ => result rfl)
    fun _ _ _ => rfl
  refine (h .sequence y).bind fun more z => ?_
  exact made (o.first_tree _) fun X => rfl

theorem sequence_restores :
    o.Restores d x false [] noEnds (Expr.mapAll (Extent.map o.moved)) Grammar.sequence
      Grammar.sequence := by
  refine accept rfl rfl (fun _ y => ?_) (result rfl)
  refine (h .assignment y).bind fun e z => ?_
  exact (h .sequence z).bind fun more w => result rfl

theorem assignment_restores :
    o.Restores d x false [] noEnds o.tree Grammar.assignment Grammar.assignment := by
  refine (h .conditional x).bind fun left y => ?_
  refine next_if (fun z hz => Symbol.not_plays_of_stops hz) (fun hy => ?_) (fun _ => result rfl)
    fun _ _ _ => rfl
  refine take (Symbol.isTaken_of_plays hy) fun n z => ?_
  refine (h .assignment z).bind fun right w => ?_
  exact made (o.first_tree _) fun X => rfl

theorem conditional_restores :
    o.Restores d x false [] noEnds o.tree Grammar.conditional Grammar.conditional := by
  refine (h (.binary .logicalOr) x).bind fun c y => ?_
  refine next_if (fun z hz => Symbol.not_plays_of_stops hz) (fun hy => ?_) (fun _ => result rfl)
    fun _ _ _ => rfl
  refine take (Symbol.isTaken_of_plays hy) fun n z => ?_
  refine (h .expression z).bind fun yes w => ?_
  refine orMissing rfl fun v => ?_
  refine (h .assignment v).bind fun no u => ?_
  exact made (o.first_tree c) fun X => rfl

/-! ## Operators -/

/-- An operand of an operator of a level. -/
theorem operand_restores (level : Level) {k : Tree → Procedure Tree} {k' : Tree → Procedure Tree}
    (hk : ∀ e y, o.Restores d y false [] noEnds o.tree (k e) (k' (o.tree e))) :
    o.Restores d x false [] noEnds o.tree
      (match level.tighter with
        | some tighter => run (.binary tighter) >>= k
        | none => run .unary >>= k)
      (match level.tighter with
        | some tighter => run (.binary tighter) >>= k'
        | none => run .unary >>= k') := by
  cases level.tighter with
  | some tighter => exact (h (.binary tighter) x).bind hk
  | none => exact (h .unary x).bind hk

theorem binary_restores (level : Level) :
    o.Restores d x false [] noEnds o.tree (Grammar.binary level) (Grammar.binary level) :=
  operand_restores h level fun left y => h (.binaryRest level left) y

theorem binaryRest_restores (level : Level) (left : Tree) :
    o.Restores d x false [] noEnds o.tree (Grammar.binaryRest level left)
      (Grammar.binaryRest level (o.tree left)) := by
  refine next_if (fun z hz => Symbol.not_plays_of_stops hz) (fun hx => ?_) (fun _ => result rfl)
    fun _ _ _ => rfl
  refine take (Symbol.isTaken_of_plays hx) fun n y => operand_restores h level fun right z => ?_
  exact make (o.first_tree left) (fun X => rfl) fun e => h (.binaryRest level e) z

theorem unary_restores :
    o.Restores d x false [] noEnds o.tree Grammar.unary Grammar.unary := by
  refine next_if (fun z hz => Symbol.not_plays_of_stops hz) (fun hx => ?_) (fun _ => ?_)
    fun _ _ _ => rfl
  · refine take (Symbol.isTaken_of_plays hx) fun n y => ?_
    refine (h .unary y).bind fun e z => ?_
    exact made rfl fun X => rfl
  · refine (h .primary x).bind fun e y => ?_
    exact h (.suffixes e) y

theorem suffixes_restores (object : Tree) :
    o.Restores d x false [] noEnds o.tree (Grammar.suffixes object)
      (Grammar.suffixes (o.tree object)) := by
  -- Whatever trails the object, the tree of both goes on as the object.
  have hmore : ∀ {e e' : Extent Nat → Tree}, (∀ X, o.tree (e X) = e' (X.map o.moved)) → ∀ y,
      o.Restores d y false [] noEnds o.tree
        (Procedure.make object.note.first e >>= fun e => run (.suffixes e))
        (Procedure.make (o.tree object).note.first e' >>= fun e => run (.suffixes e)) :=
    fun he y => make (o.first_tree object) he fun e => h (.suffixes e) y
  refine next_if (fun z hz => Kind.ne_of_stops hz rfl) (fun hx => ?_) (fun _ => ?_) ?_
  · refine take (hx ▸ rfl) fun n y => ?_
    refine expect rfl fun _ n' z => ?_
    exact hmore (fun X => rfl) z
  · refine choose (fun hx => ?_) fun _ => choose (fun hx => ?_) fun _ => choose (fun hx => ?_)
      fun _ => result rfl
    · refine take (hx ▸ rfl) fun n y => ?_
      refine next_if (fun z hz => Kind.ne_of_stops hz rfl) (fun hy => ?_) (fun _ => ?_)
        fun _ _ _ => rfl
      · exact take (hy ▸ rfl) fun n' z => hmore (fun X => rfl) z
      · refine (h .expression y).bind fun i z => ?_
        exact expect rfl fun _ n' w => hmore (fun X => rfl) w
    · have hparen : x.kind = .leftParen := by
        simp only [Bool.and_eq_true, decide_eq_true_eq] at hx
        exact hx.1
      refine take (hparen ▸ rfl) fun n y => ?_
      refine (h .arguments y).bind fun es z => ?_
      exact orMissing rfl fun w => hmore (fun X => rfl) w
    · have htrailing : x.plays .trailing = true := by
        simp only [Bool.and_eq_true] at hx
        exact hx.1
      exact take (Symbol.isTaken_of_plays htrailing) fun n y => hmore (fun X => rfl) y
  · intro hx y hy
    have hnone : ∀ z : Symbol, z.kind.stops = true → z.kind ≠ .leftBracket ∧
        z.kind ≠ .leftParen ∧ z.plays .trailing = false := fun z hz =>
      ⟨Kind.ne_of_stops hz rfl, Kind.ne_of_stops hz rfl,
        Bool.eq_false_iff.2 (Symbol.not_plays_of_stops hz)⟩
    simp [hnone x hx, hnone y hy]

theorem arguments_restores :
    o.Restores d x false [] noEnds (Expr.mapAll (Extent.map o.moved)) Grammar.arguments
      Grammar.arguments := by
  refine next_if (fun z hz => Kind.ne_of_stops hz rfl) (fun _ => result rfl) (fun _ => ?_)
    fun _ _ _ => rfl
  refine (h .assignment x).bind fun e y => ?_
  refine accept rfl rfl (fun _ z => (h .arguments z).bind fun es w => result rfl) ?_
  refine next_if (fun z hz => ?_) (fun _ => ?_) (fun _ => result rfl) fun _ _ _ => rfl
  · rw [Symbol.not_startsExpression_of_stops hz]
    exact Bool.false_ne_true
  · exact orMissing rfl fun z => (h .arguments z).bind fun es w => result rfl

theorem primary_restores :
    o.Restores d x false [] noEnds o.tree Grammar.primary Grammar.primary := by
  refine next ?_ ?_
  · split
    · next hx =>
      refine take (hx ▸ rfl) fun n y => ?_
      refine (h .expression y).bind fun inner z => ?_
      exact orMissing rfl fun w => extentFrom fun X => widen (result (o.tree_setNote inner X))
    · next hx => exact take (hx ▸ rfl) fun n y => made rfl fun X => rfl
    · next hx => exact take (hx ▸ rfl) fun n y => made rfl fun X => rfl
    · exact somewhere fun n n' => reject
  · intro hx y hy
    split
    · next hk => exact absurd hk (Kind.ne_of_stops hy rfl)
    · next hk => exact absurd hk (Kind.ne_of_stops hy rfl)
    · next hk => exact absurd hk (Kind.ne_of_stops hy rfl)
    split
    · next hk => exact absurd hk (Kind.ne_of_stops hx rfl)
    · next hk => exact absurd hk (Kind.ne_of_stops hx rfl)
    · next hk => exact absurd hk (Kind.ne_of_stops hx rfl)
    · rfl

/-! ## Initializers -/

theorem initializer_restores :
    o.Restores d x false [] noEnds o.tree Grammar.initializer Grammar.initializer := by
  refine next_if (fun z hz => Kind.ne_of_stops hz rfl) (fun hx => ?_) (fun _ => h .assignment x)
    fun _ _ _ => rfl
  refine take (hx ▸ rfl) fun n y => ?_
  refine (h .elements y).bind fun es z => ?_
  exact expect rfl fun _ n' w => made rfl fun X => rfl

theorem elements_restores :
    o.Restores d x false [] noEnds (Expr.mapAll (Extent.map o.moved)) Grammar.elements
      Grammar.elements := by
  refine next_solid ?_ (choose (fun _ => result rfl) fun _ => ?_) fun _ => rfl
  · split
    · next hx => exact .of_kind (by rw [hx]; exact Kind.noConfusion)
    · exact .of_progress progresses_initializer
  refine (h .initializer x).bind fun e y => ?_
  refine next_if (fun z hz => ?_) (fun _ => ?_) (fun _ => result rfl) fun _ _ _ => rfl
  · have hcomma : z.kind ≠ .comma := Kind.ne_of_stops hz rfl
    have hbrace : z.kind ≠ .leftBrace := Kind.ne_of_stops hz rfl
    simp [hcomma, hbrace, Symbol.not_startsExpression_of_stops hz]
  · exact orMissing rfl fun z => (h .elements z).bind fun es w => result rfl

end Bodies

end Omission

end Grammar

end ShaderRepair
