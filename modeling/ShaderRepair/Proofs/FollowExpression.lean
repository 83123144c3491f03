import ShaderRepair.Proofs.Follow

/-!
# Descents through expressions follow procedures

One lemma for the body of each rule for expressions.
-/

namespace ShaderRepair

namespace Descent

namespace Input

open Grammar (Passable Procedure)

section Tree

variable (w : Input)

theorem first_tree (e : Grammar.Tree) : (w.tree e).note.first = w.token e.note.first := by
  rw [tree, Expr.note_map]
  rfl

theorem tree_sequence (X : Extent Nat) (es : List Grammar.Tree) :
    w.tree (.sequence X es) = .sequence (X.map w.token) (es.map w.tree) := by
  rw [tree, Expr.map, Expr.mapAll_eq_map]
  rfl

theorem tree_initializers (X : Extent Nat) (es : List Grammar.Tree) :
    w.tree (.initializers X es) = .initializers (X.map w.token) (es.map w.tree) := by
  rw [tree, Expr.map, Expr.mapAll_eq_map]
  rfl

theorem tree_call (X : Extent Nat) (e : Grammar.Tree) (es : List Grammar.Tree) :
    w.tree (.call X e es) = .call (X.map w.token) (w.tree e) (es.map w.tree) := by
  rw [tree, Expr.map, Expr.mapAll_eq_map]
  rfl

theorem tree_setNote (X : Extent Nat) (e : Grammar.Tree) :
    w.tree (e.setNote X) = (w.tree e).setNote (X.map w.token) := by
  cases e <;> rfl

end Tree

namespace Follows

variable {w : Input} {d low : Nat} {x : Symbol} {rules : Rules} (h : w.FollowsRules d rules)
include h

/-! ## From sequences to conditionals -/

theorem expression :
    w.Follows d low (low + 1) x w.tree Grammar.expression (Descent.expression rules) := by
  refine bind h.assignment fun first _ => check (fun _ => ?_) fun _ => pure rfl (Nat.le_refl _)
  refine bind h.sequence fun more _ => ?_
  exact make (w.first_tree first) (Nat.succ_pos _) fun X => (w.tree_sequence X (first :: more)).symm

theorem sequence :
    w.Follows d low low x (List.map w.tree) Grammar.sequence (Descent.sequence rules) := by
  refine accept_kind (by decide) (fun _ => ?_) (pure rfl (Nat.le_refl _))
  exact bind h.assignment fun e _ => bind h.sequence fun es _ => pure rfl (by omega)

theorem assignment :
    w.Follows d low (low + 1) x w.tree Grammar.assignment (Descent.assignment rules) := by
  refine bind h.conditional fun left _ => next fun t ht => ?_
  refine choose (by rw [ht.plays]) (fun hx => ?_) fun _ => pure rfl (Nat.le_refl _)
  refine bind (take (.of_plays hx)) fun op _ => bind h.assignment fun right _ => ?_
  exact (make (w.first_tree left) (Nat.succ_pos _) fun _ => rfl).mono (by omega)

theorem conditional :
    w.Follows d low (low + 1) x w.tree Grammar.conditional (Descent.conditional rules) := by
  refine bind (h.binary _) fun condition _ => next fun t ht => ?_
  refine choose (by rw [ht.plays]) (fun hx => ?_) fun _ => pure rfl (Nat.le_refl _)
  refine bind (take (.of_plays hx)) fun _ _ => bind h.expression fun yes _ => ?_
  refine bind (colon (Nat.succ_pos _)) fun _ _ => bind h.assignment fun no _ => ?_
  exact (make (w.first_tree condition) (Nat.succ_pos _) fun _ => rfl).mono (by omega)

/-! ## Operators -/

/-- An operand of an operator of a level. -/
theorem operand {high : Nat} (level : Level) {k : Grammar.Tree → Procedure Grammar.Tree}
    {k' : Descent.Tree → Step Descent.Tree}
    (hk : ∀ e y, w.Follows d (low + 1) high y w.tree (k e) (k' (w.tree e))) :
    w.Follows d low high x w.tree
      (match level.tighter with
        | some tighter => Procedure.run (.binary tighter) >>= k
        | none => Procedure.run .unary >>= k)
      (Descent.operand rules level >>= k') := by
  rw [Descent.operand]
  cases level.tighter with
  | some tighter => exact bind (h.binary tighter) hk
  | none => exact bind h.unary hk

theorem binary (level : Level) :
    w.Follows d low (low + 1) x w.tree (Grammar.binary level) (Descent.binary rules level) :=
  operand h level fun left _ => h.binaryRest level left

theorem binaryRest (level : Level) (left : Grammar.Tree) :
    w.Follows d low low x w.tree (Grammar.binaryRest level left)
      (Descent.binaryRest rules level (w.tree left)) := by
  refine next fun t ht => ?_
  refine choose (by rw [ht.plays]) (fun hx => ?_) fun _ => pure rfl (Nat.le_refl _)
  refine bind (take (.of_plays hx)) fun op _ => operand h level fun right _ => ?_
  refine bind (make (w.first_tree left) (Nat.succ_pos _) fun _ => rfl) fun e _ => ?_
  exact (h.binaryRest level e).mono (by omega)

theorem unary : w.Follows d low (low + 1) x w.tree Grammar.unary (Descent.unary rules) := by
  refine next fun t ht => choose (by rw [ht.plays]) (fun hx => ?_) fun _ => ?_
  · refine bind (take (.of_plays hx)) fun op _ => bind h.unary fun e _ => ?_
    exact (make rfl (Nat.succ_pos _) fun _ => rfl).mono (by omega)
  · exact bind h.primary fun object _ => h.suffixes object

/-- What trails an operand. -/
theorem suffixes (object : Grammar.Tree) :
    w.Follows d low low x w.tree (Grammar.suffixes object)
      (Descent.suffixes rules (w.tree object)) := by
  -- Each form goes on with the rule for suffixes.
  have hmore : ∀ {low' : Nat} {y : Symbol} {e : Extent Nat → Grammar.Tree}
      {e' : Extent Token → Descent.Tree}, low < low' → (∀ X, e' (X.map w.token) = w.tree (e X)) →
      w.Follows d low' low y w.tree
        (Procedure.make object.note.first e >>= fun e => Procedure.run (.suffixes e))
        (Descent.make (w.tree object).note.first e' >>= fun e => rules.suffixes e) := by
    intro low' y e e' hlt he
    refine bind (make (w.first_tree object) (Nat.zero_lt_of_lt hlt) he) fun e _ => ?_
    exact (h.suffixes e).mono (Nat.le_of_lt hlt)
  -- The last two of the four forms also depend on the line, which only a strict look tells.
  refine next_strict fun t u ht hu => ?_
  have hparen : decide (x.kind = .leftParen) = true → Passable x :=
    fun hx => .of_kind (of_decide_eq_true hx) (by decide)
  have htrailing : x.plays .trailing = true → Passable x := .of_plays
  refine choose (by rw [ht.kind]) (fun hx => ?_) fun _ => choose (by rw [ht.kind]) (fun hx => ?_)
    fun _ => choose (hu.onLine_iff (by rw [ht.kind]) fun hx => (hparen hx).2) (fun hx => ?_)
    fun _ => choose (hu.onLine_iff (ht.plays _) fun hx => (htrailing hx).2) (fun hx => ?_)
    fun _ => pure rfl (Nat.le_refl _)
  · refine bind (take (.of_kind hx (by decide))) fun _ _ => ?_
    refine bind (expect_kind (by decide)) fun name _ => hmore (by omega) fun _ => rfl
  · refine bind (take (.of_kind hx (by decide))) fun _ _ => check (fun hy => ?_) fun _ => ?_
    · exact bind (take (.of_kind hy (by decide))) fun _ _ => hmore (by omega) fun _ => rfl
    · refine bind h.expression fun index _ => bind (expect_kind (by decide)) fun _ _ => ?_
      exact hmore (by omega) fun _ => rfl
  · refine bind (take (hparen (Bool.and_eq_true_iff.1 hx).1)) fun _ _ => ?_
    refine bind h.arguments fun es _ => bind (rightParen (Nat.succ_pos _)) fun _ _ => ?_
    exact hmore (by omega) fun X => (w.tree_call X object es).symm
  · refine bind (take (htrailing (Bool.and_eq_true_iff.1 hx).1)) fun op _ => ?_
    exact hmore (by omega) fun _ => rfl

/-- Arguments on one line. -/
theorem arguments :
    w.Follows d low low x (List.map w.tree) Grammar.arguments (Descent.arguments rules) := by
  have hmore : ∀ (e : Grammar.Tree) y, w.Follows d (low + 1) low y (List.map w.tree)
      (Procedure.run .arguments >>= fun es => Pure.pure (e :: es))
      (rules.arguments >>= fun es => Pure.pure (w.tree e :: es)) :=
    fun e _ => bind h.arguments fun es _ => pure rfl (Nat.le_succ _)
  refine check (fun _ => pure rfl (Nat.le_refl _)) fun _ => bind h.assignment fun e _ => ?_
  refine accept_kind (by decide) (fun y => (hmore e y).later (Nat.le_succ _)) ?_
  refine strict fun t u ht hu => choose (by rw [hu.startsExpression ht]) (fun _ => ?_) fun _ =>
    pure rfl (Nat.le_succ _)
  exact bind (comma (Nat.succ_pos _)) fun _ y => hmore e y

/-! ## Operands -/

theorem primary : w.Follows d low (low + 1) x w.tree Grammar.primary (Descent.primary rules) := by
  refine next fun t ht => ?_
  split
  · next hx =>
    simp only [ht.kind, hx]
    refine bind (take (.of_kind hx (by decide))) fun opening _ => ?_
    refine bind h.expression fun inner _ => bind (rightParen (Nat.succ_pos _)) fun _ _ => ?_
    refine bind (extentFrom rfl (Nat.succ_pos _)) fun X _ => widen (done ?_ (by omega))
    exact (w.tree_setNote X inner).symm
  · next hx =>
    simp only [ht.kind, hx]
    refine bind (take (.of_kind hx (by decide))) fun word _ => ?_
    refine make rfl (Nat.succ_pos _) fun X => ?_
    rw [ht.tags (Passable.of_kind hx (by decide)).2]
    rfl
  · next hx =>
    simp only [ht.kind, hx]
    refine bind (take (.of_kind hx (by decide))) fun word _ => ?_
    exact make rfl (Nat.succ_pos _) fun _ => rfl
  · simp only [ht.kind]
    exact reject_here

/-! ## Initializers -/

theorem initializer :
    w.Follows d low (low + 1) x w.tree Grammar.initializer (Descent.initializer rules) := by
  refine check (fun hx => ?_) fun _ => h.assignment
  refine bind (take (.of_kind hx (by decide))) fun opening _ => bind h.elements fun es _ => ?_
  refine bind (expect_kind (by decide)) fun _ _ => ?_
  exact (make rfl (Nat.succ_pos _) fun X => (w.tree_initializers X es).symm).mono (by omega)

theorem elements :
    w.Follows d low low x (List.map w.tree) Grammar.elements (Descent.elements rules) := by
  refine check (fun _ => pure rfl (Nat.le_refl _)) fun _ => bind h.initializer fun e _ => ?_
  refine next fun t ht => choose (by rw [ht.kind, ht.startsExpression]) (fun _ => ?_) fun _ =>
    pure rfl (Nat.le_succ _)
  refine bind (comma (Nat.succ_pos _)) fun _ _ => bind h.elements fun es _ => ?_
  exact pure rfl (Nat.le_succ _)

end Follows

end Input

end Descent

end ShaderRepair
