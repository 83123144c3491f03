import ShaderRepair.Proofs.PassageMap
import ShaderRepair.Proofs.Relocate

/-!
# Expressions among the same symbols elsewhere

An expression that is met again is read again, to a tree that shows the same. This file contains:
- `Relocation.SameTree`, for each form of an expression;
- one lemma for the body of each rule.
-/

namespace ShaderRepair

namespace Grammar

open Procedure

variable {μ : Type}

namespace Relocation

variable {ρ : Relocation μ}

/-! ## Trees that show the same -/

namespace SameTree

variable {X X' : Extent Nat} {c c' e e' l l' r r' : Tree} {es es' : List Tree}

/-- They begin with symbols that show the same. -/
theorem first (h : ρ.SameTree e e') : ρ.old e.note.first = ρ.new e'.note.first := by
  have hnote := congrArg (fun e : Expr (Extent μ) => e.note.first) h
  simpa only [tree, tree', Expr.note_map, Extent.map] using hnote

/-- They are of one shape. -/
theorem bare (h : ρ.SameTree e e') : e.bare = e'.bare := by
  have hbare := congrArg Expr.bare h
  rwa [tree, tree', Expr.bare_map, Expr.bare_map] at hbare

variable (hX : ρ.SameExtent X X')
include hX

theorem sequence (hes : ρ.SameTrees es es') :
    ρ.SameTree (.sequence X es) (.sequence X' es') := by
  simp only [SameTree, tree, tree', Expr.map, Expr.mapAll_eq_map]
  exact congrArg₂ _ hX hes

theorem initializers (hes : ρ.SameTrees es es') :
    ρ.SameTree (.initializers X es) (.initializers X' es') := by
  simp only [SameTree, tree, tree', Expr.map, Expr.mapAll_eq_map]
  exact congrArg₂ _ hX hes

theorem conditional (hc : ρ.SameTree c c') (hl : ρ.SameTree l l') (hr : ρ.SameTree r r') :
    ρ.SameTree (.conditional X c l r) (.conditional X' c' l' r') := by
  change Expr.conditional (X.map ρ.old) (ρ.tree c) (ρ.tree l) (ρ.tree r) = _
  rw [hX, hc, hl, hr]
  rfl

theorem binary (family : Family) (op : Text) (hl : ρ.SameTree l l') (hr : ρ.SameTree r r') :
    ρ.SameTree (.binary X family op l r) (.binary X' family op l' r') := by
  change Expr.binary (X.map ρ.old) family op (ρ.tree l) (ρ.tree r) = _
  rw [hX, hl, hr]
  rfl

theorem unary (op : Text) (side : Side) (he : ρ.SameTree e e') :
    ρ.SameTree (.unary X op side e) (.unary X' op side e') := by
  change Expr.unary (X.map ρ.old) op side (ρ.tree e) = _
  rw [hX, he]
  rfl

theorem call (he : ρ.SameTree e e') (hes : ρ.SameTrees es es') :
    ρ.SameTree (.call X e es) (.call X' e' es') := by
  simp only [SameTree, tree, tree', Expr.map, Expr.mapAll_eq_map]
  exact congr (congrArg₂ _ hX he) hes

theorem member (he : ρ.SameTree e e') (name : Text) :
    ρ.SameTree (.member X e name) (.member X' e' name) := by
  change Expr.member (X.map ρ.old) (ρ.tree e) name = _
  rw [hX, he]
  rfl

theorem index (hl : ρ.SameTree l l') (hr : ρ.SameTree r r') :
    ρ.SameTree (.index X l r) (.index X' l' r') := by
  change Expr.index (X.map ρ.old) (ρ.tree l) (ρ.tree r) = _
  rw [hX, hl, hr]
  rfl

theorem unsized (he : ρ.SameTree e e') : ρ.SameTree (.unsized X e) (.unsized X' e') := by
  change Expr.unsized (X.map ρ.old) (ρ.tree e) = _
  rw [hX, he]
  rfl

theorem identifier (name : Text) :
    ρ.SameTree (.identifier X name) (.identifier X' name) :=
  congrArg (Expr.identifier · name) hX

theorem literal (kind : LiteralKind) (text : Text) :
    ρ.SameTree (.literal X kind text) (.literal X' kind text) :=
  congrArg (Expr.literal · kind text) hX

theorem setNote (he : ρ.SameTree e e') : ρ.SameTree (e.setNote X) (e'.setNote X') := by
  have hset : ∀ (f : Nat → μ) (X : Extent Nat) (e : Tree),
      (e.setNote X).map (Extent.map f) = (e.map (Extent.map f)).setNote (X.map f) := by
    intro f X e
    cases e <;> rfl
  rw [SameTree, tree, tree', hset, hset, hX]
  exact congrArg _ he

end SameTree

/-- Names that show the same have the same text. -/
theorem SameName.text {n n' : Name Nat} (h : ρ.SameName n n') : n.text = n'.text :=
  congrArg (fun n : Name μ => n.text) h

theorem SameName.mark {n n' : Name Nat} (h : ρ.SameName n n') : ρ.old n.mark = ρ.new n'.mark :=
  congrArg (fun n : Name μ => n.mark) h

theorem sameTrees_cons {e e' : Tree} {es es' : List Tree} (he : ρ.SameTree e e')
    (hes : ρ.SameTrees es es') : ρ.SameTrees (e :: es) (e' :: es') :=
  congrArg₂ List.cons he hes

/-! ## Rules -/

section Bodies

open Relocates

variable {d low : Nat} {x : Symbol} (h : ρ.RelocatesRules d)
include h

/-! ### From sequences to conditionals -/

theorem expression_relocates :
    ρ.Relocates d .within low (low + 1) x ρ.SameTree Grammar.expression Grammar.expression := by
  refine bind (by decide) (h.free .assignment rfl) fun e e' y he => ?_
  refine next (by decide) (choose (fun _ => ?_) fun _ => pure he (Nat.le_refl _)) fun _ => rfl
  refine bind (by decide) (h.free .sequence rfl) fun es es' _ hes => ?_
  exact make (by decide) (.inl he.first) (Nat.succ_pos _) fun X X' hX =>
    .sequence hX (sameTrees_cons he hes)

theorem sequence_relocates :
    ρ.Relocates d .within low low x ρ.SameTrees Grammar.sequence Grammar.sequence := by
  refine bind (by decide) (accept fun y hy => .of_accepts hy (by decide)) ?_
  rintro _ b y rfl
  refine choose (fun _ => ?_) fun _ => pure rfl (Nat.le_refl _)
  refine bind (by decide) (h.free .assignment rfl) fun e e' y he => ?_
  exact bind (by decide) (h.free .sequence rfl) fun es es' _ hes =>
    pure (sameTrees_cons he hes) (Nat.le_succ _)

theorem assignment_relocates :
    ρ.Relocates d .within low (low + 1) x ρ.SameTree Grammar.assignment Grammar.assignment := by
  refine bind (by decide) (h.free .conditional rfl) fun left left' y hl => ?_
  refine next (by decide) (choose (fun hy => ?_) fun _ => pure hl (Nat.le_refl _)) fun _ => rfl
  refine bind (by decide) (take (.of_plays hy)) fun op op' z hop => ?_
  refine bind (by decide) (h.free .assignment rfl) fun right right' _ hr => ?_
  refine mono (make (by decide) (.inl hl.first) (Nat.succ_pos _) fun X X' hX => ?_) (by omega)
    fun _ _ he => he
  rw [hop.text]
  exact .binary hX _ _ hl hr

theorem conditional_relocates :
    ρ.Relocates d .within low (low + 1) x ρ.SameTree Grammar.conditional Grammar.conditional := by
  refine bind (by decide) (h.free (.binary _) rfl) fun c c' y hc => ?_
  refine next (by decide) (choose (fun hy => ?_) fun _ => pure hc (Nat.le_refl _)) fun _ => rfl
  refine bind (by decide) (take (.of_plays hy)) fun op op' z hop => ?_
  refine bind (by decide) (h.free .expression rfl) fun yes yes' _ hl => ?_
  refine bind (by decide) colon fun _ _ _ _ => ?_
  refine bind (by decide) (h.free .assignment rfl) fun no no' _ hr => ?_
  exact mono (make (by decide) (.inl hc.first) (Nat.succ_pos _)
    fun X X' hX => .conditional hX hc hl hr)
    (by omega) fun _ _ he => he

/-! ### Operators -/

/-- An operand of an operator of a level. -/
theorem operand_relocates {high : Nat} (level : Level) {k k' : Tree → Procedure Tree}
    (hk : ∀ e e' y, ρ.SameTree e e' →
      ρ.Relocates d .within (low + 1) high y ρ.SameTree (k e) (k' e')) :
    ρ.Relocates d .within low high x ρ.SameTree
      (match level.tighter with
        | some tighter => run (.binary tighter) >>= k
        | none => Procedure.run .unary >>= k)
      (match level.tighter with
        | some tighter => run (.binary tighter) >>= k'
        | none => Procedure.run .unary >>= k') := by
  cases level.tighter with
  | some tighter => exact bind (by decide) (h.free (.binary tighter) rfl) hk
  | none => exact bind (by decide) (h.free .unary rfl) hk

theorem binary_relocates (level : Level) :
    ρ.Relocates d .within low (low + 1) x ρ.SameTree (Grammar.binary level)
      (Grammar.binary level) :=
  operand_relocates h level fun _ _ _ he => h.free (.binaryRest level he) rfl

theorem binaryRest_relocates (level : Level) {left left' : Tree} (hl : ρ.SameTree left left') :
    ρ.Relocates d .within low low x ρ.SameTree (Grammar.binaryRest level left)
      (Grammar.binaryRest level left') := by
  refine next (by decide) (choose (fun hx => ?_) fun _ => pure hl (Nat.le_refl _)) fun _ => rfl
  refine bind (by decide) (take (.of_plays hx)) fun op op' y hop => ?_
  refine operand_relocates h level fun right right' _ hr => ?_
  refine bind (by decide) (make (by decide) (.inl hl.first) (Nat.succ_pos _) fun X X' hX => ?_)
    fun e e' _ he => mono (h.free (.binaryRest level he) rfl) (by omega) fun _ _ he => he
  rw [hop.text]
  exact .binary hX _ _ hl hr

theorem unary_relocates :
    ρ.Relocates d .within low (low + 1) x ρ.SameTree Grammar.unary Grammar.unary := by
  refine next (by decide) (choose (fun hx => ?_) fun _ => ?_) fun _ => rfl
  · refine bind (by decide) (take (.of_plays hx)) fun op op' y hop => ?_
    refine bind (by decide) (h.free .unary rfl) fun e e' _ he => ?_
    refine mono (make (by decide) (.inl hop.mark) (Nat.succ_pos _) fun X X' hX => ?_) (by omega)
      fun _ _ he => he
    rw [hop.text]
    exact .unary hX _ _ he
  · exact bind (by decide) (h.free .primary rfl) fun e e' _ he =>
      h (.suffixes he) fun _ => Nat.succ_pos _

/-- What trails an operand has to begin on its line. -/
theorem suffixes_relocates {object object' : Tree} (ho : ρ.SameTree object object')
    (hlow : 0 < low) :
    ρ.Relocates d .within low low x ρ.SameTree (Grammar.suffixes object)
      (Grammar.suffixes object') := by
  -- Each form goes on with the rule for suffixes.
  have hmore : ∀ {low' : Nat} {y : Symbol} {e e' : Extent Nat → Tree}, low < low' →
      (∀ X X', ρ.SameExtent X X' → ρ.SameTree (e X) (e' X')) →
      ρ.Relocates d .within low' low y ρ.SameTree
        (Procedure.make object.note.first e >>= fun e => run (.suffixes e))
        (Procedure.make object'.note.first e' >>= fun e => run (.suffixes e)) := by
    intro low' y e e' hlt he
    refine bind (by decide) (make (by decide) (.inl ho.first) (Nat.zero_lt_of_lt hlt) he)
      fun e e' _ he => ?_
    exact mono (h (.suffixes he) fun _ => Nat.zero_lt_of_lt hlt) (Nat.le_of_lt hlt)
      fun _ _ he => he
  refine next_late (by decide) hlow (choose (fun hx => ?_) fun _ => choose (fun hx => ?_) fun _ =>
    choose (fun hx => ?_) fun _ => choose (fun hx => ?_) fun _ => pure ho (Nat.le_refl _))
  · refine bind (by decide) (take (.of_kind hx (by decide))) fun _ _ _ _ => ?_
    refine bind (by decide) (expect_kind (by decide)) fun name name' _ hname => ?_
    refine hmore (by omega) fun X X' hX => ?_
    rw [hname.text]
    exact .member hX ho _
  · refine bind (by decide) (take (.of_kind hx (by decide))) fun _ _ y _ => ?_
    refine next (by decide) (choose (fun hy => ?_) fun _ => ?_) fun _ => rfl
    · refine bind (by decide) (take (.of_kind hy (by decide))) fun _ _ _ _ => ?_
      exact hmore (by omega) fun X X' hX => .unsized hX ho
    · refine bind (by decide) (h.free .expression rfl) fun e e' _ he => ?_
      refine bind (by decide) (expect_kind (by decide)) fun _ _ _ _ => ?_
      exact hmore (by omega) fun X X' hX => .index hX ho he
  · have hk : x.kind = .leftParen := by
      simp only [Bool.and_eq_true, decide_eq_true_eq] at hx
      exact hx.1
    refine bind (by decide) (take (.of_kind hk (by decide))) fun _ _ _ _ => ?_
    refine bind (by decide) (h.free .arguments rfl) fun es es' _ hes => ?_
    refine bind (by decide) rightParen fun _ _ _ _ => ?_
    exact hmore (by omega) fun X X' hX => .call hX ho hes
  · have hplays : x.plays .trailing = true := by
      simp only [Bool.and_eq_true] at hx
      exact hx.1
    refine bind (by decide) (take (.of_plays hplays)) fun op op' _ hop => ?_
    refine hmore (by omega) fun X X' hX => ?_
    rw [hop.text]
    exact .unary hX _ _ ho

/-- A comma may be missing between arguments on one line. -/
theorem arguments_relocates :
    ρ.Relocates d .within low low x ρ.SameTrees Grammar.arguments Grammar.arguments := by
  refine next (by decide) (choose (fun _ => pure rfl (Nat.le_refl _)) fun _ => ?_) fun _ => rfl
  refine bind (by decide) (h.free .assignment rfl) fun e e' _ he => ?_
  have hmore : ∀ y, ρ.Relocates d .within (low + 1) low y ρ.SameTrees
      (run .arguments >>= fun es => Pure.pure (e :: es))
      (run .arguments >>= fun es => Pure.pure (e' :: es)) :=
    fun y => bind (by decide) (h.free .arguments rfl) fun es es' _ hes =>
      pure (sameTrees_cons he hes) (by simp [Rule.gain])
  refine bind (by decide) (accept fun y hy => .of_accepts hy (by decide)) ?_
  rintro _ b y rfl
  refine choose (fun _ => hmore y) fun _ => ?_
  refine next_late (by decide) (Nat.succ_pos _) (choose (fun _ => ?_) fun _ => ?_)
  · exact bind (by decide) comma fun _ _ z _ => hmore z
  · exact pure (sameTrees_cons he rfl) (Nat.le_succ _)

/-! ### Operands -/

theorem primary_relocates :
    ρ.Relocates d .within low (low + 1) x ρ.SameTree Grammar.primary Grammar.primary := by
  refine next (by decide) ?_ fun _ => rfl
  split
  · next hk =>
    refine bind (by decide) (take (.of_kind hk (by decide))) fun opening opening' _ ho => ?_
    refine bind (by decide) (h.free .expression rfl) fun inner inner' _ hinner => ?_
    refine bind (by decide) rightParen fun _ _ _ _ => ?_
    refine bind (by decide) (extentFrom (.inl ho.mark) (Nat.succ_pos _)) fun X X' _ hX => ?_
    exact widen (done (.setNote hX hinner) (by simp [Rule.gain]))
  · next hk =>
    refine bind (by decide) (take (.of_kind hk (by decide))) fun word word' _ hword => ?_
    refine make (by decide) (.inl hword.mark) (Nat.succ_pos _) fun X X' hX => ?_
    rw [hword.text]
    exact .literal hX _ _
  · next hk =>
    refine bind (by decide) (take (.of_kind hk (by decide))) fun word word' _ hword => ?_
    refine make (by decide) (.inl hword.mark) (Nat.succ_pos _) fun X X' hX => ?_
    rw [hword.text]
    exact .identifier hX _
  · exact reject_here

/-! ### Initializers -/

theorem initializer_relocates :
    ρ.Relocates d .within low low x ρ.SameTree Grammar.initializer Grammar.initializer := by
  refine next (by decide) (choose (fun hx => ?_) fun _ => ?_) fun _ => rfl
  · refine bind (by decide) (take (.of_kind hx (by decide))) fun opening opening' _ ho => ?_
    refine bind (by decide) (h.free .elements rfl) fun es es' _ hes => ?_
    refine bind (by decide) (expect_kind (by decide)) fun _ _ _ _ => ?_
    exact mono (make (by decide) (.inl ho.mark) (Nat.succ_pos _)
      fun X X' hX => .initializers hX hes)
      (by omega) fun _ _ he => he
  · exact mono (h.free .assignment rfl) (Nat.le_succ _) fun _ _ he => he

theorem elements_relocates :
    ρ.Relocates d .within low low x ρ.SameTrees Grammar.elements Grammar.elements := by
  refine next (by decide) (choose (fun _ => pure rfl (Nat.le_refl _)) fun _ => ?_) fun _ => rfl
  refine bind (by decide) (h.free .initializer rfl) fun e e' y he => ?_
  refine next (by decide) (choose (fun _ => ?_) fun _ => ?_) fun _ => rfl
  · refine bind (by decide) comma fun _ _ z _ => ?_
    exact bind (by decide) (h.free .elements rfl) fun es es' _ hes =>
      pure (sameTrees_cons he hes) (Nat.le_refl _)
  · exact pure (sameTrees_cons he rfl) (Nat.le_refl _)

end Bodies

end Relocation

end Grammar

end ShaderRepair
