import ShaderRepair.Grammar.Run
import ShaderRepair.Proofs.Procedure

/-!
# What procedures note and build

Whatever symbols a procedure meets, and whether it accepts or rejects, the repairs that it may note,
the expressions that it may build and the rules that it may call can be read off its text. This file
contains:
- `Procedure.Confined`, which bounds all three on all ways through a procedure, with one rule for
  each small procedure;
- `Missing.Known`, `Missing.isConversion`, `Rule.Builds` and `Rule.Calls`, the bounds that matter:
  conversions have a registered type, only variables note them, and each form of expression is built
  by one rule;
- `Allows`, under which the rules for parts of declarations and statements are confined;
- `Rule.part_confined` for these rules, and `Rule.confined` for the bodies of all rules.
-/

namespace ShaderRepair

namespace Grammar

variable {α β : Type}

/-- A conversion is noted for registered types only. -/
def Missing.Known : Missing → Prop
  | .conversion T _ => (ValueType.lookup T).isSome = true
  | _ => True

def Missing.isConversion : Missing → Bool
  | .conversion _ _ => true
  | _ => false

/-- Whether the rule reads a part of a declaration or a statement: no conversion is noted for it,
and it calls for such parts only. -/
def Rule.isPart : Rule → Bool
  | .item | .items _ | .statement | .cases | .vars _ _ => false
  | _ => true

/-- Whether the rule goes on with an operand. -/
def Rule.isSuffixes : Rule → Bool
  | .suffixes _ => true
  | _ => false

/-- The expressions a rule may build. -/
def Rule.Builds : Rule → Tree → Prop
  | .expression, .sequence .. => True
  | .assignment, .binary .. => True
  | .conditional, .conditional .. => True
  | .binaryRest _ _, .binary .. => True
  | .unary, .unary _ _ .before _ => True
  | .suffixes _, .member .. => True
  | .suffixes _, .unsized .. => True
  | .suffixes _, .index .. => True
  | .suffixes _, .call .. => True
  | .suffixes _, .unary _ _ .after _ => True
  | .primary, .literal .. => True
  | .primary, .identifier .. => True
  | .initializer, .initializers .. => True
  | _, _ => False

/-- The rules a rule may call. -/
def Rule.Calls : Rule → Rule → Prop
  | .suffixes _, _ | .unary, _ => True
  | _, r => r.isSuffixes = false

/-! ## Ways through a procedure -/

/-- On all ways through the procedure, what it notes is of the one kind and what it builds of the
other. -/
def Procedure.Confined (A : Missing → Prop) (B : Tree → Prop) (C : Rule → Prop) : Procedure α → Prop
  | .done _ => True
  | .look k => ∀ x y, (k x y).Confined A B C
  | .ahead k => ∀ b, (k b).Confined A B C
  | .here k => ∀ n, (k n).Confined A B C
  | .shift k => k.Confined A B C
  | .skipSemicolons k => k.Confined A B C
  | .repair m k => A m ∧ k.Confined A B C
  | .build e k => B e ∧ k.Confined A B C
  | .widen _ k => k.Confined A B C
  | .reject _ _ => True
  | .call r k => C r ∧ ∀ a, (k a).Confined A B C

/-- What the rules for parts ask for, apart from suffixes and the rule that calls those. -/
structure Allows (A : Missing → Prop) (C : Rule → Prop) : Prop where
  mark : ∀ {m : Missing}, m.isConversion = false → A m
  call : ∀ {r : Rule}, r.isPart = true → r.isSuffixes = false → C r

/-- All ways through a procedure note known conversions only, build nothing, and do not go on with
an operand. -/
abbrev Procedure.Plain (p : Procedure α) : Prop :=
  p.Confined Missing.Known (fun _ => False) (fun r => r.isSuffixes = false)

/-- All ways through a procedure note marks only, and call for parts only. -/
abbrev Procedure.Quiet (p : Procedure α) : Prop :=
  p.Confined (fun m => m.isConversion = false) (fun _ => True) (fun r => r.isPart = true)

namespace Procedure.Confined

variable {A : Missing → Prop} {B : Tree → Prop} {C : Rule → Prop} {p : Procedure α}
  {f : α → Procedure β}

theorem bind (hp : p.Confined A B C) (hf : ∀ a, (f a).Confined A B C) :
    (p >>= f).Confined A B C := by
  change (p.bind f).Confined A B C
  induction p with
  | done a => exact hf a
  | look k ih => exact fun x y => ih x y (hp x y)
  | ahead k ih => exact fun b => ih b (hp b)
  | here k ih => exact fun n => ih n (hp n)
  | shift k ih => exact ih hp
  | skipSemicolons k ih => exact ih hp
  | repair m k ih => exact ⟨hp.1, ih hp.2⟩
  | build e k ih => exact ⟨hp.1, ih hp.2⟩
  | widen e k ih => exact ih hp
  | reject index expected => trivial
  | call r k ih => exact ⟨hp.1, fun a => ih a (hp.2 a)⟩

theorem mono {B' : Tree → Prop} {C' : Rule → Prop} (hB : ∀ e, B e → B' e)
    (hC : ∀ r, C r → C' r) (hp : p.Confined A B C) : p.Confined A B' C' := by
  induction p with
  | done a => trivial
  | look k ih => exact fun x y => ih x y (hp x y)
  | ahead k ih => exact fun b => ih b (hp b)
  | here k ih => exact fun n => ih n (hp n)
  | shift k ih => exact ih hp
  | skipSemicolons k ih => exact ih hp
  | repair m k ih => exact ⟨hp.1, ih hp.2⟩
  | build e k ih => exact ⟨hB e hp.1, ih hp.2⟩
  | widen e k ih => exact ih hp
  | reject index expected => trivial
  | call r k ih => exact ⟨hC r hp.1, fun a => ih a (hp.2 a)⟩

theorem ite {c : Prop} [Decidable c] {q : Procedure α} (hp : p.Confined A B C)
    (hq : q.Confined A B C) : (if c then p else q).Confined A B C := by
  split
  · exact hp
  · exact hq

theorem pure {a : α} : (Pure.pure a : Procedure α).Confined A B C :=
  trivial

theorem map {g : α → β} (hp : p.Confined A B C) : (g <$> p).Confined A B C := by
  rw [map_eq_pure_bind]
  exact hp.bind fun _ => pure

theorem run {r : Rule} (h : C r) : (Procedure.run r).Confined A B C :=
  ⟨h, fun _ => trivial⟩

theorem call {r : Rule} (h : r.isSuffixes = false) : (Procedure.run r).Plain :=
  ⟨h, fun _ => trivial⟩

theorem next : Procedure.next.Confined A B C :=
  fun _ _ => trivial

theorem second : Procedure.second.Confined A B C :=
  fun _ _ => trivial

theorem ahead : (Procedure.ahead .done).Confined A B C :=
  fun _ => trivial

theorem position : Procedure.position.Confined A B C :=
  fun _ => trivial

theorem extentFrom {first : Nat} : (Procedure.extentFrom first).Confined A B C :=
  fun _ => trivial

theorem take : Procedure.take.Confined A B C :=
  fun _ _ _ => trivial

theorem accept {e : Expectation} : (Procedure.accept e).Confined A B C :=
  fun _ _ => ite trivial trivial

theorem expect {expected : List Expectation} : (Procedure.expect expected).Confined A B C :=
  fun _ _ => ite take fun _ => trivial

theorem make {first : Nat} {e : Extent Nat → Tree} (h : ∀ X, B (e X)) :
    (Procedure.make first e).Confined A B C :=
  fun _ => ⟨h _, trivial⟩

theorem orMissing {k : Kind} {m : Missing} (h : A m) : (Procedure.orMissing k m).Confined A B C :=
  accept.bind fun _ => ite pure ⟨h, trivial⟩

theorem statementEnd (h : A .semicolon) : Procedure.statementEnd.Confined A B C :=
  next.bind fun _ => ite trivial ⟨h, trivial⟩

/-- What most declarations and statements end with. -/
theorem ending {first : Nat} {node : Extent Nat → α} (h : A .semicolon) :
    (Procedure.statementEnd >>= fun _ =>
      Procedure.extentFrom first >>= fun X => Pure.pure (node X)).Confined A B C :=
  (statementEnd h).bind fun _ => extentFrom.bind fun _ => pure

end Procedure.Confined

theorem Missing.known_of_mark {m : Missing} (h : m.isConversion = false) : m.Known := by
  cases m with
  | conversion T first => cases h
  | _ => trivial

namespace Allows

/-- Known conversions, where no operand is gone on with. -/
theorem plain : Allows Missing.Known (fun r => r.isSuffixes = false) :=
  ⟨Missing.known_of_mark, fun _ h => h⟩

/-- Known conversions, where all rules may be called. -/
theorem known : Allows Missing.Known fun _ => True :=
  ⟨Missing.known_of_mark, fun _ _ => trivial⟩

/-- Marks only. -/
theorem marks : Allows (fun m => m.isConversion = false) (fun r => r.isPart = true) :=
  ⟨id, fun h _ => h⟩

variable {A : Missing → Prop} {B : Tree → Prop} {C : Rule → Prop}

theorem run (h : Allows A C) {r : Rule} (hpart : r.isPart = true)
    (hsuffixes : r.isSuffixes = false) : (Procedure.run r).Confined A B C :=
  Procedure.Confined.run (h.call hpart hsuffixes)

end Allows

open Procedure.Confined

/-! ## Parts of expressions and declarations -/

section Parts

variable {A : Missing → Prop} {B : Tree → Prop} {C : Rule → Prop} (h : Allows A C)
include h

/-! ### Expressions -/

theorem expression_confined (hB : ∀ e, Rule.expression.Builds e → B e) :
    Grammar.expression.Confined A B C := by
  refine (h.run rfl rfl).bind fun _ => next.bind fun _ => ite ?_ pure
  exact (h.run rfl rfl).bind fun _ => make fun _ => hB _ trivial

theorem sequence_confined : Grammar.sequence.Confined A B C := by
  refine accept.bind fun _ => ite ?_ pure
  exact (h.run rfl rfl).bind fun _ => (h.run rfl rfl).bind fun _ => pure

theorem assignment_confined (hB : ∀ e, Rule.assignment.Builds e → B e) :
    Grammar.assignment.Confined A B C := by
  refine (h.run rfl rfl).bind fun _ => next.bind fun _ => ite ?_ pure
  exact take.bind fun _ => (h.run rfl rfl).bind fun _ => make fun _ => hB _ trivial

theorem conditional_confined (hB : ∀ e, Rule.conditional.Builds e → B e) :
    Grammar.conditional.Confined A B C := by
  refine (h.run rfl rfl).bind fun _ => next.bind fun _ => ite ?_ pure
  refine take.bind fun _ => (h.run rfl rfl).bind fun _ => (orMissing (h.mark rfl)).bind fun _ => ?_
  exact (h.run rfl rfl).bind fun _ => make fun _ => hB _ trivial

theorem operand_confined (level : Level) {k : Tree → Procedure α}
    (hk : ∀ e, (k e).Confined A B C) :
    (match level.tighter with
      | some tighter => Procedure.run (.binary tighter) >>= k
      | none => Procedure.run .unary >>= k).Confined A B C := by
  cases level.tighter with
  | some tighter => exact (h.run rfl rfl).bind hk
  | none => exact (h.run rfl rfl).bind hk

theorem binary_confined (level : Level) : (Grammar.binary level).Confined A B C :=
  operand_confined h level fun _ => h.run rfl rfl

theorem binaryRest_confined (level : Level) (left : Tree)
    (hB : ∀ e, (Rule.binaryRest level left).Builds e → B e) :
    (Grammar.binaryRest level left).Confined A B C := by
  refine next.bind fun _ => ite (take.bind fun _ => operand_confined h level fun _ => ?_) pure
  refine Procedure.Confined.bind ?_ fun _ => h.run rfl rfl
  exact make fun _ => hB _ trivial

/-- Only suffixes and the operands before them call the rule for suffixes. -/
theorem unary_confined (hB : ∀ e, Rule.unary.Builds e → B e) (hC : ∀ object, C (.suffixes object)) :
    Grammar.unary.Confined A B C := by
  refine next.bind fun _ => ite ?_ ((h.run rfl rfl).bind fun _ => run (hC _))
  exact take.bind fun _ => (h.run rfl rfl).bind fun _ => make fun _ => hB _ trivial

theorem suffixes_confined (object : Tree) (hB : ∀ e, (Rule.suffixes object).Builds e → B e)
    (hC : ∀ object, C (.suffixes object)) : (Grammar.suffixes object).Confined A B C := by
  -- What is built goes on as the object.
  have hmore : ∀ {first : Nat} {f : Extent Nat → Tree},
      (∀ X, (Rule.suffixes object).Builds (f X)) →
      (Procedure.make first f >>= fun x => Procedure.run (.suffixes x)).Confined A B C :=
    fun hf => (make fun X => hB _ (hf X)).bind fun _ => run (hC _)
  refine next.bind fun _ => ite ?_ (ite ?_ (ite ?_ (ite ?_ pure)))
  · exact take.bind fun _ => expect.bind fun _ => hmore fun _ => trivial
  · refine take.bind fun _ => next.bind fun _ => ite ?_ ?_
    · exact take.bind fun _ => hmore fun _ => trivial
    · refine (h.run rfl rfl).bind fun _ => expect.bind fun _ => ?_
      exact hmore fun _ => trivial
  · refine take.bind fun _ => (h.run rfl rfl).bind fun _ => ?_
    exact (orMissing (h.mark rfl)).bind fun _ => hmore fun _ => trivial
  · exact take.bind fun _ => hmore fun _ => trivial

theorem arguments_confined : Grammar.arguments.Confined A B C := by
  refine next.bind fun _ => ite pure ?_
  refine (h.run rfl rfl).bind fun _ => accept.bind fun _ => ite ?_ ?_
  · exact (h.run rfl rfl).bind fun _ => pure
  · refine next.bind fun _ => ite ?_ pure
    exact (orMissing (h.mark rfl)).bind fun _ => (h.run rfl rfl).bind fun _ => pure

theorem primary_confined (hB : ∀ e, Rule.primary.Builds e → B e) :
    Grammar.primary.Confined A B C := by
  refine next.bind fun _ => ?_
  split
  · refine take.bind fun _ => (h.run rfl rfl).bind fun _ => ?_
    exact (orMissing (h.mark rfl)).bind fun _ => extentFrom.bind fun _ => trivial
  · exact take.bind fun _ => make fun _ => hB _ trivial
  · exact take.bind fun _ => make fun _ => hB _ trivial
  · exact position.bind fun _ => trivial

theorem initializer_confined (hB : ∀ e, Rule.initializer.Builds e → B e) :
    Grammar.initializer.Confined A B C := by
  refine next.bind fun _ => ite ?_ (h.run rfl rfl)
  refine take.bind fun _ => (h.run rfl rfl).bind fun _ => expect.bind fun _ => ?_
  exact make fun _ => hB _ trivial

theorem elements_confined : Grammar.elements.Confined A B C := by
  refine next.bind fun _ => ite pure ?_
  refine (h.run rfl rfl).bind fun _ => next.bind fun _ => ite ?_ pure
  exact (orMissing (h.mark rfl)).bind fun _ => (h.run rfl rfl).bind fun _ => pure

/-! ### Declarations without initializers -/

theorem layoutParams_confined : Grammar.layoutParams.Confined A B C := by
  have hmore : ∀ (name : Name Nat) (value : Option Tree), Procedure.Confined A B C (do
      if ← Procedure.accept (.kind .comma) then
        return ⟨name, value⟩ :: (← Procedure.run .layoutParams)
      else
        return [⟨name, value⟩]) :=
    fun _ _ => accept.bind fun _ => ite ((h.run rfl rfl).bind fun _ => pure) pure
  refine next.bind fun _ => ite pure (expect.bind fun name => accept.bind fun _ => ite ?_ ?_)
  · exact (h.run rfl rfl).map.bind fun value => hmore name value
  · exact hmore name none

theorem qualifiers_confined (found : Qualifiers Nat Tree) :
    (Grammar.qualifiers found).Confined A B C := by
  refine next.bind fun _ => ?_
  split
  · refine take.bind fun _ => expect.bind fun _ => (h.run rfl rfl).bind fun _ => ?_
    exact (orMissing (h.mark rfl)).bind fun _ => h.run rfl rfl
  · exact take.bind fun _ => ite (h.run rfl rfl) (h.run rfl rfl)
  · exact pure

theorem dims_confined : Grammar.dims.Confined A B C := by
  have hmore : ∀ size : Option Tree, Procedure.Confined A B C (do
      let _ ← Procedure.expect [.kind .rightBracket]
      return size :: (← Procedure.run .dims)) :=
    fun _ => expect.bind fun _ => (h.run rfl rfl).bind fun _ => pure
  refine accept.bind fun _ => ite (next.bind fun _ => ite ?_ ?_) pure
  · exact hmore none
  · exact (h.run rfl rfl).map.bind fun size => hmore size

theorem typeSpec_confined : typeSpec.Confined A B C :=
  expect.bind fun _ => (h.run rfl rfl).bind fun _ => pure

theorem declarators_confined : Grammar.declarators.Confined A B C := by
  refine expect.bind fun _ => (h.run rfl rfl).bind fun _ => accept.bind fun _ => ite ?_ pure
  exact (h.run rfl rfl).bind fun _ => pure

theorem param_confined : param.Confined A B C := by
  refine (h.run rfl rfl).bind fun _ => (typeSpec_confined h).bind fun _ => ?_
  refine next.bind fun _ => ite ?_ pure
  exact take.bind fun _ => (h.run rfl rfl).bind fun _ => pure

theorem params_confined : Grammar.params.Confined A B C := by
  have hmore : Procedure.Confined A B C (do
      let p ← param
      if ← Procedure.accept (.kind .comma) then
        return p :: (← Procedure.run .params)
      else
        return [p]) := by
    refine (param_confined h).bind fun _ => accept.bind fun _ => ite ?_ pure
    exact (h.run rfl rfl).bind fun _ => pure
  refine next.bind fun _ => ?_
  split
  · exact pure
  · exact pure
  · exact pure
  · exact hmore

theorem member_confined : member.Confined A B C := by
  refine position.bind fun _ => (h.run rfl rfl).bind fun _ => (typeSpec_confined h).bind fun _ => ?_
  exact (h.run rfl rfl).bind fun _ => ending (h.mark rfl)

theorem members_confined : Grammar.members.Confined A B C := by
  have hmore : Procedure.Confined A B C (do
      let m ← member
      return m :: (← Procedure.run .members)) :=
    (member_confined h).bind fun _ => (h.run rfl rfl).bind fun _ => pure
  refine next.bind fun _ => ?_
  split
  · exact pure
  · exact pure
  · exact hmore

theorem memberList_confined : memberList.Confined A B C :=
  expect.bind fun _ => (h.run rfl rfl).bind fun _ => expect.bind fun _ => pure

theorem instances_confined : instances.Confined A B C :=
  next.bind fun _ => ite (h.run rfl rfl) pure

theorem names_confined : Grammar.names.Confined A B C :=
  expect.bind fun _ => accept.bind fun _ => ite ((h.run rfl rfl).bind fun _ => pure) pure

/-! ### Clauses of statements -/

theorem condition_confined : condition.Confined A B C := by
  refine (orMissing (h.mark rfl)).bind fun _ => (h.run rfl rfl).bind fun _ => ?_
  exact (orMissing (h.mark rfl)).bind fun _ => pure

theorem forCondition_confined : forCondition.Confined A B C := by
  refine accept.bind fun _ => ite pure ?_
  exact (h.run rfl rfl).bind fun _ => (orMissing (h.mark rfl)).bind fun _ => pure

theorem forUpdate_confined : forUpdate.Confined A B C := by
  have hmore : Procedure.Confined A B C (do
      let e ← Procedure.run .expression
      Procedure.rightParen
      return some e) :=
    (h.run rfl rfl).bind fun _ => (orMissing (h.mark rfl)).bind fun _ => pure
  refine next.bind fun _ => ?_
  split
  · exact (orMissing (h.mark rfl)).bind fun _ => pure
  · exact (orMissing (h.mark rfl)).bind fun _ => pure
  · exact hmore

end Parts

/-- The rules for parts note marks only. -/
theorem Rule.part_confined (r : Rule) (hr : r.isPart = true) : r.body.Quiet := by
  cases r with
  | item | items stop | statement | cases | vars type name => cases hr
  | qualifiers found => exact qualifiers_confined .marks found
  | layoutParams => exact layoutParams_confined .marks
  | dims => exact dims_confined .marks
  | declarators => exact declarators_confined .marks
  | members => exact members_confined .marks
  | params => exact params_confined .marks
  | names => exact names_confined .marks
  | expression => exact expression_confined .marks fun _ _ => trivial
  | sequence => exact sequence_confined .marks
  | assignment => exact assignment_confined .marks fun _ _ => trivial
  | conditional => exact conditional_confined .marks fun _ _ => trivial
  | binary level => exact binary_confined .marks level
  | binaryRest level left => exact binaryRest_confined .marks level left fun _ _ => trivial
  | unary => exact unary_confined .marks (fun _ _ => trivial) fun _ => rfl
  | suffixes object => exact suffixes_confined .marks object (fun _ _ => trivial) fun _ => rfl
  | arguments => exact arguments_confined .marks
  | primary => exact primary_confined .marks fun _ _ => trivial
  | initializer => exact initializer_confined .marks fun _ _ => trivial
  | elements => exact elements_confined .marks

/-! ## Declarations and statements -/

/-- The type of a conversion is registered, else there is nothing to convert to. -/
theorem initialValue_plain (type : TypeSpec Nat Tree) (dims : List (Option Tree)) :
    (initialValue type dims).Plain := by
  refine accept.bind fun _ => ite (position.bind fun first => (call rfl).bind fun e => ?_) pure
  split
  · next h =>
    refine ⟨?_, trivial⟩
    have hneeds := (Bool.and_eq_true_iff.1 h).2
    cases hT : ValueType.lookup type.name.text with
    | none => simp [Expr.needsConversion, hT] at hneeds
    | some declared => simp [Missing.Known, hT]
  · exact pure

theorem vars_plain (type : TypeSpec Nat Tree) (name : Name Nat) :
    (Grammar.vars type name).Plain := by
  refine (call rfl).bind fun _ => (initialValue_plain _ _).bind fun _ => ?_
  refine accept.bind fun _ => ite ?_ pure
  exact expect.bind fun _ => (call rfl).bind fun _ => pure

theorem block_plain : block.Plain :=
  expect.bind fun _ => (call rfl).bind fun _ => expect.bind fun _ => extentFrom.bind fun _ => pure

theorem function_plain (first : Nat) (quals : Qualifiers Nat Tree) (result : TypeSpec Nat Tree)
    (name : Name Nat) : (function first quals result name).Plain := by
  refine take.bind fun _ => (call rfl).bind fun _ => (orMissing trivial).bind fun _ =>
    next.bind fun _ => ite ?_ ?_
  · exact block_plain.bind fun _ => extentFrom.bind fun _ => pure
  · exact ending trivial

theorem typed_plain (first : Nat) (quals : Qualifiers Nat Tree) : (typed first quals).Plain := by
  refine (typeSpec_confined .plain).bind fun _ => expect.bind fun _ => next.bind fun _ => ite ?_ ?_
  · exact function_plain _ _ _ _
  · exact (call rfl).bind fun _ => ending trivial

theorem struct_plain (first : Nat) (quals : Qualifiers Nat Tree) :
    (Grammar.struct first quals).Plain := by
  have hmore : ∀ name : Option (Name Nat), Procedure.Plain (do
      let ms ← memberList
      let ds ← instances
      Procedure.statementEnd
      return Node.struct (← Procedure.extentFrom first) quals name ms ds : Procedure Item) :=
    fun _ => (memberList_confined .plain).bind fun _ => (instances_confined .plain).bind fun _ =>
      ending trivial
  refine take.bind fun _ => next.bind fun _ => ite ?_ ?_
  · exact take.map.bind fun name => hmore name
  · exact hmore none

theorem interface_plain (first : Nat) (quals : Qualifiers Nat Tree) :
    (interface first quals).Plain := by
  refine take.bind fun _ => (memberList_confined .plain).bind fun _ => ?_
  exact (instances_confined .plain).bind fun _ => ending trivial

theorem precision_plain : Grammar.precision.Plain := by
  refine take.bind fun _ => next.bind fun _ => expect.bind fun _ => ite ?_ trivial
  exact (typeSpec_confined .plain).bind fun _ => ending trivial

theorem qualified_plain : qualified.Plain := by
  refine position.bind fun _ => (call rfl).bind fun _ => next.bind fun _ => ?_
  split
  · exact struct_plain _ _
  · exact ending trivial
  · refine second.bind fun _ => ?_
    split
    · exact interface_plain _ _
    · exact (call rfl).bind fun _ => ending trivial
    · exact (call rfl).bind fun _ => ending trivial
    · exact typed_plain _ _
  · exact position.bind fun _ => trivial

theorem ifStatement_plain : ifStatement.Plain := by
  refine take.bind fun _ => (condition_confined .plain).bind fun _ => (call rfl).bind fun _ =>
    accept.bind fun _ => ite ?_ ?_
  · exact (call rfl).bind fun _ => extentFrom.bind fun _ => pure
  · exact extentFrom.bind fun _ => pure

theorem cases_plain : Grammar.cases.Plain := by
  have hmore : ∀ (word : Name Nat) (label : Option Tree), Procedure.Plain (do
      Procedure.colon
      let body ← Procedure.run (.items .label)
      let c := Case.mk (← Procedure.extentFrom word.mark) label body
      return c :: (← Procedure.run .cases)) :=
    fun _ _ => (orMissing trivial).bind fun _ => (call rfl).bind fun _ => extentFrom.bind fun _ =>
      (call rfl).bind fun _ => pure
  refine next.bind fun _ => ?_
  split
  · exact pure
  · exact pure
  · refine expect.bind fun word => ite ?_ ?_
    · exact (call rfl).map.bind fun label => hmore word label
    · exact hmore word none

theorem switchStatement_plain : switchStatement.Plain := by
  refine take.bind fun _ => (condition_confined .plain).bind fun _ => expect.bind fun _ => ?_
  exact (call rfl).bind fun _ => expect.bind fun _ => extentFrom.bind fun _ => pure

theorem whileStatement_plain : whileStatement.Plain :=
  take.bind fun _ => (condition_confined .plain).bind fun _ => (call rfl).bind fun _ =>
    extentFrom.bind fun _ => pure

theorem doStatement_plain : doStatement.Plain := by
  refine take.bind fun _ => (call rfl).bind fun _ => expect.bind fun _ => ?_
  exact (condition_confined .plain).bind fun _ => ending trivial

theorem forInit_plain : forInit.Plain := by
  refine position.bind fun _ => next.bind fun _ => ahead.bind fun _ => ite ?_ (ite ?_ ?_)
  · exact take.bind fun _ => pure
  · refine (call rfl).bind fun _ => (typeSpec_confined .plain).bind fun _ => ?_
    refine expect.bind fun _ => (call rfl).bind fun _ => ?_
    exact extentFrom.bind fun _ => (orMissing trivial).bind fun _ => pure
  · exact (call rfl).bind fun _ => extentFrom.bind fun _ => (orMissing trivial).bind fun _ => pure

theorem forStatement_plain : forStatement.Plain := by
  refine take.bind fun _ => (orMissing trivial).bind fun _ => forInit_plain.bind fun _ => ?_
  refine (forCondition_confined .plain).bind fun _ => (forUpdate_confined .plain).bind fun _ => ?_
  exact (call rfl).bind fun _ => extentFrom.bind fun _ => pure

theorem returnStatement_plain : returnStatement.Plain := by
  have hmore : ∀ (first : Nat) (value : Option Tree), Procedure.Plain (do
      Procedure.statementEnd
      return Node.return (← Procedure.extentFrom first) value : Procedure Item) :=
    fun _ _ => ending trivial
  refine take.bind fun first => next.bind fun _ => ?_
  split
  · exact hmore first.mark none
  · exact hmore first.mark none
  · exact hmore first.mark none
  split
  · exact hmore first.mark none
  · exact (call rfl).map.bind fun value => hmore first.mark value

theorem wordStatement_plain (node : Extent Nat → Item) :
    (wordStatement node).Plain :=
  take.bind fun _ => ending trivial

theorem statement_plain : Grammar.statement.Plain := by
  have hmore : ∀ first : Nat, Procedure.Plain (do
      let e ← Procedure.run .expression
      Procedure.statementEnd
      return Node.expression (← Procedure.extentFrom first) e : Procedure Item) :=
    fun _ => (call rfl).bind fun _ => ending trivial
  refine position.bind fun first => next.bind fun _ => ?_
  split
  · exact block_plain.bind fun _ => pure
  · exact ifStatement_plain
  · exact switchStatement_plain
  · exact forStatement_plain
  · exact whileStatement_plain
  · exact doStatement_plain
  · exact returnStatement_plain
  · exact wordStatement_plain _
  · exact wordStatement_plain _
  · exact wordStatement_plain _
  · exact take.bind fun _ => extentFrom.bind fun _ => pure
  · exact hmore first

theorem item_plain : Grammar.item.Plain := by
  refine position.bind fun _ => next.bind fun _ => ?_
  split
  · exact precision_plain
  · exact qualified_plain
  · exact qualified_plain
  · exact struct_plain _ _
  · exact ahead.bind fun _ => ite (typed_plain _ _) (call rfl)
  · exact (call rfl)

theorem items_plain (stop : Stop) : (Grammar.items stop).Plain :=
  next.bind fun _ => ite pure ((call rfl).bind fun _ => (call rfl).bind fun _ => pure)

/-- All rules note known conversions only, and each builds its own forms of expressions. -/
theorem Rule.confined (r : Rule) : r.body.Confined Missing.Known r.Builds r.Calls := by
  cases r with
  | item => exact item_plain
  | items stop => exact items_plain stop
  | statement => exact statement_plain
  | cases => exact cases_plain
  | qualifiers found => exact qualifiers_confined .plain found
  | layoutParams => exact layoutParams_confined .plain
  | dims => exact dims_confined .plain
  | declarators => exact declarators_confined .plain
  | vars type name => exact vars_plain type name
  | members => exact members_confined .plain
  | params => exact params_confined .plain
  | names => exact names_confined .plain
  | expression => exact expression_confined .plain fun _ he => he
  | sequence => exact sequence_confined .plain
  | assignment => exact assignment_confined .plain fun _ he => he
  | conditional => exact conditional_confined .plain fun _ he => he
  | binary level => exact binary_confined .plain level
  | binaryRest level left => exact binaryRest_confined .plain level left fun _ he => he
  | unary => exact unary_confined .known (fun _ he => he) fun _ => trivial
  | suffixes object => exact suffixes_confined .known object (fun _ he => he) fun _ => trivial
  | arguments => exact arguments_confined .plain
  | primary => exact primary_confined .plain fun _ he => he
  | initializer => exact initializer_confined .plain fun _ he => he
  | elements => exact elements_confined .plain

end Grammar

end ShaderRepair
