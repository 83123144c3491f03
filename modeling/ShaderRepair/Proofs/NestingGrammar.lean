import ShaderRepair.Proofs.Nesting

/-!
# Nested brackets of the rules

Every rule closes what it opens. This file contains one lemma for each rule and procedure of the
grammar, and `Rule.balances`, for the runs of all of them.
-/

namespace ShaderRepair

namespace Grammar

open Procedure

/-! ## Symbols that are no brackets -/

section Others

variable {x : Symbol}

theorem other_of_accepts {e : Expectation} (h : e.accepts x = true)
    (hk : e.wants.isBracket = false) : x.kind.isBracket = false := by
  rw [Expectation.kind_of_accepts h]
  exact hk

theorem other_of_any {expected : List Expectation}
    (h : (expected.any fun e => e.accepts x) = true)
    (hk : ∀ e ∈ expected, e.wants.isBracket = false) : x.kind.isBracket = false :=
  Expectation.kind_of_any (p := fun k => k.isBracket = false) h hk

end Others

namespace Balances

variable {d : Nat} {x : Symbol} (h : ∀ r y, Balances d y [] 0 (run r))
include h

/-! ## Expressions -/

theorem expression_balances : Balances d x [] 0 Grammar.expression := by
  refine (h .assignment x).bind fun first y => next ?_
  split
  · exact (h .sequence y).bind fun more z => made
  · exact pure

theorem sequence_balances : Balances d x [] 0 Grammar.sequence := by
  refine accept (fun hx => of_accepts_kind hx ▸ rfl) (fun y => ?_) pure
  exact (h .assignment y).bind fun e z => (h .sequence z).bind fun es v => pure

theorem assignment_balances : Balances d x [] 0 Grammar.assignment := by
  refine (h .conditional x).bind fun left y => next ?_
  split
  · next hop =>
    exact take_plays hop fun i z => (h .assignment z).bind fun right v => made
  · exact pure

theorem conditional_balances : Balances d x [] 0 Grammar.conditional := by
  refine (h (.binary .logicalOr) x).bind fun condition y => next ?_
  split
  · next hop =>
    refine take_plays hop fun i z => (h .expression z).bind fun yes v => ?_
    exact orMissing rfl rfl fun u => (h .assignment u).bind fun no w => made
  · exact pure

/-- The operand of an operator of a level. -/
theorem operand_balances (level : Level) {α : Type} {k : Tree → Procedure α}
    (hk : ∀ e y, Balances d y [] 0 (k e)) :
    Balances d x [] 0 (match level.tighter with
      | some tighter => run (.binary tighter) >>= k
      | none => run .unary >>= k) := by
  cases level.tighter with
  | some tighter => exact (h (.binary tighter) x).bind hk
  | none => exact (h .unary x).bind hk

theorem binary_balances (level : Level) : Balances d x [] 0 (Grammar.binary level) :=
  operand_balances h level fun left y => h (.binaryRest level left) y

theorem binaryRest_balances (level : Level) (left : Tree) :
    Balances d x [] 0 (Grammar.binaryRest level left) := by
  refine next ?_
  split
  · next hop =>
    refine take_plays hop fun i y => operand_balances h level fun right z => ?_
    exact make fun e => h (.binaryRest level e) z
  · exact pure

theorem unary_balances : Balances d x [] 0 Grammar.unary := by
  refine next ?_
  split
  · next hop => exact take_plays hop fun i y => (h .unary y).bind fun operand z => made
  · exact (h .primary x).bind fun object y => h (.suffixes object) y

theorem suffixes_balances (object : Tree) : Balances d x [] 0 (Grammar.suffixes object) := by
  refine next ?_
  split
  · next hdot =>
    refine take hdot rfl fun i y => expect_word rfl fun name z => ?_
    exact make fun e => h (.suffixes e) z
  split
  · next hbracket =>
    refine take_opening hbracket rfl fun i y => next ?_
    split
    · next hclose =>
      exact take_closing hclose rfl fun i z => make fun e => h (.suffixes e) z
    · refine (h .expression y).bind fun position z => expect_closing rfl fun w v => ?_
      exact make fun e => h (.suffixes e) v
  split
  · next hparen =>
    have hkind : x.kind = .leftParen := by
      simp only [Bool.and_eq_true, decide_eq_true_eq] at hparen
      exact hparen.1
    refine take_opening hkind rfl fun i y => (h .arguments y).bind fun es z => ?_
    exact rightParen fun v => make fun e => h (.suffixes e) v
  split
  · next hop =>
    have hplays : x.plays .trailing = true := by
      simp only [Bool.and_eq_true] at hop
      exact hop.1
    exact take_plays hplays fun i y => make fun e => h (.suffixes e) y
  · exact pure

theorem arguments_balances : Balances d x [] 0 Grammar.arguments := by
  refine next ?_
  split
  · exact pure
  · refine (h .assignment x).bind fun e y => ?_
    refine accept (fun hx => of_accepts_kind hx ▸ rfl) (fun z => ?_) (next ?_)
    · exact (h .arguments z).bind fun es v => pure
    · split
      · exact orMissing rfl rfl fun z => (h .arguments z).bind fun es v => pure
      · exact pure

theorem primary_balances : Balances d x [] 0 Grammar.primary := by
  refine next ?_
  split
  · next hkind =>
    refine take_opening hkind rfl fun i y => (h .expression y).bind fun inner z => ?_
    exact rightParen fun v => extentFrom fun X => widen done
  · next hkind => exact take hkind rfl fun i y => made
  · next hkind => exact take hkind rfl fun i y => made
  · exact position fun i => reject

theorem initializer_balances : Balances d x [] 0 Grammar.initializer := by
  refine next ?_
  split
  · next hkind =>
    refine take_opening hkind rfl fun i y => (h .elements y).bind fun items z => ?_
    exact expect_closing rfl fun w v => made
  · exact h .assignment x

theorem elements_balances : Balances d x [] 0 Grammar.elements := by
  refine next ?_
  split
  · exact pure
  · refine (h .initializer x).bind fun e y => next ?_
    split
    · exact orMissing rfl rfl fun z => (h .elements z).bind fun es v => pure
    · exact pure

/-! ## Declarations -/

theorem layoutParams_balances : Balances d x [] 0 Grammar.layoutParams := by
  have hmore : ∀ (name : Name Nat) (value : Option Tree) (y : Symbol), Balances d y [] 0 (do
      if ← Procedure.accept (.kind .comma) then
        return ⟨name, value⟩ :: (← run .layoutParams)
      else
        return [⟨name, value⟩]) := by
    intro name value y
    refine accept (fun hx => of_accepts_kind hx ▸ rfl) (fun z => ?_) pure
    exact (h .layoutParams z).bind fun ps v => pure
  refine next ?_
  split
  · exact pure
  · refine expect_other (fun hx => other_of_any hx (by decide)) fun name y => ?_
    refine accept (fun hy => other_of_accepts hy rfl) (fun z => ?_) ?_
    · exact (h .assignment z).map.bind fun value v => hmore name value v
    · exact hmore name none y

theorem qualifiers_balances (found : Qualifiers Nat Tree) :
    Balances d x [] 0 (Grammar.qualifiers found) := by
  refine next ?_
  split
  · next hkind =>
    refine take hkind rfl fun i y => expect_opening rfl fun w z => ?_
    refine (h .layoutParams z).bind fun ps v => rightParen fun u => ?_
    exact h (.qualifiers _) u
  · next hkind =>
    refine take hkind rfl fun i y => ?_
    split
    · exact h (.qualifiers _) y
    · exact h (.qualifiers _) y
  · exact pure

theorem dims_balances : Balances d x [] 0 Grammar.dims := by
  have hmore : ∀ (size : Option Tree) (y : Symbol), Balances d y [.rightBracket] 0 (do
      let _ ← Procedure.expect [.kind .rightBracket]
      return size :: (← run .dims)) :=
    fun size y => expect_closing rfl fun w z => (h .dims z).bind fun ds v => pure
  refine accept_opening rfl (fun y => next ?_) pure
  split
  · exact hmore none y
  · exact (h .expression y).map.bind fun size z => hmore size z

theorem typeSpec_balances : Balances d x [] 0 typeSpec := by
  refine expect_word rfl fun name y => ?_
  exact (h .dims y).bind fun ds z => pure

theorem declarators_balances : Balances d x [] 0 Grammar.declarators := by
  refine expect_word rfl fun name y => (h .dims y).bind fun ds z => ?_
  refine accept (fun hx => of_accepts_kind hx ▸ rfl) (fun v => ?_) pure
  exact (h .declarators v).bind fun more u => pure

theorem initialValue_balances (type : TypeSpec Nat Tree) (ds : List (Option Tree)) :
    Balances d x [] 0 (initialValue type ds) := by
  refine accept (fun hx => other_of_accepts hx rfl) (fun y => position fun first => ?_) pure
  refine (h .initializer y).bind fun e z => ?_
  split
  · have hdone : Balances d z [] 0 (Procedure.done (some e)) := pure
    exact repair (Nat.le_refl _) hdone
  · exact pure

theorem vars_balances (type : TypeSpec Nat Tree) (name : Name Nat) :
    Balances d x [] 0 (Grammar.vars type name) := by
  refine (h .dims x).bind fun ds y => (initialValue_balances h type ds).bind fun init z => ?_
  refine accept (fun hx => of_accepts_kind hx ▸ rfl) (fun v => ?_) pure
  exact expect_word rfl fun another u => (h (.vars type another) u).bind fun more w => pure

theorem param_balances : Balances d x [] 0 param := by
  refine (h (.qualifiers _) x).bind fun quals y => (typeSpec_balances h).bind fun type z => next ?_
  split
  · next hkind => exact take hkind rfl fun i v => (h .dims v).bind fun ds u => pure
  · exact pure

theorem params_balances : Balances d x [] 0 Grammar.params := by
  have hmore : ∀ y, Balances d y [] 0 (do
      let p ← param
      if ← Procedure.accept (.kind .comma) then
        return p :: (← run .params)
      else
        return [p]) := by
    refine fun y => (param_balances h).bind fun p z => ?_
    refine accept (fun hx => of_accepts_kind hx ▸ rfl) (fun v => ?_) pure
    exact (h .params v).bind fun ps u => pure
  refine next ?_
  split
  · exact pure
  · exact pure
  · exact pure
  · exact hmore x

theorem block_balances : Balances d x [] 0 block := by
  refine expect_opening rfl fun opening y => (h (.items .brace) y).bind fun body z => ?_
  exact expect_closing rfl fun w v => extentFrom fun X => pure

theorem function_balances (first : Nat) (quals : Qualifiers Nat Tree) (result : TypeSpec Nat Tree)
    (name : Name Nat) (hx : x.kind = .leftParen) :
    Balances d x [] 0 (function first quals result name) := by
  refine take_opening hx rfl fun i y => (h .params y).bind fun ps z => rightParen fun v => next ?_
  split
  · exact (block_balances h).bind fun body u => extentFrom fun X => pure
  · exact statementEnd fun u => extentFrom fun X => pure

theorem typed_balances (first : Nat) (quals : Qualifiers Nat Tree) :
    Balances d x [] 0 (typed first quals) := by
  refine (typeSpec_balances h).bind fun type y => expect_word rfl fun name z => next ?_
  split
  · next hz => exact function_balances h first quals type name hz
  · refine (h (.vars type name) z).bind fun ds v => statementEnd fun u => ?_
    exact extentFrom fun X => pure

theorem member_balances : Balances d x [] 0 member := by
  refine position fun first => (h (.qualifiers _) x).bind fun quals y => ?_
  refine (typeSpec_balances h).bind fun type z => (h .declarators z).bind fun ds v => ?_
  exact statementEnd fun u => extentFrom fun X => pure

theorem members_balances : Balances d x [] 0 Grammar.members := by
  have hmore : ∀ y, Balances d y [] 0 (do
      let m ← member
      return m :: (← run .members)) :=
    fun y => (member_balances h).bind fun m z => (h .members z).bind fun ms v => pure
  refine next ?_
  split
  · exact pure
  · exact pure
  · exact hmore x

theorem memberList_balances : Balances d x [] 0 memberList := by
  refine expect_opening rfl fun opening y => (h .members y).bind fun ms z => ?_
  exact expect_closing rfl fun w v => pure

theorem instances_balances : Balances d x [] 0 instances := by
  refine next ?_
  split
  · exact h .declarators x
  · exact pure

theorem struct_balances (first : Nat) (quals : Qualifiers Nat Tree) (hx : x.kind = .struct) :
    Balances d x [] 0 (Grammar.struct first quals) := by
  have hmore : ∀ (name : Option (Name Nat)) (y : Symbol), Balances d y [] 0 (do
      let ms ← memberList
      let ds ← instances
      Procedure.statementEnd
      return Node.struct (← Procedure.extentFrom first) quals name ms ds : Procedure Item) := by
    refine fun name y => (memberList_balances h).bind fun ms z => ?_
    exact (instances_balances h).bind fun ds v => statementEnd fun u => extentFrom fun X => pure
  refine take hx rfl fun i y => next ?_
  split
  · next hname => exact (taken hname rfl).map.bind fun name z => hmore name z
  · exact hmore none y

theorem interface_balances (first : Nat) (quals : Qualifiers Nat Tree) (hx : x.kind = .identifier) :
    Balances d x [] 0 (interface first quals) := by
  refine take hx rfl fun i y => (memberList_balances h).bind fun ms z => ?_
  exact (instances_balances h).bind fun ds v => statementEnd fun u => extentFrom fun X => pure

theorem names_balances : Balances d x [] 0 Grammar.names := by
  refine expect_word rfl fun name y => ?_
  refine accept (fun hx => of_accepts_kind hx ▸ rfl) (fun z => ?_) pure
  exact (h .names z).bind fun ns v => pure

theorem precision_balances (hx : x.kind = .precision) : Balances d x [] 0 Grammar.precision := by
  refine take hx rfl fun i y => next (expect_word rfl fun word z => ?_)
  split
  · exact (typeSpec_balances h).bind fun type v => statementEnd fun u => extentFrom fun X => pure
  · exact reject

theorem qualified_balances : Balances d x [] 0 qualified := by
  refine position fun first => (h (.qualifiers _) x).bind fun quals y => next ?_
  split
  · next hkind => exact struct_balances h first quals hkind
  · exact statementEnd fun z => extentFrom fun X => pure
  · next hkind =>
    refine second fun z => ?_
    split
    · exact interface_balances h first quals hkind
    · exact (h .names y).bind fun ns v => statementEnd fun u => extentFrom fun X => pure
    · exact (h .names y).bind fun ns v => statementEnd fun u => extentFrom fun X => pure
    · exact typed_balances h first quals
  · exact position fun i => reject

/-! ## Statements -/

/-- A condition wants two parentheses, which the keyword before it allows for. -/
theorem condition_balances {α : Type} {k : Tree → Procedure α}
    (hk : ∀ e y, Balances d y [] 0 (k e)) : Balances d x [] 2 (condition >>= k) := by
  rw [condition, bind_assoc]
  refine leftParen fun y => ?_
  rw [bind_assoc]
  refine (h .expression y).bind fun e z => ?_
  rw [bind_assoc]
  exact rightParen fun v => hk e v

theorem ifStatement_balances (hx : x.kind = .if) : Balances d x [] 0 ifStatement := by
  refine take_keyword hx rfl fun i y => condition_balances h fun c z => ?_
  refine (h .statement z).bind fun yes v => ?_
  refine accept (fun hx => of_accepts_kind hx ▸ rfl) (fun u => ?_) (extentFrom fun X => pure)
  exact (h .statement u).bind fun no w => extentFrom fun X => pure

theorem cases_balances : Balances d x [] 0 Grammar.cases := by
  have hmore : ∀ (word : Name Nat) (label : Option Tree) (y : Symbol), Balances d y [] 0 (do
      Procedure.colon
      let body ← run (.items .label)
      let c := Case.mk (← Procedure.extentFrom word.mark) label body
      return c :: (← run .cases)) :=
    fun word label y => orMissing rfl rfl fun z => (h (.items .label) z).bind fun body v =>
      extentFrom fun X => (h .cases v).bind fun cs u => pure
  refine next ?_
  split
  · exact pure
  · exact pure
  · refine expect_other (fun hx => other_of_any hx (by decide)) fun word y => ?_
    split
    · exact (h .expression y).map.bind fun label z => hmore word label z
    · exact hmore word none y

theorem switchStatement_balances (hx : x.kind = .switch) : Balances d x [] 0 switchStatement := by
  refine take_keyword hx rfl fun i y => condition_balances h fun c z => ?_
  refine expect_opening rfl fun opening v => (h .cases v).bind fun cs u => ?_
  exact expect_closing rfl fun w s => extentFrom fun X => pure

theorem whileStatement_balances (hx : x.kind = .while) : Balances d x [] 0 whileStatement := by
  refine take_keyword hx rfl fun i y => condition_balances h fun c z => ?_
  exact (h .statement z).bind fun body v => extentFrom fun X => pure

theorem doStatement_balances (hx : x.kind = .do) : Balances d x [] 0 doStatement := by
  refine take hx rfl fun i y => (h .statement y).bind fun body z => ?_
  refine expect fun hz => take_keyword (kind_of_expected hz) rfl fun j v => ?_
  exact condition_balances h fun c u => statementEnd fun w => extentFrom fun X => pure

theorem forInit_balances : Balances d x [] 0 forInit := by
  refine position fun first => next (ahead fun declaration => ?_)
  split
  · next hkind => exact take hkind rfl fun i y => pure
  split
  · refine (h (.qualifiers _) x).bind fun quals y => (typeSpec_balances h).bind fun type z => ?_
    refine expect_word rfl fun name v => (h (.vars type name) v).bind fun ds u => ?_
    exact extentFrom fun X => orMissing rfl rfl fun w => pure
  · refine (h .expression x).bind fun e y => extentFrom fun X => ?_
    exact orMissing rfl rfl fun z => pure

theorem forCondition_balances : Balances d x [] 0 forCondition := by
  refine accept (fun hx => of_accepts_kind hx ▸ rfl) (fun y => pure) ?_
  exact (h .expression x).bind fun e y => orMissing rfl rfl fun z => pure

/-- The third clause comes with the parenthesis that closes the head of the loop. -/
theorem forUpdate_balances : Balances d x [.rightParen] 0 forUpdate := by
  have hmore : ∀ y, Balances d y [.rightParen] 0 (do
      let e ← run .expression
      Procedure.rightParen
      return some e) :=
    fun y => (h .expression y).bind fun e z => rightParen fun v => pure
  refine next ?_
  split
  · exact rightParen fun y => pure
  · exact rightParen fun y => pure
  · exact hmore x

theorem forStatement_balances (hx : x.kind = .for) : Balances d x [] 0 forStatement := by
  refine take_keyword hx rfl fun i y => leftParen fun z => ?_
  refine (forInit_balances h).bind fun init v => (forCondition_balances h).bind fun c u => ?_
  refine (forUpdate_balances h).seq fun update w => (h .statement w).bind fun body s => ?_
  exact extentFrom fun X => pure

theorem returnStatement_balances (hx : x.kind = .return) : Balances d x [] 0 returnStatement := by
  have hmore : ∀ (first : Nat) (value : Option Tree) (y : Symbol), Balances d y [] 0 (do
      Procedure.statementEnd
      return Node.return (← Procedure.extentFrom first) value : Procedure Item) :=
    fun first value y => statementEnd fun z => extentFrom fun X => pure
  refine take hx rfl fun i y => next ?_
  split
  · exact hmore i none y
  · exact hmore i none y
  · exact hmore i none y
  split
  · exact hmore i none y
  · exact (h .expression y).map.bind fun value z => hmore i value z

omit h in
theorem wordStatement_balances {node : Extent Nat → Item} (hx : x.kind.isBracket = false) :
    Balances d x [] 0 (wordStatement node) := by
  refine take rfl hx fun i y => ?_
  exact statementEnd fun z => extentFrom fun X => pure

theorem statement_balances : Balances d x [] 0 Grammar.statement := by
  have hmore : ∀ (first : Nat) (y : Symbol), Balances d y [] 0 (do
      let e ← run .expression
      Procedure.statementEnd
      return Node.expression (← Procedure.extentFrom first) e : Procedure Item) :=
    fun first y => (h .expression y).bind fun e z => statementEnd fun v => extentFrom fun X => pure
  refine position fun first => next ?_
  split
  · exact (block_balances h).bind fun body y => pure
  · next hkind => exact ifStatement_balances h hkind
  · next hkind => exact switchStatement_balances h hkind
  · next hkind => exact forStatement_balances h hkind
  · next hkind => exact whileStatement_balances h hkind
  · next hkind => exact doStatement_balances h hkind
  · next hkind => exact returnStatement_balances h hkind
  · next hkind => exact wordStatement_balances (hkind ▸ rfl)
  · next hkind => exact wordStatement_balances (hkind ▸ rfl)
  · next hkind => exact wordStatement_balances (hkind ▸ rfl)
  · next hkind => exact take hkind rfl fun i y => extentFrom fun X => pure
  · exact hmore first x

/-! ## Items -/

theorem item_balances : Balances d x [] 0 Grammar.item := by
  refine position fun first => next ?_
  split
  · next hkind => exact precision_balances h hkind
  · exact qualified_balances h
  · exact qualified_balances h
  · next hkind => exact struct_balances h first _ hkind
  · refine ahead fun declaration => ?_
    split
    · exact typed_balances h first _
    · exact h .statement x
  · exact h .statement x

theorem items_balances (stop : Stop) : Balances d x [] 0 (Grammar.items stop) := by
  refine next ?_
  split
  · exact pure
  · exact (h .item x).bind fun n y => (h (.items stop) y).bind fun ns z => pure

end Balances

/-- All rules close what they open. -/
theorem Rule.balances (d : Nat) (r : Rule) (x : Symbol) : Balances d x [] 0 (Procedure.run r) := by
  induction d generalizing r x with
  | zero =>
    intro s t a hx hp
    cases hp
  | succ d ih =>
    refine .call r ?_
    cases r with
    | item => exact .item_balances ih
    | items stop => exact .items_balances ih stop
    | statement => exact .statement_balances ih
    | cases => exact .cases_balances ih
    | qualifiers found => exact .qualifiers_balances ih found
    | layoutParams => exact .layoutParams_balances ih
    | dims => exact .dims_balances ih
    | declarators => exact .declarators_balances ih
    | vars type name => exact .vars_balances ih type name
    | members => exact .members_balances ih
    | params => exact .params_balances ih
    | names => exact .names_balances ih
    | expression => exact .expression_balances ih
    | sequence => exact .sequence_balances ih
    | assignment => exact .assignment_balances ih
    | conditional => exact .conditional_balances ih
    | binary level => exact .binary_balances ih level
    | binaryRest level left => exact .binaryRest_balances ih level left
    | unary => exact .unary_balances ih
    | suffixes object => exact .suffixes_balances ih object
    | arguments => exact .arguments_balances ih
    | primary => exact .primary_balances ih
    | initializer => exact .initializer_balances ih
    | elements => exact .elements_balances ih

end Grammar

end ShaderRepair
