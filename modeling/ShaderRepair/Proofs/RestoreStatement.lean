import ShaderRepair.Proofs.RestoreDeclaration

/-!
# Restoring semicolons of statements

Statements end in front of a semicolon that is gone, also inside other statements. There is one
lemma for each procedure, and `Omission.restoresRules`, the induction on the depth of calls.

Behind a whole statement or declaration no semicolon is gone: it would be an empty statement, and a
semicolon that is gone ends something else.
-/

namespace ShaderRepair

namespace Grammar

open Procedure

namespace Omission

open Restores

variable {o : Omission} {d : Nat} {x : Symbol}

/-! ## Semicolons of their own -/

section Empty

variable {held : List Nat} {s t : State} {n : Item}

/-- A semicolon is a statement of its own. -/
theorem Runs.statement_of_semicolon (h : o.Runs d x held Grammar.statement s n t)
    (hx : x.kind = .semicolon) : n.terminators = [] ∧ s.passed < t.passed := by
  have hrun := h.of_position.of_next
  simp only [hx] at hrun
  have hlt := hrun.of_next.of_position.lt_of_shift (Kind.passes_of_semicolon hx)
  cases hrun.accepted
  exact ⟨rfl, hlt⟩

/-- It is an item too. -/
theorem Runs.item_of_semicolon (h : o.Runs d x held (run .item) s n t) (hx : x.kind = .semicolon) :
    n.terminators = [] ∧ s.passed < t.passed := by
  cases d with
  | zero => cases h.accepted
  | succ d =>
    have hrun := h.body.of_position.of_next
    simp only [hx] at hrun
    cases d with
    | zero => cases hrun.accepted
    | succ d => exact hrun.body.statement_of_semicolon hx

/-- An identifier that starts no declaration starts an expression with its end. -/
theorem Runs.statement_of_identifier (h : o.Runs d x held Grammar.statement s n t)
    (hx : x.kind = .identifier) :
    ∃ e m, o.Runs d x held (run .expression) s e m ∧ m.next.kind = .semicolon ∧
      m.passed < t.passed ∧ ∀ i ∈ n.terminators, m.passed ≤ i := by
  have hrun := h.of_position.of_next
  simp only [hx] at hrun
  obtain ⟨e, m, he, hend⟩ := hrun.split
  obtain ⟨u, m', hskip, hnode⟩ := hend.split
  obtain ⟨hk, rfl⟩ := hskip.skip_of_statementEnd
  have hlt := m.lt_skipSemicolons hk
  cases hnode.accepted
  refine ⟨e, m, he, hk, hlt, fun i hi => ?_⟩
  rw [List.mem_singleton.1 hi]
  exact Nat.le_sub_one_of_lt hlt

end Empty

section Bodies

variable (h : o.RestoresRules d)
include h

/-! ## Conditions and branches -/

theorem condition_restores :
    o.Restores d x false [] noEnds o.tree condition condition := by
  refine orMissing rfl fun y => (h .expression y).bind fun e z => ?_
  exact orMissing rfl fun w => result rfl

theorem ifStatement_restores (hx : x.kind = .if) :
    o.Restores d x true [] Node.terminators (Node.map o.moved o.tree) ifStatement ifStatement := by
  refine take (hx ▸ rfl) fun n y => (condition_restores h).bind fun c z => ?_
  refine (h .statement z).seq (fun yes w => ?_) fun _ yes w => ?_
  · refine accept_solid ⟨Kind.noConfusion, Kind.noConfusion⟩ ?_ (fun _ v => ?_) fun _ => ?_
    · exact .accept rfl (.extentFrom fun X => .done)
    · refine (h .statement v).seq (fun no u => ?_) fun _ no u => .extentFrom fun X => .done
      exact extentFrom fun X => Restores.pure (fun i hi => hi) rfl
    · exact extentFrom fun X => Restores.pure (fun i hi => hi) rfl
  · exact .accept rfl (.extentFrom fun X => .done)

theorem cases_restores :
    o.Restores d x false [] Case.terminatorsAll (Case.mapAll o.moved o.tree) Grammar.cases
      Grammar.cases := by
  -- What follows the label is the same with an expression and without one.
  have hmore : ∀ (n : Nat) (label : Option Tree) (y : Symbol),
      o.Restores d y false [] Case.terminatorsAll (Case.mapAll o.moved o.tree)
        (do
          colon
          let body ← run (.items .label)
          let X ← Procedure.extentFrom n
          return Case.mk X label body :: (← run .cases))
        (do
          colon
          let body ← run (.items .label)
          let X ← Procedure.extentFrom (o.moved n)
          return Case.mk X (label.map o.tree) body :: (← run .cases)) := by
    refine fun n label y => orMissing rfl fun z => ?_
    refine (h (.items .label) z).seq (fun body w => ?_) nofun
    refine extentFrom fun X => (h .cases w).seq (fun cs v => ?_) nofun
    exact Restores.pure (fun i hi => hi) rfl
  refine next_solid (.of_semicolon fun hx => ?_) ?_ fun _ => rfl
  · rw [hx]
    exact .expect rfl
  split
  · exact Restores.pure (fun i hi => hi) rfl
  · exact Restores.pure (fun i hi => hi) rfl
  · refine expect rfl fun _ n y => choose (fun _ => ?_) fun _ => hmore n none y
    exact (h .expression y).optional.bind fun label z => hmore n label z

theorem switchStatement_restores (hx : x.kind = .switch) :
    o.Restores d x false [] Node.terminators (Node.map o.moved o.tree) switchStatement
      switchStatement := by
  refine take (hx ▸ rfl) fun n y => (condition_restores h).bind fun e z => ?_
  refine expect rfl fun _ _ w => (h .cases w).seq (fun cs v => ?_) nofun
  exact expect rfl fun _ _ u => extentFrom fun X => Restores.pure (fun i hi => hi) rfl

/-! ## Loops -/

theorem whileStatement_restores (hx : x.kind = .while) :
    o.Restores d x true [] Node.terminators (Node.map o.moved o.tree) whileStatement
      whileStatement := by
  refine take (hx ▸ rfl) fun n y => (condition_restores h).bind fun c z => ?_
  refine (h .statement z).seq (fun body w => ?_) fun _ body w => .extentFrom fun X => .done
  exact extentFrom fun X => Restores.pure (fun i hi => hi) rfl

theorem doStatement_restores (hx : x.kind = .do) :
    o.Restores d x false [] Node.terminators (Node.map o.moved o.tree) doStatement
      doStatement := by
  refine take (hx ▸ rfl) fun n y => (h .statement y).seq (fun body z => ?_) fun _ _ _ => .expect rfl
  refine expect rfl fun _ _ w => (condition_restores h).bind fun c v => ?_
  refine statementEnd rfl (fun X i hi => ?_) fun X => rfl
  exact (List.mem_append.1 hi).imp (fun hi => hi) List.mem_singleton.1

/-- Between the clauses of a for statement no semicolon is gone. -/
theorem forInit_restores :
    o.Restores d x false [] noEnds (ForInit.map o.moved o.tree) forInit forInit := by
  refine position (fun n => .of_semicolon fun hx => .next (.ahead fun b => ?_)) fun first =>
    next_solid (.of_semicolon fun hx => .ahead fun b => ?_) (ahead (fun b => ?_) ?_) fun _ => rfl
  · rw [if_pos hx]
    exact .take (Kind.passes_of_semicolon hx) fun _ _ _ _ _ => rfl
  · rw [if_pos hx]
    exact .take (Kind.passes_of_semicolon hx) fun _ _ _ _ _ => rfl
  · refine choose (fun hx => ?_) fun _ => choose (fun _ => ?_) fun _ => ?_
    · have hpass := Kind.passes_of_semicolon hx
      exact take_solid hpass (fun n => .shift hpass fun _ _ _ _ => rfl) fun n y => result rfl
    · refine (h (.qualifiers ⟨[], []⟩) x).bind_shut (fun quals y => ?_) fun _ _ => typeSpec_solid
      refine (typeSpec_restores h).bind fun type z => expect rfl fun _ n w => ?_
      refine (h (.vars type _) w).bind fun ds v => extentFrom fun X => ?_
      exact clauseEnd fun u => result rfl
    · refine (h .expression x).bind fun e y => extentFrom fun X => ?_
      exact clauseEnd fun z => result rfl
  · intro s t a hrun hcovers hs s' hs'
    by_cases hx : x.kind = .identifier
    -- A clause has no ends, so the expression up to its semicolon is there as a whole.
    · rw [if_neg (by rw [hx]; exact Kind.noConfusion), if_neg (by rw [hx]; decide)] at hrun
      obtain ⟨e, m, he, hclause⟩ := hrun.split
      obtain ⟨X, m', hX, hend⟩ := hclause.split
      cases hX.accepted
      have hle := hend.le
      refine hs'.not_startsDeclaration_of_expression ((exec_run _ _).symm.trans he.accepted)
        he.repairs (fun i hi hlt => ?_) hend.kind_of_orMissing.1 hs
      refine Bool.eq_false_iff.2 fun hgone => ?_
      exact absurd (hcovers i hgone hi (Nat.lt_of_lt_of_le hlt hle)) List.not_mem_nil
    · exact hs'.not_startsDeclaration (hrun.next ▸ hx)

theorem forCondition_restores :
    o.Restores d x false [] noEnds (Option.map o.tree) forCondition forCondition := by
  refine accept_solid (Kind.passes_of_semicolon rfl) ?_ (fun _ y => result rfl) fun _ => ?_
  · refine .of_semicolon fun hx => .next ?_
    rw [if_pos (by simp [Expectation.accepts, hx])]
    exact .shift (Kind.passes_of_semicolon hx) fun _ _ _ _ => rfl
  · exact (h .expression x).bind fun e y => clauseEnd fun z => result rfl

theorem forUpdate_restores :
    o.Restores d x false [] noEnds (Option.map o.tree) forUpdate forUpdate := by
  refine next_solid (.of_semicolon fun hx => ?_) ?_ fun _ => rfl
  · rw [hx]
    exact .of_progress progresses_expression
  split
  · exact orMissing rfl fun y => result rfl
  · exact orMissing rfl fun y => result rfl
  · exact (h .expression x).bind fun e y => orMissing rfl fun z => result rfl

theorem forStatement_restores (hx : x.kind = .for) :
    o.Restores d x true [] Node.terminators (Node.map o.moved o.tree) forStatement
      forStatement := by
  refine take (hx ▸ rfl) fun n y => orMissing rfl fun z => ?_
  refine (forInit_restores h).bind fun init w => ?_
  refine (forCondition_restores h).bind fun c v => (forUpdate_restores h).bind fun update u => ?_
  refine (h .statement u).seq (fun body r => ?_) fun _ body r => .extentFrom fun X => .done
  exact extentFrom fun X => Restores.pure (fun i hi => hi) rfl

/-! ## Other statements -/

theorem returnStatement_restores (hx : x.kind = .return) :
    o.Restores d x false [] Node.terminators (Node.map o.moved o.tree) returnStatement
      returnStatement := by
  -- What follows the value is the same with a value and without one.
  have hmore : ∀ (n : Nat) (value : Option Tree) (y : Symbol),
      o.Restores d y false [] Node.terminators (Node.map o.moved o.tree)
        (do
          Procedure.statementEnd
          return .return (← Procedure.extentFrom n) value)
        (do
          Procedure.statementEnd
          return .return (← Procedure.extentFrom (o.moved n)) (value.map o.tree)) := by
    refine fun n value y => statementEnd rfl (fun X i hi => .inr ?_) fun X => rfl
    cases value with
    | none => cases hi
    | some e => exact List.mem_singleton.1 hi
  refine take (hx ▸ rfl) fun n y => next_run (.of_semicolon fun hy => ?_) ?_ fun hcloses => ?_
  · simp only [hy]
    exact .statementEnd fun X => rfl
  · split
    · exact hmore n none y
    · exact hmore n none y
    · exact hmore n none y
    · refine choose (fun _ => hmore n none y) fun _ => ?_
      exact (h .expression y).optional.bind fun value z => hmore n value z
  · intro s t a hrun
    cases hbroken : y.broken with
    | true => rfl
    | false =>
      split at hrun
      · next hy => simp only [hy]
      · next hy => simp only [hy]
      · next hy => simp only [hy]
      -- No value starts with what ends a statement by itself.
      · rw [hbroken, if_neg Bool.false_ne_true, bind_map_left] at hrun
        obtain ⟨e, m, he, -⟩ := hrun.split
        have hno := not_closes_of_expression ((exec_run _ _).symm.trans he.accepted)
        rw [he.next, hcloses] at hno
        cases hno

omit h in
theorem wordStatement_restores {node : Extent Nat → Item} (hx : x.kind.isTaken = true)
    (hends : ∀ X, (node X).terminators = [X.last])
    (hmap : ∀ X, (node X).map o.moved o.tree = node (X.map o.moved)) :
    o.Restores d x false [] Node.terminators (Node.map o.moved o.tree) (wordStatement node)
      (wordStatement node) := by
  refine take hx fun n y => statementEnd rfl (fun X i hi => .inr ?_) hmap
  rw [hends] at hi
  exact List.mem_singleton.1 hi

theorem statement_restores :
    o.Restores d x true [] Node.terminators (Node.map o.moved o.tree) Grammar.statement
      Grammar.statement := by
  refine position (fun n => .of_semicolon fun hx => .next ?_) fun first =>
    next_solid (.of_semicolon fun hx => ?_) ?_ fun _ => rfl
  · simp only [hx]
    refine .take (Kind.passes_of_semicolon hx) fun _ s a t hrun => ?_
    cases hrun
    rfl
  · simp only [hx]
    refine .take (Kind.passes_of_semicolon hx) fun _ s a t hrun => ?_
    cases hrun
    rfl
  split
  · refine .close ((block_restores h).seq (fun b y => ?_) nofun) true
    exact Restores.pure (fun i hi => hi) rfl
  · next hx => exact ifStatement_restores h hx
  · next hx => exact (switchStatement_restores h hx).close true
  · next hx => exact forStatement_restores h hx
  · next hx => exact whileStatement_restores h hx
  · next hx => exact (doStatement_restores h hx).close true
  · next hx => exact (returnStatement_restores h hx).close true
  · next hx => exact (wordStatement_restores (hx ▸ rfl) (fun _ => rfl) fun _ => rfl).close true
  · next hx => exact (wordStatement_restores (hx ▸ rfl) (fun _ => rfl) fun _ => rfl).close true
  · next hx => exact (wordStatement_restores (hx ▸ rfl) (fun _ => rfl) fun _ => rfl).close true
  · next hx =>
    have hpass := Kind.passes_of_semicolon hx
    refine take_solid hpass (fun n => .shift hpass fun s a t hrun => ?_) fun n y => ?_
    · cases hrun
      rfl
    · exact extentFrom fun X => Restores.pure nofun rfl
  · refine (h .expression x).bind fun e y => .close ?_ true
    exact statementEnd rfl (fun X i hi => .inr (List.mem_singleton.1 hi)) fun X => rfl

/-! ## Items -/

theorem item_restores :
    o.Restores d x true [] Node.terminators (Node.map o.moved o.tree) Grammar.item
      Grammar.item := by
  have hsolid : o.Solid d x true [] Node.terminators (run .statement) := by
    refine .of_semicolon fun hx => .of_passed fun s t n hrun => ?_
    cases d with
    | zero => cases hrun.accepted
    | succ d =>
      obtain ⟨hends, hlt⟩ := hrun.body.statement_of_semicolon hx
      rw [hends]
      exact ⟨hlt, nofun⟩
  refine position (fun n => .of_semicolon fun hx => .next ?_) fun first =>
    next_solid (.of_semicolon fun hx => ?_) ?_ fun _ => rfl
  · simp only [hx]
    exact hsolid
  · simp only [hx]
    exact hsolid
  split
  · next hx => exact (precision_restores h hx).close true
  · next hx => exact (qualified_restores h (by rw [hx]; exact Kind.noConfusion)).close true
  · next hx => exact (qualified_restores h (by rw [hx]; exact Kind.noConfusion)).close true
  · next hx => exact (struct_restores h first ⟨[], []⟩ hx).close true
  · next hx =>
    refine ahead (fun b => choose (fun _ => ?_) fun _ => h .statement x) ?_
    · exact (typed_restores h first ⟨[], []⟩).close true
    intro s t n hrun hcovers hs s' hs'
    -- The only end stands behind the expression, so that is there as a whole.
    cases d with
    | zero => cases hrun.accepted
    | succ d =>
      obtain ⟨e, m, he, hm, hmt, hends⟩ := hrun.body.statement_of_identifier hx
      refine hs'.not_startsDeclaration_of_expression ((exec_run _ _).symm.trans he.accepted)
        he.repairs (fun i hi hlt => ?_) hm hs
      refine Bool.eq_false_iff.2 fun hgone => ?_
      exact absurd hlt (Nat.not_lt.2 (hends i (hcovers i hgone hi (Nat.lt_trans hlt hmt))))
  · exact h .statement x

/-- Items that begin with a semicolon have no end there. -/
theorem items_of_semicolon {held : List Nat} {stop : Stop} {s t : State} {ns : List Item}
    (hrun : o.Runs d x held (Grammar.items stop) s ns t) (hx : x.kind = .semicolon) :
    s.passed < t.passed ∧ ∀ i ∈ Node.terminatorsAll ns, s.passed < i := by
  have hsome := (hrun.hold fun i (hi : i ∈ []) => nomatch hi).of_next
  simp only [Stop.ends, hx] at hsome
  obtain ⟨n, m, hn, hmore⟩ := hsome.split
  obtain ⟨hends, hlt⟩ := hn.item_of_semicolon hx
  obtain ⟨ns, m', hns, hdone⟩ := hmore.split
  cases hdone.accepted
  refine ⟨Nat.lt_of_lt_of_le hlt hns.le, fun i hi => ?_⟩
  rw [Node.terminatorsAll, hends, List.nil_append] at hi
  have hle := ((h (.items stop) _ (hns.hold nofun)).1 i hi).2.resolve_left List.not_mem_nil
  exact Nat.lt_of_lt_of_le hlt hle

theorem items_restores (stop : Stop) :
    o.Restores d x false [] Node.terminatorsAll (Node.mapAll o.moved o.tree) (Grammar.items stop)
      (Grammar.items stop) := by
  refine next_solid (.of_semicolon fun hx => .of_passed fun s t ns hrun => ?_) ?_ fun _ => rfl
  · obtain ⟨hlt, hends⟩ := items_of_semicolon h hrun.to_next hx
    exact ⟨hlt, fun i hi => Nat.ne_of_gt (hends i hi)⟩
  refine choose (fun _ => Restores.pure nofun rfl) fun _ => ?_
  refine (h .item x).seq (fun n y => ?_) fun _ n y => ?_
  · exact (h (.items stop) y).seq (fun ns z => Restores.pure (fun i hi => hi) rfl) nofun
  -- A semicolon behind an item is the next item, and no end of any other.
  · refine .of_semicolon fun hy => .of_passed fun s t ns hrun => ?_
    obtain ⟨ns, m, hns, hdone⟩ := hrun.split
    cases hdone.accepted
    cases d with
    | zero => cases hns.accepted
    | succ d =>
      obtain ⟨hlt, hends⟩ := items_of_semicolon h (hns.body.mono (Nat.le_succ d)) hy
      refine ⟨hlt, fun i hi => ?_⟩
      rcases List.mem_append.1 hi with hi | hi
      · exact Nat.ne_of_lt (hrun.held i hi)
      · exact Nat.ne_of_gt (hends i hi)

end Bodies

/-! ## All rules -/

/-- Every rule restores the semicolons that are gone. -/
theorem restoresRules (o : Omission) (d : Nat) : o.RestoresRules d := by
  induction d with
  | zero =>
    intro r x s t a h
    cases h.accepted
  | succ d ih =>
    intro r x
    cases r with
    | item => exact call (item_restores ih)
    | items stop => exact call (items_restores ih stop)
    | statement => exact call (statement_restores ih)
    | cases => exact call (cases_restores ih)
    | qualifiers found => exact call (qualifiers_restores ih found)
    | layoutParams => exact call (layoutParams_restores ih)
    | dims => exact call (dims_restores ih)
    | declarators => exact call (declarators_restores ih)
    | vars type name => exact call (vars_restores ih type name)
    | members => exact call (members_restores ih)
    | params => exact call (params_restores ih)
    | names => exact call (names_restores ih)
    | expression => exact call (expression_restores ih)
    | sequence => exact call (sequence_restores ih)
    | assignment => exact call (assignment_restores ih)
    | conditional => exact call (conditional_restores ih)
    | binary level => exact call (binary_restores ih level)
    | binaryRest level left => exact call (binaryRest_restores ih level left)
    | unary => exact call (unary_restores ih)
    | suffixes object => exact call (suffixes_restores ih object)
    | arguments => exact call (arguments_restores ih)
    | primary => exact call (primary_restores ih)
    | initializer => exact call (initializer_restores ih)
    | elements => exact call (elements_restores ih)

end Omission

end Grammar

end ShaderRepair
