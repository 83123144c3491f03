import ShaderRepair.Proofs.CarryDeclaration

/-!
# Contracts of statements

The rules for statements and items keep their contracts, and with them all rules do. This file
contains:
- one lemma for each procedure;
- `Rule.safe`, for all rules;
- `Rule.post_of_run`, which says that every run of a rule keeps its contract.
-/

namespace ShaderRepair

namespace Grammar

open Passage Procedure

/-! ## Conditions and branches -/

theorem condition_delivers : Grammar.condition.Delivers [] fun e => [.expr e] := by
  intro s hs
  refine (Reaches.start hs).leftParen fun t _ h => ?_
  refine h.use (.run .expression) fun e u _ hu => ?_
  exact hu.rightParen fun v _ hv => hv.carries

theorem ifStatement_safe {s : State} (hnext : s.next.kind = .if) :
    Grammar.ifStatement.Safe (Fills s) s := by
  have hstart := Reaches.start (Holds.nil s)
  refine hstart.take_mark (by decide) hnext fun t ht h => ?_
  refine h.use condition_delivers fun c u hu h => ?_
  have hule := hu.le
  refine h.use (.run .statement) fun yes v hv h => ?_
  have hvle := hv.le
  refine h.accept_mark (by decide) (fun w hw h => ?_) (.extentFrom ?_)
  · refine h.use (.run .statement) fun no z hz h => .extentFrom ?_
    have hzle := hz.le
    exact h.node rfl (by omega) rfl
  · exact h.node rfl (by omega) rfl

/-- The words that begin a label. -/
theorem Adds.label {x : Symbol}
    (h : ([.kind .case, .kind .default] : List Expectation).any (fun e => e.accepts x) = true) :
    Adds x [] :=
  .bare rfl (Expectation.kind_of_any (p := fun k => k.isBare = true) h (by decide))

theorem cases_delivers : Grammar.cases.Delivers [] Case.passagesAll := by
  intro s hs
  have hstart := Reaches.start hs
  -- What follows the label is the same with a label and without one.
  have hmore : ∀ (label : Option Tree) (t : State), s.passed < t.passed →
      Reaches s [] t (optional label) →
      (do
        colon
        let body ← run (.items .label)
        let c := .mk (← extentFrom s.passed) label body
        return c :: (← run .cases) : Procedure (List (Case Nat Tree))).Safe
        (fun cs u => Carries s u [] (Case.passagesAll cs)) t := by
    intro label t ht h
    refine h.colon fun u hu h => ?_
    refine h.use (.run (.items .label)) fun body v hv h => .extentFrom ?_
    have hvle := hv.le
    have hcase : Reaches s [] v [.span ⟨s.passed, v.passed - 1⟩
        (Case.parts (.mk ⟨s.passed, v.passed - 1⟩ label body))] :=
      ⟨hs, (h.cast (by simp [Case.parts, Rule.content])).carries.span (by omega)⟩
    exact hcase.use (.run .cases) fun cs w _ hw => hw.carries
  refine .next ?_
  split
  · exact hstart.carries
  · exact hstart.carries
  refine .expect (by simp) fun hlabel => ?_
  refine hstart.take (.label hlabel) fun t ht h => ?_
  split
  · refine h.use_some (.run .expression) fun e u hu h => ?_
    have hule := hu.le
    exact hmore (some e) u (by omega) h
  · exact hmore none t (by omega) h

theorem switchStatement_safe {s : State} (hnext : s.next.kind = .switch) :
    Grammar.switchStatement.Safe (Fills s) s := by
  have hstart := Reaches.start (Holds.nil s)
  refine hstart.take_mark (by decide) hnext fun t ht h => ?_
  refine h.use condition_delivers fun selector u hu h => ?_
  refine h.expect_mark (by decide) fun v hv h => ?_
  refine h.use (.run .cases) fun cs w hw h => ?_
  refine h.expect_mark (by decide) fun z hz h => .extentFrom ?_
  have hule := hu.le
  have hwle := hw.le
  exact h.node rfl (by omega) rfl

/-! ## Loops -/

theorem whileStatement_safe {s : State} (hnext : s.next.kind = .while) :
    Grammar.whileStatement.Safe (Fills s) s := by
  have hstart := Reaches.start (Holds.nil s)
  refine hstart.take_mark (by decide) hnext fun t ht h => ?_
  refine h.use condition_delivers fun c u hu h => ?_
  refine h.use (.run .statement) fun body v hv h => .extentFrom ?_
  have hule := hu.le
  have hvle := hv.le
  exact h.node rfl (by omega) rfl

theorem doStatement_safe {s : State} (hnext : s.next.kind = .do) :
    Grammar.doStatement.Safe (Fills s) s := by
  have hstart := Reaches.start (Holds.nil s)
  refine hstart.take_mark (by decide) hnext fun t ht h => ?_
  refine h.use (.run .statement) fun body u hu h => ?_
  refine h.expect_mark (by decide) fun v hv h => ?_
  refine h.use condition_delivers fun c w hw h => ?_
  refine h.statementEnd fun z hz h => .extentFrom ?_
  have hule := hu.le
  have hwle := hw.le
  exact h.node rfl (by omega) rfl

theorem forInit_delivers : Grammar.forInit.Delivers [] ForInit.passages := by
  intro s hs
  have hstart := Reaches.start hs
  refine .position (.next ?_)
  change Safe _ (if s.next.kind = .semicolon then _ else if _ then _ else _) s
  split
  · next hkind => exact hstart.take_mark (by decide) hkind fun t _ h => h.carries
  split
  · refine hstart.use (.run (.qualifiers ⟨[], []⟩)) fun quals t ht h => ?_
    refine h.use typeSpec_delivers fun type u hu h => ?_
    refine h.expect_name fun name v hv h => ?_
    refine h.use_held (.run (.vars type name)) fun ds w hw h => .extentFrom ?_
    have htle := ht.le
    have hule := hu.le
    have hwle := hw.le
    have hspan : Reaches s [] w
        (ForInit.passages (.vars ⟨s.passed, w.passed - 1⟩ ⟨quals, type, ds⟩)) :=
      ⟨hs, (h.cast (by simp [Variables.passages, Rule.content])).carries.span (by omega)⟩
    exact hspan.clauseEnd fun z _ hz => hz.carries
  · refine hstart.use (.run .expression) fun e t ht h => .extentFrom ?_
    have hspan : Reaches s [] t (ForInit.passages (.expression ⟨s.passed, t.passed - 1⟩ e)) :=
      ⟨hs, ht.span (ht.lt (by simp [Rule.content]))⟩
    exact hspan.clauseEnd fun u _ hu => hu.carries

theorem forCondition_delivers : Grammar.forCondition.Delivers [] optional := by
  intro s hs
  have hstart := Reaches.start hs
  refine hstart.accept_mark (by decide) (fun t _ h => h.carries) ?_
  refine hstart.use (.run .expression) fun e t _ h => ?_
  exact h.clauseEnd fun u _ hu => hu.carries

theorem forUpdate_delivers : Grammar.forUpdate.Delivers [] optional := by
  intro s hs
  have hstart := Reaches.start hs
  refine .next ?_
  split
  · exact hstart.rightParen fun t _ h => h.carries
  · exact hstart.rightParen fun t _ h => h.carries
  · refine hstart.use (.run .expression) fun e t _ h => ?_
    exact h.rightParen fun u _ hu => hu.carries

theorem forStatement_safe {s : State} (hnext : s.next.kind = .for) :
    Grammar.forStatement.Safe (Fills s) s := by
  have hstart := Reaches.start (Holds.nil s)
  refine hstart.take_mark (by decide) hnext fun t ht h => ?_
  refine h.leftParen fun u hu h => ?_
  refine h.use forInit_delivers fun init v hv h => ?_
  refine h.use forCondition_delivers fun c w hw h => ?_
  refine h.use forUpdate_delivers fun update y hy h => ?_
  refine h.use (.run .statement) fun body z hz h => .extentFrom ?_
  have hvle := hv.le
  have hwle := hw.le
  have hyle := hy.le
  have hzle := hz.le
  exact (h.cast (by simp [Node.parts, Node.passage, Rule.content])).node rfl (by omega) rfl

/-! ## Other statements -/

theorem returnStatement_safe {s : State} (hnext : s.next.kind = .return) :
    Grammar.returnStatement.Safe (Fills s) s := by
  have hstart := Reaches.start (Holds.nil s)
  -- What follows the value is the same with a value and without one.
  have hmore : ∀ (value : Option Tree) (t : State), s.passed < t.passed →
      Reaches s [] t (optional value) →
      (do
        statementEnd
        return .return (← extentFrom s.passed) value : Procedure Item).Safe (Fills s) t := by
    intro value t ht h
    refine h.statementEnd fun u hu h => .extentFrom ?_
    exact h.node rfl (by omega) rfl
  refine hstart.take_mark (by decide) hnext fun t ht h => .next ?_
  have hnone := hmore none t (by omega) h
  split
  · exact hnone
  · exact hnone
  · exact hnone
  split
  · exact hnone
  · refine h.use_some (.run .expression) fun e u hu h => ?_
    have hule := hu.le
    exact hmore (some e) u (by omega) h

theorem wordStatement_safe {s : State} {k : Kind} {node : Extent Nat → Item}
    (hk : k.isBare = true) (hnext : s.next.kind = k) (hparts : ∀ x, (node x).parts = [])
    (hextent : ∀ x, (node x).extent = x) : (Grammar.wordStatement node).Safe (Fills s) s := by
  have hstart := Reaches.start (Holds.nil s)
  refine hstart.take_mark hk hnext fun t ht h => ?_
  refine h.statementEnd fun u hu h => .extentFrom ?_
  exact (h.cast (hparts _).symm).node rfl (by omega) (hextent _)

theorem statement_safe (s : State) : Grammar.statement.Safe (Fills s) s := by
  have hstart := Reaches.start (Holds.nil s)
  refine .position (.next ?_)
  split
  · exact (block_safe s).bind fun b t ht => ht
  · next hkind => exact ifStatement_safe hkind
  · next hkind => exact switchStatement_safe hkind
  · next hkind => exact forStatement_safe hkind
  · next hkind => exact whileStatement_safe hkind
  · next hkind => exact doStatement_safe hkind
  · next hkind => exact returnStatement_safe hkind
  · next hkind => exact wordStatement_safe (by decide) hkind (fun _ => rfl) fun _ => rfl
  · next hkind => exact wordStatement_safe (by decide) hkind (fun _ => rfl) fun _ => rfl
  · next hkind => exact wordStatement_safe (by decide) hkind (fun _ => rfl) fun _ => rfl
  · next hkind =>
    refine hstart.take_mark (by decide) hkind fun t ht h => .extentFrom ?_
    exact h.node rfl (by omega) rfl
  · refine hstart.use (.run .expression) fun e t ht h => ?_
    have hlt : s.passed < t.passed := ht.lt (by simp [Rule.content])
    refine h.statementEnd fun u hu h => .extentFrom ?_
    exact h.node rfl (by omega) rfl

/-! ## Items -/

theorem item_safe (s : State) : Grammar.item.Safe (Fills s) s := by
  have hstatement : (run .statement).Safe (Fills s) s :=
    ⟨Holds.nil s, fun n t h => ⟨h.carries, h.detail⟩⟩
  refine .position (.next ?_)
  split
  · next hkind => exact precision_safe hkind
  · exact qualified_safe s
  · exact qualified_safe s
  · next hkind => exact struct_safe (Reaches.start (Holds.nil s)) hkind
  · change Safe _ (if _ then _ else _) s
    split
    · have hstart : Reaches s [] s (Qualifiers.passages ⟨[], []⟩) := Reaches.start (Holds.nil s)
      exact typed_safe hstart
    · exact hstatement
  · exact hstatement

theorem items_delivers (stop : Stop) : (Grammar.items stop).Delivers [] Node.passagesAll := by
  intro s hs
  have hstart := Reaches.start hs
  refine .next ?_
  split
  · exact hstart.carries
  · refine hstart.use (.run .item) fun n t _ h => ?_
    exact h.use (.run (.items stop)) fun ns u _ hu => hu.carries

/-! ## All rules -/

/-- A rule of whose result nothing else is known. -/
theorem Rule.safe_of_delivers (r : Rule) (h : r.body.Delivers r.held r.content)
    (hdetail : ∀ s a t, r.Detail s a t) : r.Safe :=
  fun s hs => (h s hs).mono fun a t ht => ⟨ht, hdetail s a t⟩

/-- The body of every rule keeps the rule's contract. -/
theorem Rule.safe (r : Rule) : r.Safe := by
  cases r with
  | item => exact fun s _ => (item_safe s).mono fun n t h => ⟨h.carries, h.extent⟩
  | statement => exact fun s _ => (statement_safe s).mono fun n t h => ⟨h.carries, h.extent⟩
  | names => exact fun s _ => (names_safe s).mono fun ns t h => ⟨h.1, h.2⟩
  | items stop => exact safe_of_delivers _ (items_delivers stop) fun _ _ _ => trivial
  | cases => exact safe_of_delivers _ cases_delivers fun _ _ _ => trivial
  | qualifiers found => exact safe_of_delivers _ (qualifiers_delivers found) fun _ _ _ => trivial
  | layoutParams => exact safe_of_delivers _ layoutParams_delivers fun _ _ _ => trivial
  | dims => exact safe_of_delivers _ dims_delivers fun _ _ _ => trivial
  | declarators => exact safe_of_delivers _ declarators_delivers fun _ _ _ => trivial
  | vars type name => exact safe_of_delivers _ (vars_delivers type name) fun _ _ _ => trivial
  | members => exact safe_of_delivers _ members_delivers fun _ _ _ => trivial
  | params => exact safe_of_delivers _ params_delivers fun _ _ _ => trivial
  | expression => exact safe_of_delivers _ expression_delivers fun _ _ _ => trivial
  | sequence => exact safe_of_delivers _ sequence_delivers fun _ _ _ => trivial
  | assignment => exact safe_of_delivers _ assignment_delivers fun _ _ _ => trivial
  | conditional => exact safe_of_delivers _ conditional_delivers fun _ _ _ => trivial
  | binary level => exact safe_of_delivers _ (binary_delivers level) fun _ _ _ => trivial
  | binaryRest level left =>
    exact safe_of_delivers _ (binaryRest_delivers level left) fun _ _ _ => trivial
  | unary => exact safe_of_delivers _ unary_delivers fun _ _ _ => trivial
  | suffixes object => exact safe_of_delivers _ (suffixes_delivers object) fun _ _ _ => trivial
  | arguments => exact safe_of_delivers _ arguments_delivers fun _ _ _ => trivial
  | primary => exact safe_of_delivers _ primary_delivers fun _ _ _ => trivial
  | initializer => exact safe_of_delivers _ initializer_delivers fun _ _ _ => trivial
  | elements => exact safe_of_delivers _ elements_delivers fun _ _ _ => trivial

/-- Every run of a rule keeps its contract, by induction on the depth of calls. -/
theorem Rule.post_of_run {d : Nat} {r : Rule} {s t : State} {a : r.Result} (hs : Holds r.held s)
    (h : Rule.run d r s = .accepted a t) : r.Post s a t := by
  induction d generalizing r s t with
  | zero => cases h
  | succ d ih => exact (r.safe s hs).sound (fun r s a t hs h => ih hs h) h

end Grammar

end ShaderRepair
