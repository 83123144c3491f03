import ShaderRepair.Proofs.Ending

/-!
# Which conversions are noted

The conversions that a run of a rule notes can be read off its result: one for each variable in it
whose initializer needs one, in the order of the variables. This file contains:
- `Node.declared`, and `Grammar.repair?`, the conversion that a variable needs;
- `State.conversions`, those noted so far, and `Rule.wanted`, those a result needs;
- `Procedure.Notes`, which says what a procedure adds to them, with one rule for each way to put
  procedures together;
- `Rule.notes`, for all rules, by induction on the depth of calls.
-/

namespace ShaderRepair

/-! ## Variables -/

/-- The variables that a node declares itself, each with its type. -/
def Node.declared {μ ε : Type} : Node μ ε → List (TypeSpec μ ε × Declarator μ ε)
  | .vars _ v => v.declarators.map fun d => (v.type, d)
  | _ => []

namespace Grammar

open Procedure

variable {α β : Type} {d : Nat} {before : List Repair} {s t : State}

/-- The conversion of an initializer, if it needs one. An initializer that converts by itself does
not, and there is none for arrays. -/
def repair? (type : TypeSpec Nat Tree) (v : Declarator Nat Tree) : Option Repair :=
  v.init.bind fun e =>
    if type.dims.isEmpty && v.dims.isEmpty && e.needsConversion type.name.text then
      some ⟨e.note.last + 1, .conversion type.name.text e.note.first⟩
    else
      none

/-- The conversions that the variables of some nodes need. -/
def wanted (ns : List Item) : List Repair :=
  (ns.flatMap Node.declared).filterMap fun v => repair? v.1 v.2

theorem wanted_append (ns ns' : List Item) :
    wanted (ns ++ ns') = wanted ns ++ wanted ns' := by
  rw [wanted, List.flatMap_append, List.filterMap_append]
  rfl

/-- The variables of one declaration share its type. -/
theorem wanted_vars (X : Extent Nat) (v : Variables Nat Tree) :
    wanted [.vars X v] = v.declarators.filterMap (repair? v.type) := by
  rw [wanted, List.flatMap_singleton, Node.declared, List.filterMap_map]
  rfl

/-- What the result of a rule needs. -/
def Rule.wanted : (r : Rule) → r.Result → List Repair
  | .item, n => Grammar.wanted n.within
  | .items _, ns => Grammar.wanted (Node.inspectAll (fun _ => true) ns)
  | .statement, n => Grammar.wanted n.within
  | .cases, cs => Grammar.wanted (Node.inspectCases (fun _ => true) cs)
  | .vars type _, ds => ds.filterMap (repair? type)
  | _, _ => []

theorem Rule.wanted_of_isPart {r : Rule} (h : r.isPart = true) (a : r.Result) :
    r.wanted a = [] := by
  cases r with
  | item | items stop | statement | cases | vars type name => cases h
  | _ => rfl

/-! ## Noting marks only -/

/-- The conversions noted so far, the earliest one first. -/
def State.conversions (s : State) : List Repair :=
  (s.repairs.filter fun r => r.missing.isConversion).reverse

theorem State.conversions_shift (s : State) : s.shift.conversions = s.conversions := by
  rcases s.shift_cases with h | ⟨h, -⟩
  · rw [conversions, h.repairs]
    rfl
  · rw [h]

theorem State.conversions_repair_of_mark {m : Missing} (hm : m.isConversion = false) (s : State) :
    (s.repair m).conversions = s.conversions := by
  rw [conversions, repair, List.filter_cons_of_neg (by simp [hm])]
  rfl

/-- A conversion comes after those noted before. -/
theorem State.conversions_repair (T : Text) (first : Nat) (s : State) :
    (s.repair (.conversion T first)).conversions =
      s.conversions ++ [⟨s.passed, .conversion T first⟩] := by
  rw [conversions, repair, List.filter_cons_of_pos rfl, List.reverse_cons]
  rfl

theorem Procedure.Quiet.conversions {callee : (r : Rule) → State → Outcome r.Result}
    (hcallee : ∀ r : Rule, r.isPart = true → ∀ s a t, callee r s = .accepted a t →
      t.conversions = s.conversions)
    {p : Procedure α} (h : p.Quiet) {a : α} (hp : p.exec callee s = .accepted a t) :
    t.conversions = s.conversions := by
  induction p generalizing s with
  | done b =>
    cases hp
    rfl
  | look k ih => exact ih _ _ (h _ _) hp
  | ahead k ih => exact ih _ (h _) hp
  | here k ih => exact ih _ (h _) hp
  | shift k ih => exact (ih h hp).trans s.conversions_shift
  | skipSemicolons k ih => exact ih (s := s.skipSemicolons) h hp
  | repair m k ih => exact (ih h.2 hp).trans (State.conversions_repair_of_mark h.1 s)
  | build e k ih => exact ih (s := s.build e) h.2 hp
  | widen e k ih => exact ih (s := s.widen e) h hp
  | reject index expected => cases hp
  | call r k ih =>
    rw [exec] at hp
    cases hc : callee r s with
    | accepted b m =>
      rw [hc] at hp
      exact (ih b (h.2 b) hp).trans (hcallee r h.1 s b m hc)
    | rejected why m =>
      rw [hc] at hp
      cases hp

/-- No conversion is noted for a part, by induction on the depth of calls. -/
theorem Rule.conversions_of_isPart (d : Nat) {r : Rule} (hr : r.isPart = true) {a : r.Result}
    (h : Rule.run d r s = .accepted a t) : t.conversions = s.conversions := by
  induction d generalizing r s t with
  | zero => cases h
  | succ d ih => exact Procedure.Quiet.conversions (fun r hr s a t => ih hr) (r.part_confined hr) h

/-! ## Noting conversions -/

/-- From a state whose latest conversions are those `before`, the procedure comes to one whose
latest conversions are those `after` it, depending on its result. -/
def Procedure.Notes (d : Nat) (before : List Repair) (p : Procedure α) (after : α → List Repair) :
    Prop :=
  ∀ ⦃c : List Repair⦄ ⦃s t : State⦄ ⦃a : α⦄, s.conversions = c ++ before →
    p.exec (Rule.run d) s = .accepted a t → t.conversions = c ++ after a

/-- What runs of depth `d` note is what their results need. -/
def RulesNote (d : Nat) : Prop :=
  ∀ (r : Rule) ⦃s t : State⦄ ⦃a : r.Result⦄, Rule.run d r s = .accepted a t →
    t.conversions = s.conversions ++ r.wanted a

namespace Procedure.Notes

variable {p : Procedure α} {k : α → Procedure β} {after : β → List Repair}

theorem bind {middle : α → List Repair} (hp : p.Notes d before middle)
    (hk : ∀ a, (k a).Notes d (middle a) after) : (p >>= k).Notes d before after := by
  intro c s t b hs h
  obtain ⟨a, m, ha, hb⟩ := exec_bind_accepted.1 h
  exact hk a (hp hs ha) hb

theorem pure {b : β} (h : before = after b) : (Pure.pure b : Procedure β).Notes d before after := by
  intro c s t b' hs hb
  cases hb
  rw [hs, h]

theorem reject {index : Nat} {expected : List Expectation} :
    (Procedure.reject index expected : Procedure β).Notes d before after := by
  intro c s t b hs h
  cases h

theorem ite {c : Prop} [Decidable c] {q q' : Procedure β} (h : q.Notes d before after)
    (h' : q'.Notes d before after) : (if c then q else q').Notes d before after := by
  split
  · exact h
  · exact h'

theorem quiet {q : Procedure β} (hq : q.Quiet) (h : ∀ b, after b = before) :
    q.Notes d before after := by
  intro c s t b hs hb
  rw [Procedure.Quiet.conversions (fun r hr s a t => Rule.conversions_of_isPart d hr) hq hb, hs, h]

/-- A procedure that notes marks only may be skipped. -/
theorem skip (hp : p.Quiet) (hk : ∀ a, (k a).Notes d before after) :
    (p >>= k).Notes d before after :=
  (quiet hp fun _ => rfl).bind hk

/-- A call of a rule adds what its result needs. -/
theorem call (ih : RulesNote d) (r : Rule) :
    (Procedure.run r).Notes d before fun a => before ++ r.wanted a := by
  intro c s t a hs h
  rw [exec_run] at h
  rw [ih r h, hs, List.append_assoc]

theorem use (ih : RulesNote d) (r : Rule) {k : r.Result → Procedure β}
    (hk : ∀ a, (k a).Notes d (before ++ r.wanted a) after) :
    (Procedure.run r >>= k).Notes d before after :=
  (call ih r).bind hk

end Procedure.Notes

open Procedure.Notes

/-! ## Items without variables -/

/-- What most declarations and statements end with. -/
theorem ended_notes {first : Nat} {node : Extent Nat → Item}
    (h : ∀ X, wanted (node X).within = before) :
    (statementEnd >>= fun _ => extentFrom first >>= fun X => Pure.pure (node X)).Notes d before
      fun n => wanted n.within :=
  .skip (.statementEnd rfl) fun _ => .skip .extentFrom fun X => .pure (h X).symm

theorem struct_notes (first : Nat) (quals : Qualifiers Nat Tree) :
    (Grammar.struct first quals).Notes d [] fun n => wanted n.within := by
  have hmore : ∀ name : Option (Name Nat), Procedure.Notes d [] (do
      let ms ← memberList
      let ds ← instances
      statementEnd
      return Node.struct (← extentFrom first) quals name ms ds : Procedure Item)
      fun n => wanted n.within :=
    fun name => .skip (memberList_confined .marks) fun ms =>
      .skip (instances_confined .marks) fun ds => ended_notes fun X => rfl
  refine .skip .take fun word => .skip .next fun x => .ite ?_ ?_
  · exact .skip (.map .take) fun name => hmore name
  · exact hmore none

theorem interface_notes (first : Nat) (quals : Qualifiers Nat Tree) :
    (interface first quals).Notes d [] fun n => wanted n.within := by
  refine .skip .take fun name => .skip (memberList_confined .marks) fun ms => ?_
  exact .skip (instances_confined .marks) fun ds => ended_notes fun X => rfl

theorem precision_notes : precision.Notes d [] fun n => wanted n.within := by
  refine .skip .take fun first => .skip .next fun x => .skip .expect fun word => .ite ?_ .reject
  exact .skip (typeSpec_confined .marks) fun type => ended_notes fun X => rfl

theorem returnStatement_notes : returnStatement.Notes d [] fun n => wanted n.within := by
  have hmore : ∀ (first : Nat) (value : Option Tree), Procedure.Notes d [] (do
      statementEnd
      return Node.return (← extentFrom first) value : Procedure Item) fun n => wanted n.within :=
    fun first value => ended_notes fun X => rfl
  refine .skip .take fun first => .skip .next fun x => ?_
  split
  · exact hmore first.mark none
  · exact hmore first.mark none
  · exact hmore first.mark none
  split
  · exact hmore first.mark none
  · exact .skip (.map (Allows.marks.run rfl rfl)) fun value => hmore first.mark value

theorem wordStatement_notes {node : Extent Nat → Item} (h : ∀ X, wanted (node X).within = []) :
    (wordStatement node).Notes d [] fun n => wanted n.within :=
  .skip .take fun _ => ended_notes h

/-! ## Variables and declarations -/

/-- The only place where a conversion is noted. -/
theorem initialValue_notes (type : TypeSpec Nat Tree) (name : Name Nat)
    (dims : List (Option Tree)) :
    (initialValue type dims).Notes d before fun init =>
      before ++ (repair? type ⟨name, dims, init⟩).toList := by
  refine .skip .accept fun hasInit => .ite ?_ (.pure (by simp [repair?]))
  intro c s t init hs h
  simp only [exec_bind_accepted, exec_position, Outcome.accepted.injEq] at h
  obtain ⟨first, m, ⟨rfl, rfl⟩, e, m', he, h⟩ := h
  -- Reading the initializer notes none.
  have hm' : m'.conversions = c ++ before := by
    rw [exec_run] at he
    rw [Rule.conversions_of_isPart d rfl he, hs]
  split at h
  · next hneeds =>
    have hrepair : repair? type ⟨name, dims, some e⟩ =
        some ⟨m'.passed, .conversion type.name.text s.passed⟩ := by
      obtain ⟨hfirst, hends⟩ := note_of_initializer he (Bool.and_eq_true_iff.1 hneeds).2
      rw [← hfirst, ← hends]
      exact if_pos hneeds
    cases h
    simp only [hrepair, Option.toList_some]
    rw [← List.append_assoc, ← hm']
    exact State.conversions_repair _ _ _
  · next hneeds =>
    have hrepair : repair? type ⟨name, dims, some e⟩ = none := if_neg hneeds
    cases h
    simp only [hrepair, Option.toList_none, List.append_nil]
    exact hm'

section Rules

variable (ih : RulesNote d)
include ih

theorem vars_notes (type : TypeSpec Nat Tree) (name : Name Nat) :
    (vars type name).Notes d [] (Rule.wanted (.vars type name)) := by
  refine .skip (Allows.marks.run rfl rfl) fun dims => ?_
  refine .bind (initialValue_notes type name dims) fun init => ?_
  refine .skip .accept fun more => .ite (.skip .expect fun another => ?_) (.pure ?_)
  · refine .use ih (.vars type another) fun ds => .pure ?_
    cases h : repair? type ⟨name, dims, init⟩ <;> simp [Rule.wanted, h]
  · cases h : repair? type ⟨name, dims, init⟩ <;> simp [Rule.wanted, h]

theorem block_notes :
    block.Notes d before fun b => before ++ wanted (Node.inspectAll (fun _ => true) b.2) := by
  refine .skip .expect fun opening => .use ih (.items .brace) fun body => ?_
  exact .skip .expect fun closing => .skip .extentFrom fun X => .pure rfl

theorem function_notes (first : Nat) (quals : Qualifiers Nat Tree) (result : TypeSpec Nat Tree)
    (name : Name Nat) :
    (function first quals result name).Notes d [] fun n => wanted n.within := by
  refine .skip .take fun opening => .skip (Allows.marks.run rfl rfl) fun params => ?_
  refine .skip (.orMissing rfl) fun _ => .skip .next fun x => .ite ?_ (ended_notes fun X => rfl)
  refine .bind (block_notes ih) fun b => .skip .extentFrom fun X => .pure rfl

theorem typed_notes (first : Nat) (quals : Qualifiers Nat Tree) :
    (typed first quals).Notes d [] fun n => wanted n.within := by
  refine .skip (typeSpec_confined .marks) fun type => .skip .expect fun name => ?_
  refine .skip .next fun x => .ite (function_notes ih _ _ _ _) ?_
  exact .use ih (.vars type name) fun ds => ended_notes fun X => wanted_vars X ⟨quals, type, ds⟩

theorem qualified_notes : qualified.Notes d [] fun n => wanted n.within := by
  refine .skip .position fun first => .skip (Allows.marks.run rfl rfl) fun quals => ?_
  refine .skip .next fun x => ?_
  split
  · exact struct_notes _ _
  · exact ended_notes fun X => rfl
  · refine .skip .second fun y => ?_
    split
    · exact interface_notes _ _
    · exact .skip (Allows.marks.run rfl rfl) fun ns => ended_notes fun X => rfl
    · exact .skip (Allows.marks.run rfl rfl) fun ns => ended_notes fun X => rfl
    · exact typed_notes ih _ _
  · exact .skip .position fun n => .reject

/-! ## Statements and items -/

theorem ifStatement_notes : ifStatement.Notes d [] fun n => wanted n.within := by
  refine .skip .take fun first => .skip (condition_confined .marks) fun c => ?_
  refine .use ih .statement fun yes => .skip .accept fun more => .ite ?_ ?_
  · refine .use ih .statement fun no => .skip .extentFrom fun X => .pure ?_
    exact (wanted_append yes.within no.within).symm
  · exact .skip .extentFrom fun X => .pure rfl

theorem cases_notes :
    Grammar.cases.Notes d [] fun cs => wanted (Node.inspectCases (fun _ => true) cs) := by
  have hmore : ∀ (word : Name Nat) (label : Option Tree), Procedure.Notes d [] (do
      colon
      let body ← run (.items .label)
      let c := Case.mk (← extentFrom word.mark) label body
      return c :: (← run .cases))
      fun cs => wanted (Node.inspectCases (fun _ => true) cs) := by
    intro word label
    refine .skip (.orMissing rfl) fun _ => .use ih (.items .label) fun body => ?_
    refine .skip .extentFrom fun X => .use ih .cases fun cs => .pure ?_
    exact (wanted_append (Node.inspectAll _ body) (Node.inspectCases _ cs)).symm
  refine .skip .next fun x => ?_
  split
  · exact .pure rfl
  · exact .pure rfl
  · refine .skip .expect fun word => .ite ?_ ?_
    · exact .skip (.map (Allows.marks.run rfl rfl)) fun label => hmore word label
    · exact hmore word none

theorem switchStatement_notes : switchStatement.Notes d [] fun n => wanted n.within := by
  refine .skip .take fun first => .skip (condition_confined .marks) fun selector => ?_
  refine .skip .expect fun opening => .use ih .cases fun cs => ?_
  exact .skip .expect fun closing => .skip .extentFrom fun X => .pure rfl

theorem whileStatement_notes : whileStatement.Notes d [] fun n => wanted n.within := by
  refine .skip .take fun first => .skip (condition_confined .marks) fun c => ?_
  exact .use ih .statement fun body => .skip .extentFrom fun X => .pure rfl

theorem doStatement_notes : doStatement.Notes d [] fun n => wanted n.within := by
  refine .skip .take fun first => .use ih .statement fun body => .skip .expect fun word => ?_
  exact .skip (condition_confined .marks) fun c => ended_notes fun X => rfl

/-- The first clause of a for statement counts as the node it stands for. -/
theorem forInit_notes : forInit.Notes d [] fun init => wanted init.node?.toList := by
  refine .skip .position fun first => .skip .next fun x => .skip .ahead fun declaration => ?_
  refine .ite (.skip .take fun _ => .pure rfl) (.ite ?_ ?_)
  · refine .skip (Allows.marks.run rfl rfl) fun quals => ?_
    refine .skip (typeSpec_confined .marks) fun type => .skip .expect fun name => ?_
    refine .use ih (.vars type name) fun ds => .skip .extentFrom fun X => ?_
    exact .skip (.orMissing rfl) fun _ => .pure (wanted_vars X ⟨quals, type, ds⟩).symm
  · refine .skip (Allows.marks.run rfl rfl) fun e => .skip .extentFrom fun X => ?_
    exact .skip (.orMissing rfl) fun _ => .pure rfl

theorem forStatement_notes : forStatement.Notes d [] fun n => wanted n.within := by
  refine .skip .take fun first => .skip (.orMissing rfl) fun _ => ?_
  refine .bind (forInit_notes ih) fun init => .skip (forCondition_confined .marks) fun c => ?_
  refine .skip (forUpdate_confined .marks) fun update => .use ih .statement fun body => ?_
  exact .skip .extentFrom fun X => .pure (wanted_append init.node?.toList body.within).symm

theorem statement_notes : Grammar.statement.Notes d [] fun n => wanted n.within := by
  have hmore : ∀ first : Nat, Procedure.Notes d [] (do
      let e ← run .expression
      statementEnd
      return Node.expression (← extentFrom first) e : Procedure Item) fun n => wanted n.within :=
    fun first => .skip (Allows.marks.run rfl rfl) fun e => ended_notes fun X => rfl
  refine .skip .position fun first => .skip .next fun x => ?_
  split
  · exact .bind (block_notes ih) fun b => .pure rfl
  · exact ifStatement_notes ih
  · exact switchStatement_notes ih
  · exact forStatement_notes ih
  · exact whileStatement_notes ih
  · exact doStatement_notes ih
  · exact returnStatement_notes
  · exact wordStatement_notes fun X => rfl
  · exact wordStatement_notes fun X => rfl
  · exact wordStatement_notes fun X => rfl
  · exact .skip .take fun word => .skip .extentFrom fun X => .pure rfl
  · exact hmore first

theorem item_notes : Grammar.item.Notes d [] fun n => wanted n.within := by
  refine .skip .position fun first => .skip .next fun x => ?_
  split
  · exact precision_notes
  · exact qualified_notes ih
  · exact qualified_notes ih
  · exact struct_notes _ _
  · exact .skip .ahead fun declaration => .ite (typed_notes ih _ _) (call ih .statement)
  · exact call ih .statement

theorem items_notes (stop : Stop) :
    (Grammar.items stop).Notes d [] fun ns => wanted (Node.inspectAll (fun _ => true) ns) := by
  refine .skip .next fun x => .ite (.pure rfl) ?_
  refine .use ih .item fun n => .use ih (.items stop) fun ns => .pure ?_
  exact (wanted_append n.within (Node.inspectAll _ ns)).symm

/-- The step: what the body of a rule notes. -/
theorem Rule.body_notes (r : Rule) : r.body.Notes d [] r.wanted := by
  cases h : r.isPart with
  | true => exact .quiet (r.part_confined h) fun a => Rule.wanted_of_isPart h a
  | false =>
    cases r with
    | item => exact item_notes ih
    | items stop => exact items_notes ih stop
    | statement => exact statement_notes ih
    | cases => exact cases_notes ih
    | vars type name => exact vars_notes ih type name
    | _ => cases h

end Rules

/-- Every run of a rule notes the conversions that its result needs, by induction on the depth of
calls. -/
theorem Rule.notes (d : Nat) : RulesNote d := by
  induction d with
  | zero =>
    intro r s t a h
    cases h
  | succ d ih =>
    intro r s t a h
    exact Rule.body_notes ih r (List.append_nil _).symm h

end Grammar

end ShaderRepair
