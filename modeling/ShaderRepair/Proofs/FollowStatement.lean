import ShaderRepair.Proofs.FollowDeclaration

/-!
# Descents through statements and items follow procedures

This file contains:
- one lemma for each procedure of the rules for statements and items;
- `Descent.Input.followsRules`, the induction on the depth of calls.
-/

namespace ShaderRepair

namespace Descent

namespace Input

open Grammar (Item Passable Procedure Rule Stop)

namespace Follows

variable {w : Input} {d low : Nat} {x : Symbol} {rules : Rules}

section Bodies

variable (h : w.FollowsRules d rules)
include h

/-! ## Conditions and branches -/

theorem condition :
    w.Follows d low (low + 1) x w.tree Grammar.condition (Descent.condition rules) := by
  refine bind leftParen fun _ _ => bind h.expression fun e _ => ?_
  exact bind (rightParen (Nat.succ_pos _)) fun _ _ => pure rfl (Nat.le_refl _)

theorem ifStatement (hx : Passable x) :
    w.Follows d low low x (Node.map w.token w.tree) Grammar.ifStatement
      (Descent.ifStatement rules) := by
  refine bind (take hx) fun first _ => bind (condition h) fun c _ => ?_
  refine bind h.statement fun yes _ => ?_
  refine accept_kind (by decide) (fun _ => ?_) ?_
  · refine bind h.statement fun no _ => ?_
    exact (closing rfl (Nat.succ_pos _) fun _ => rfl).mono (by omega)
  · exact (closing rfl (Nat.succ_pos _) fun _ => rfl).mono (by omega)

theorem cases :
    w.Follows d low low x (Case.mapAll w.token w.tree) Grammar.cases (Descent.cases rules) := by
  -- What comes behind the label.
  have hmore : ∀ {low' : Nat} (word : Name Nat) (label : Option Grammar.Tree) (y : Symbol),
      low < low' → w.Follows d low' low y (Case.mapAll w.token w.tree)
        (do
          Procedure.colon
          let body ← Procedure.run (.items .label)
          let c := .mk (← Procedure.extentFrom word.mark) label body
          return c :: (← Procedure.run .cases))
        (do
          Descent.colon
          let body ← rules.items .label
          let c := .mk (← Descent.extentFrom (word.map w.token).mark) (label.map w.tree) body
          return c :: (← rules.cases)) := by
    intro low' word label y hlt
    have hpos := Nat.zero_lt_of_lt hlt
    refine bind (colon hpos) fun _ _ => bind (h.items .label) fun body _ => ?_
    refine bind (extentFrom rfl hpos) fun X _ => bind h.cases fun cs _ => ?_
    exact pure rfl (Nat.le_of_lt hlt)
  refine next fun t ht => ?_
  split
  · next hx =>
    simp only [ht.kind, hx]
    exact pure rfl (Nat.le_refl _)
  · next hx =>
    simp only [ht.kind, hx]
    exact pure rfl (Nat.le_refl _)
  · simp only [ht.kind]
    refine bind (expect fun y hy => .of_any hy (by decide)) fun word _ => ?_
    refine choose Iff.rfl (fun _ => ?_) fun _ => ?_
    · exact bind (optional h.expression) fun label y => hmore word label y (by omega)
    · exact bind omitted fun label y => hmore word label y (by omega)

theorem switchStatement (hx : Passable x) :
    w.Follows d low low x (Node.map w.token w.tree) Grammar.switchStatement
      (Descent.switchStatement rules) := by
  refine bind (take hx) fun first _ => bind (condition h) fun selector _ => ?_
  refine bind (expect_kind (by decide)) fun _ _ => bind h.cases fun cs _ => ?_
  refine bind (expect_kind (by decide)) fun _ _ => ?_
  exact (closing rfl (Nat.succ_pos _) fun _ => rfl).mono (by omega)

/-! ## Loops -/

theorem whileStatement (hx : Passable x) :
    w.Follows d low low x (Node.map w.token w.tree) Grammar.whileStatement
      (Descent.whileStatement rules) := by
  refine bind (take hx) fun first _ => bind (condition h) fun c _ => ?_
  refine bind h.statement fun body _ => ?_
  exact (closing rfl (Nat.succ_pos _) fun _ => rfl).mono (by omega)

theorem doStatement (hx : Passable x) :
    w.Follows d low low x (Node.map w.token w.tree) Grammar.doStatement
      (Descent.doStatement rules) := by
  refine bind (take hx) fun first _ => bind h.statement fun body _ => ?_
  refine bind (expect_kind (by decide)) fun _ _ => bind (condition h) fun c _ => ?_
  exact (ending rfl (Nat.succ_pos _) fun _ => rfl).mono (by omega)

theorem forInit :
    w.Follows d low low x (ForInit.map w.token w.tree) Grammar.forInit
      (Descent.forInit rules) := by
  refine position_next fun i hi ht => ahead fun b => ?_
  rw [ht.kind]
  refine choose Iff.rfl (fun hx => ?_) fun _ => choose Iff.rfl (fun _ => ?_) fun _ => ?_
  · exact bind (take (.of_kind hx (by decide))) fun _ _ => pure rfl (by omega)
  · refine bind (h.qualifiers ⟨[], []⟩) fun quals _ => bind (typeSpec h) fun type _ => ?_
    refine bind (expect_kind (by decide)) fun name _ => bind (h.vars type name) fun ds _ => ?_
    refine bind (extentFrom rfl (Nat.succ_pos _)) fun X _ => ?_
    exact bind (clauseEnd (Nat.succ_pos _)) fun _ _ => pure rfl (by omega)
  · refine bind h.expression fun e _ => bind (extentFrom rfl (Nat.succ_pos _)) fun X _ => ?_
    exact bind (clauseEnd (Nat.succ_pos _)) fun _ _ => pure rfl (by omega)

theorem forCondition :
    w.Follows d low low x (Option.map w.tree) Grammar.forCondition
      (Descent.forCondition rules) := by
  refine accept_kind (by decide) (fun _ => pure rfl (Nat.le_succ _)) ?_
  refine bind h.expression fun e _ => ?_
  exact bind (clauseEnd (Nat.succ_pos _)) fun _ _ => pure rfl (Nat.le_succ _)

theorem forUpdate (hpos : 0 < low) :
    w.Follows d low low x (Option.map w.tree) Grammar.forUpdate (Descent.forUpdate rules) := by
  refine next fun t ht => ?_
  split
  · next hx =>
    simp only [ht.kind, hx]
    exact bind (rightParen hpos) fun _ _ => omitted
  · next hx =>
    simp only [ht.kind, hx]
    exact bind (rightParen hpos) fun _ _ => omitted
  · simp only [ht.kind]
    refine bind h.expression fun e _ => ?_
    exact bind (rightParen (Nat.succ_pos _)) fun _ _ => pure rfl (Nat.le_succ _)

theorem forStatement (hx : Passable x) :
    w.Follows d low low x (Node.map w.token w.tree) Grammar.forStatement
      (Descent.forStatement rules) := by
  refine bind (take hx) fun first _ => bind leftParen fun _ _ => bind (forInit h) fun init _ => ?_
  refine bind (forCondition h) fun c _ => bind (forUpdate h (Nat.succ_pos _)) fun update _ => ?_
  refine bind h.statement fun body _ => ?_
  exact (closing rfl (Nat.succ_pos _) fun _ => rfl).mono (by omega)

/-! ## Other statements -/

theorem returnStatement (hx : Passable x) :
    w.Follows d low low x (Node.map w.token w.tree) Grammar.returnStatement
      (Descent.returnStatement rules) := by
  refine bind (take hx) fun first _ => next_strict fun t u ht hu => ?_
  -- What comes behind the value.
  have hmore : ∀ {low' : Nat} (value : Option Grammar.Tree) (y : Symbol), low < low' →
      w.Follows d low' low y (Node.map w.token w.tree)
        (do
          Procedure.statementEnd
          return .return (← Procedure.extentFrom first.mark) value)
        (do
          Descent.statementEnd
          return .return (← Descent.extentFrom (first.map w.token).mark) (value.map w.tree)) :=
    fun value y hlt =>
      (ending rfl (Nat.zero_lt_of_lt hlt) fun _ => rfl).mono (Nat.le_of_lt hlt)
  split
  · next hx =>
    simp only [ht.kind, hx]
    exact bind omitted fun value y => hmore value y (by omega)
  · next hx =>
    simp only [ht.kind, hx]
    exact bind omitted fun value y => hmore value y (by omega)
  · next hx =>
    simp only [ht.kind, hx]
    exact bind omitted fun value y => hmore value y (by omega)
  · next hend =>
    simp only [ht.kind]
    -- Line breaks in front of the end of input make no symbol, but that one is ruled out here.
    refine choose (by rw [hu.broken hend]) (fun _ => ?_) fun _ => ?_
    · exact bind omitted fun value y => hmore value y (by omega)
    · exact bind (optional h.expression) fun value y => hmore value y (by omega)

omit h in
theorem wordStatement {f : Extent Nat → Item} {f' : Extent Token → Declaration} (hx : Passable x)
    (hf : ∀ X, f' (X.map w.token) = (f X).map w.token w.tree) :
    w.Follows d low low x (Node.map w.token w.tree) (Grammar.wordStatement f)
      (Descent.wordStatement f') := by
  refine bind (take hx) fun first _ => ?_
  exact (ending rfl (Nat.succ_pos _) hf).mono (Nat.le_succ _)

theorem statement :
    w.Follows d low low x (Node.map w.token w.tree) Grammar.statement
      (Descent.statement rules) := by
  refine position_next fun i hi ht => ?_
  -- The token has the kind of the symbol, so both bodies take the branch for that kind.
  split
  · next hx =>
    simp only [ht.kind, hx]
    exact bind (block h) fun body _ => pure rfl (by omega)
  · next hx =>
    simp only [ht.kind, hx]
    exact (ifStatement h (.of_kind hx (by decide))).mono hi
  · next hx =>
    simp only [ht.kind, hx]
    exact (switchStatement h (.of_kind hx (by decide))).mono hi
  · next hx =>
    simp only [ht.kind, hx]
    exact (forStatement h (.of_kind hx (by decide))).mono hi
  · next hx =>
    simp only [ht.kind, hx]
    exact (whileStatement h (.of_kind hx (by decide))).mono hi
  · next hx =>
    simp only [ht.kind, hx]
    exact (doStatement h (.of_kind hx (by decide))).mono hi
  · next hx =>
    simp only [ht.kind, hx]
    exact (returnStatement h (.of_kind hx (by decide))).mono hi
  · next hx =>
    simp only [ht.kind, hx]
    exact (wordStatement (.of_kind hx (by decide)) fun _ => rfl).mono hi
  · next hx =>
    simp only [ht.kind, hx]
    exact (wordStatement (.of_kind hx (by decide)) fun _ => rfl).mono hi
  · next hx =>
    simp only [ht.kind, hx]
    exact (wordStatement (.of_kind hx (by decide)) fun _ => rfl).mono hi
  · next hx =>
    simp only [ht.kind, hx]
    refine bind (take (.of_kind hx (by decide))) fun _ _ => ?_
    exact (closing rfl (Nat.succ_pos _) fun _ => rfl).mono (by omega)
  · simp only [ht.kind]
    refine bind h.expression fun e _ => ?_
    exact (ending rfl (Nat.succ_pos _) fun _ => rfl).mono (by omega)

/-! ## Items -/

theorem item :
    w.Follows d low low x (Node.map w.token w.tree) Grammar.item (Descent.item rules) := by
  refine position_next fun i hi ht => ?_
  split
  · next hx =>
    simp only [ht.kind, hx]
    exact (precision h (.of_kind hx (by decide))).mono hi
  · next hx =>
    simp only [ht.kind, hx]
    exact (qualified h).mono hi
  · next hx =>
    simp only [ht.kind, hx]
    exact (qualified h).mono hi
  · next hx =>
    simp only [ht.kind, hx]
    exact (struct h rfl (.of_kind hx (by decide)) ⟨[], []⟩).mono hi
  · next hx =>
    simp only [ht.kind, hx]
    refine ahead fun b => choose Iff.rfl (fun _ => ?_) fun _ => ?_
    · exact (typed h rfl ⟨[], []⟩).mono hi
    · exact h.statement.mono hi
  · simp only [ht.kind]
    exact h.statement.mono hi

theorem items (stop : Stop) :
    w.Follows d low low x (Node.mapAll w.token w.tree) (Grammar.items stop)
      (Descent.items rules stop) := by
  refine next fun t ht => choose (by rw [ht.ends]) (fun _ => pure rfl (Nat.le_refl _)) fun _ => ?_
  exact bind h.item fun n _ => bind (h.items stop) fun ns _ => pure rfl (Nat.le_refl _)

end Bodies

/-- A call runs the body. -/
theorem run (r : Rule) {β : Type} {f : r.Result → β} {high : Nat} {m : Step β}
    (h : w.Follows d low high x f r.body m) :
    w.Follows (d + 1) low high x f (Procedure.run r) m := by
  intro s q hs hx hlow
  rw [Grammar.exec_run_succ]
  exact h hs hx hlow

/-- No call succeeds where none may be made. -/
theorem stuck {α β : Type} {f : α → β} {high : Nat} {p : Procedure α}
    (hp : ∀ s, p.exec (Rule.run 0) s = .rejected ⟨s.passed, []⟩ s) :
    w.Follows 0 low high x f p Descent.stuck := by
  intro s q hs _ _
  rw [hp, Descent.stuck, run_peek, hs.look.1, run_fail, hs.source]
  exact ⟨q, rfl⟩

end Follows

theorem followsRules_none (w : Input) : w.FollowsRules 0 Rules.none := by
  constructor <;> intros <;> exact Follows.stuck fun _ => rfl

/-- Rules that call others go the way of the grammar, one call deeper. -/
theorem FollowsRules.around {w : Input} {d : Nat} {rules : Rules} (h : w.FollowsRules d rules) :
    w.FollowsRules (d + 1) rules.around where
  item := @fun _ _ => .run .item (.item h)
  items stop := @fun _ _ => .run (.items stop) (.items h stop)
  statement := @fun _ _ => .run .statement (.statement h)
  cases := @fun _ _ => .run .cases (.cases h)
  qualifiers found := @fun _ _ => .run (.qualifiers found) (.qualifiers h found)
  layoutParams := @fun _ _ => .run .layoutParams (.layoutParams h)
  dims := @fun _ _ => .run .dims (.dims h)
  declarators := @fun _ _ => .run .declarators (.declarators h)
  vars type name := @fun _ _ => .run (.vars type name) (.vars h type name)
  members := @fun _ _ => .run .members (.members h)
  params := @fun _ _ => .run .params (.params h)
  names := @fun _ _ => .run .names (.names h)
  expression := @fun _ _ => .run .expression (.expression h)
  sequence := @fun _ _ => .run .sequence (.sequence h)
  assignment := @fun _ _ => .run .assignment (.assignment h)
  conditional := @fun _ _ => .run .conditional (.conditional h)
  binary level := @fun _ _ => .run (.binary level) (.binary h level)
  binaryRest level left := @fun _ _ => .run (.binaryRest level left) (.binaryRest h level left)
  unary := @fun _ _ => .run .unary (.unary h)
  suffixes object := @fun _ _ => .run (.suffixes object) (.suffixes h object)
  arguments := @fun _ _ => .run .arguments (.arguments h)
  primary := @fun _ _ => .run .primary (.primary h)
  initializer := @fun _ _ => .run .initializer (.initializer h)
  elements := @fun _ _ => .run .elements (.elements h)

/-- All rules go the way of those of the grammar, by induction on the depth of calls. -/
theorem followsRules (w : Input) (d : Nat) : w.FollowsRules d (Descent.rules d) := by
  induction d with
  | zero => exact w.followsRules_none
  | succ d ih => exact ih.around

end Input

end Descent

end ShaderRepair
