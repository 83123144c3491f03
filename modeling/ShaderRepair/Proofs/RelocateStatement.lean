import ShaderRepair.Proofs.RelocateDeclaration

/-!
# Statements and items among the same symbols elsewhere

A statement is the last thing that may come to the end of the symbols, and only there the two runs
see different symbols. This file contains:
- one lemma for each procedure of the rules for statements and items;
- `Relocation.relocatesRules`, the induction on the depth of calls.
-/

namespace ShaderRepair

namespace Grammar

open Procedure

variable {μ : Type}

/-! ## Clauses where no symbols are left -/

theorem starves_forCondition (d : Nat) : Starves d forCondition :=
  Starves.accept rfl (Starves.bind (Starves.run progresses_expression))

theorem starves_forUpdate (d : Nat) : Starves d forUpdate :=
  Starves.next (Starves.bind (Starves.run progresses_expression))

namespace Relocation

open Relocates

variable {ρ : Relocation μ} {d low : Nat} {x : Symbol}

/-- No other branch comes behind the symbols. -/
theorem no_else (ρ : Relocation μ) (y : Symbol) (hy : ρ.more.head? = some y) :
    (Expectation.kind .else).accepts y = false :=
  decide_eq_false (ρ.begins y hy).2

/-- What has been read up to some symbol, which may be the last one. -/
theorem closing_relocates {i i' : Nat} {f f' : Extent Nat → Item} (hi : ρ.Marks low i i')
    (hpos : 0 < low) (hR : ∀ X X', ρ.SameExtent X X' → ρ.SameItem (f X) (f' X')) :
    ρ.Relocates d .beyond low low x ρ.SameItem
      (Procedure.extentFrom i >>= fun X => Pure.pure (f X))
      (Procedure.extentFrom i' >>= fun X => Pure.pure (f' X)) :=
  bind_beyond (Relocates.extentFrom hi hpos) fun X X' _ hX => .pure (hR X X' hX) (Nat.le_refl _)

section Bodies

variable (h : ρ.RelocatesRules d)
include h

/-! ## Conditions and branches -/

theorem condition_relocates :
    ρ.Relocates d .within low low x ρ.SameTree condition condition := by
  refine bind (by decide) Relocates.leftParen fun _ _ _ _ => ?_
  refine bind (by decide) (h.free .expression rfl) fun c c' _ hc => ?_
  exact bind (by decide) Relocates.rightParen fun _ _ _ _ => .pure hc (Nat.le_succ _)

/-- Where the first branch comes to the end of the symbols, there is no other branch. -/
theorem ifStatement_relocates (hx : x.kind = .if) :
    ρ.Relocates d .upto low low x ρ.SameItem ifStatement ifStatement := by
  refine bind (by decide) (Relocates.take (.of_kind hx (by decide))) fun first first' _ hfirst => ?_
  refine bind (by decide) (condition_relocates h) fun c c' _ hc => ?_
  refine bind_upto (h.free .statement rfl) fun yes yes' _ hyes => ?_
  refine accept_beyond (fun y hy => .of_accepts hy (by decide)) rfl ρ.no_else (fun y => ?_)
    fun y => ?_
  · refine choose (fun _ => ?_) fun hfalse => absurd rfl hfalse
    refine bind_upto (h.free .statement rfl) fun no no' _ hno => ?_
    refine (closing_relocates (.inl hfirst.mark) (Nat.succ_pos _) fun X X' hX => ?_).mono
      (Nat.le_succ _) fun _ _ hn => hn
    simp only [SameItem, Node.map, hX, hc, hyes, hno]
  · refine choose nofun fun _ => ?_
    refine (closing_relocates (.inl hfirst.mark) (Nat.succ_pos _) fun X X' hX => ?_).mono
      (Nat.le_succ _) fun _ _ hn => hn
    simp only [SameItem, Node.map, hX, hc, hyes]

theorem cases_relocates :
    ρ.Relocates d .partly low low x ρ.SameCases Grammar.cases Grammar.cases := by
  -- What comes behind the label.
  have hmore : ∀ {word word' : Name Nat} {label label' : Option Tree}, ρ.SameName word word' →
      ρ.SameOption label label' → ∀ y, ρ.Relocates d .partly (low + 1) low y ρ.SameCases
        (do
          colon
          let body ← run (.items .label)
          let c := .mk (← Procedure.extentFrom word.mark) label body
          return c :: (← run .cases))
        (do
          colon
          let body ← run (.items .label)
          let c := .mk (← Procedure.extentFrom word'.mark) label' body
          return c :: (← run .cases)) := by
    intro word word' label label' hword hlabel y
    refine bind (by decide) Relocates.colon fun _ _ _ _ => ?_
    refine bind_partly (h.free (.items .label) rfl) fun body body' _ hbody => ?_
    refine bind_partly (Relocates.extentFrom (.inl hword.mark) (Nat.succ_pos _)) fun X X' _ hX => ?_
    refine bind_partly (h.free .cases rfl) fun cs cs' _ hcs => .pure ?_ (Nat.le_succ _)
    simp only [SameCases, Case.mapAll, Case.map, hX, hlabel, hbody, hcs]
  refine next (by decide) ?_ fun _ => rfl
  split
  · exact .pure rfl (Nat.le_refl _)
  · exact .pure rfl (Nat.le_refl _)
  · refine bind (by decide) (Relocates.expect fun y hy => .of_any hy (by decide))
      fun word word' y hword => ?_
    split
    · refine bind (by decide) (optional_relocates (h.free .expression rfl))
        fun label label' z hlabel => ?_
      exact (hmore hword hlabel z).later (Nat.le_succ _)
    · simp only [pure_bind]
      exact hmore hword rfl y

/-- The labels may come to the end of the symbols, but the brace behind them may not. -/
theorem switchStatement_relocates (hx : x.kind = .switch) :
    ρ.Relocates d .upto low low x ρ.SameItem switchStatement switchStatement := by
  refine bind (by decide) (Relocates.take (.of_kind hx (by decide))) fun first first' _ hfirst => ?_
  refine bind (by decide) (condition_relocates h) fun c c' _ hc => ?_
  refine bind (by decide) (Relocates.expect_kind (by decide)) fun _ _ _ _ => ?_
  refine bind_starved (.inr rfl) (h.free .cases rfl)
    (fun _ => Starves.bind (Starves.expect (by decide))) fun cs cs' _ hcs => ?_
  refine bind (by decide) (Relocates.expect_kind (by decide)) fun _ _ _ _ => ?_
  refine upto ((closing_relocates (.inl hfirst.mark) (Nat.succ_pos _) fun X X' hX => ?_).mono
    (Nat.le_add_right low 3) fun _ _ hn => hn)
  simp only [SameItem, Node.map, hX, hc, hcs]

/-! ## Loops -/

theorem whileStatement_relocates (hx : x.kind = .while) :
    ρ.Relocates d .upto low low x ρ.SameItem whileStatement whileStatement := by
  refine bind (by decide) (Relocates.take (.of_kind hx (by decide))) fun first first' _ hfirst => ?_
  refine bind (by decide) (condition_relocates h) fun c c' _ hc => ?_
  refine bind_upto (h.free .statement rfl) fun body body' _ hbody => ?_
  refine (closing_relocates (.inl hfirst.mark) (Nat.succ_pos _) fun X X' hX => ?_).mono
    (Nat.le_succ _) fun _ _ hn => hn
  simp only [SameItem, Node.map, hX, hc, hbody]

theorem doStatement_relocates (hx : x.kind = .do) :
    ρ.Relocates d .upto low low x ρ.SameItem doStatement doStatement := by
  refine bind (by decide) (Relocates.take (.of_kind hx (by decide))) fun first first' _ hfirst => ?_
  refine bind_starved (.inr rfl) (h.free .statement rfl).partly
    (fun _ => Starves.bind (Starves.expect (by decide))) fun body body' _ hbody => ?_
  refine bind (by decide) (Relocates.expect_kind (by decide)) fun _ _ _ _ => ?_
  refine bind (by decide) (condition_relocates h) fun c c' _ hc => ?_
  refine (ended_relocates (.inl hfirst.mark) (Nat.succ_pos _) fun X X' hX => ?_).mono
    (Nat.le_add_right low 2) fun _ _ hn => hn
  simp only [SameItem, Node.map, hX, hbody, hc]

/-- The semicolon of the clause may be the last symbol. -/
theorem forInit_relocates :
    ρ.Relocates d .partly low low x (fun i i' => i.map ρ.old ρ.tree = i'.map ρ.new ρ.tree')
      forInit forInit := by
  refine Relocates.position fun first hfirst => ?_
  have hmarks : ρ.Marks (first + 1) first (first + ρ.offset) := .passed (Nat.lt_succ_self first)
  refine next (by decide) (ahead (by decide) fun b => ?_) fun _ => rfl
  refine choose (fun hx => ?_) fun _ => choose (fun _ => ?_) fun _ => ?_
  · refine bind_partly (take_of_passable (.of_kind hx (by decide))).partly fun _ _ _ _ => ?_
    exact .pure rfl (Nat.le_succ_of_le hfirst)
  · refine bind (by decide) (h.free (.qualifiers rfl) rfl) fun q q' _ hq => ?_
    refine bind (by decide) (typeSpec_relocates h) fun type type' _ htype => ?_
    refine bind (by decide) (Relocates.expect_kind (by decide)) fun name name' _ hname => ?_
    refine bind (by decide) (h.free (.vars htype hname) rfl) fun ds ds' _ hds => ?_
    refine bind (by decide) (Relocates.extentFrom (hmarks.mono (Nat.le_succ _)) (Nat.succ_pos _))
      fun X X' _ hX => ?_
    refine bind_partly Relocates.clauseEnd fun _ _ _ _ =>
      .pure ?_ (Nat.le_trans hfirst (Nat.le_add_right first 2))
    simp only [ForInit.map, Variables.map, hX, hq, htype, hds]
  · refine bind (by decide) (h.free .expression rfl) fun e e' _ he => ?_
    refine bind (by decide) (Relocates.extentFrom hmarks (Nat.succ_pos _)) fun X X' _ hX => ?_
    refine bind_partly Relocates.clauseEnd fun _ _ _ _ => .pure ?_ (Nat.le_succ_of_le hfirst)
    simp only [ForInit.map, hX, he]

theorem forCondition_relocates :
    ρ.Relocates d .partly low low x ρ.SameOption forCondition forCondition := by
  have hpass : ∀ y, (Expectation.kind .semicolon).accepts y = true → Passable y :=
    fun y hy => .of_accepts hy (by decide)
  refine bind_partly (accept_of_passable hpass).partly ?_
  rintro _ b y rfl
  refine choose (fun _ => .pure rfl (Nat.le_refl _)) fun _ => ?_
  refine bind (by decide) (h.free .expression rfl) fun e e' _ he => ?_
  exact bind_partly Relocates.clauseEnd fun _ _ _ _ => .pure (congrArg some he) (Nat.le_succ _)

theorem forUpdate_relocates :
    ρ.Relocates d .within low low x ρ.SameOption forUpdate forUpdate := by
  refine next (by decide) ?_ fun _ => rfl
  split
  · exact bind (by decide) Relocates.rightParen fun _ _ _ _ => .pure rfl (Nat.le_refl _)
  · exact bind (by decide) Relocates.rightParen fun _ _ _ _ => .pure rfl (Nat.le_refl _)
  · refine bind (by decide) (h.free .expression rfl) fun e e' _ he => ?_
    exact bind (by decide) Relocates.rightParen
      fun _ _ _ _ => .pure (congrArg some he) (Nat.le_succ _)

/-- Behind the first two clauses a third one is needed. -/
theorem forStatement_relocates (hx : x.kind = .for) :
    ρ.Relocates d .upto low low x ρ.SameItem forStatement forStatement := by
  refine bind (by decide) (Relocates.take (.of_kind hx (by decide))) fun first first' _ hfirst => ?_
  refine bind (by decide) Relocates.leftParen fun _ _ _ _ => ?_
  refine bind_starved (.inr rfl) (forInit_relocates h)
    (fun _ => Starves.bind (starves_forCondition d)) fun init init' _ hinit => ?_
  refine bind_starved (.inr rfl) (forCondition_relocates h)
    (fun _ => Starves.bind (starves_forUpdate d)) fun c c' _ hc => ?_
  refine bind (by decide) (forUpdate_relocates h) fun u u' _ hu => ?_
  refine bind_upto (h.free .statement rfl) fun body body' _ hbody => ?_
  refine (closing_relocates (.inl hfirst.mark) (Nat.succ_pos _) fun X X' hX => ?_).mono
    (Nat.le_succ _) fun _ _ hn => hn
  simp only [SameItem, Node.map, hX, hinit, hc, hu, hbody]

/-! ## Other statements -/

/-- A line break before the value is the same one, since the keyword has been passed. -/
theorem returnStatement_relocates (hx : x.kind = .return) :
    ρ.Relocates d .upto low low x ρ.SameItem returnStatement returnStatement := by
  refine bind (by decide) (Relocates.take (.of_kind hx (by decide))) fun first first' y hfirst => ?_
  -- What comes behind the keyword, or behind the value.
  have hmore : ∀ {value value' : Option Tree}, ρ.SameOption value value' → ∀ z,
      ρ.Relocates d .upto (low + 1) low z ρ.SameItem
        (Procedure.statementEnd >>= fun _ => Procedure.extentFrom first.mark >>= fun X =>
          Pure.pure (Node.return X value))
        (Procedure.statementEnd >>= fun _ => Procedure.extentFrom first'.mark >>= fun X =>
          Pure.pure (Node.return X value')) := by
    intro value value' hvalue z
    refine (ended_relocates (.inl hfirst.mark) (Nat.succ_pos _) fun X X' hX => ?_).mono
      (Nat.le_succ _) fun _ _ hn => hn
    simp only [SameItem, Node.map, hX, hvalue]
  refine next_late (by decide) (Nat.succ_pos _) ?_
  split
  · simp only [pure_bind]
    exact hmore rfl y
  · simp only [pure_bind]
    exact hmore rfl y
  · simp only [pure_bind]
    exact hmore rfl y
  · split
    · simp only [pure_bind]
      exact hmore rfl y
    · refine bind (by decide) (optional_relocates (h.free .expression rfl))
        fun value value' z hvalue => ?_
      exact (hmore hvalue z).later (Nat.le_succ _)

omit h in
theorem wordStatement_relocates {node : Extent Nat → Item} (hx : Firm x)
    (hnode : ∀ X X', ρ.SameExtent X X' → ρ.SameItem (node X) (node X')) :
    ρ.Relocates d .upto low low x ρ.SameItem (wordStatement node) (wordStatement node) :=
  bind (by decide) (Relocates.take hx) fun _ _ _ hfirst =>
    (ended_relocates (.inl hfirst.mark) (Nat.succ_pos _) hnode).mono (Nat.le_succ _)
      fun _ _ hn => hn

/-- Of all statements only the empty one ends with a semicolon that is passed by itself. -/
theorem statement_relocates :
    ρ.Relocates d .upto low low x ρ.SameItem Grammar.statement Grammar.statement := by
  refine Relocates.position fun first hfirst => ?_
  have hmarks : ρ.Marks (first + 1) first (first + ρ.offset) := .passed (Nat.lt_succ_self first)
  refine Relocates.mono ?_ hfirst fun _ _ hn => hn
  refine next (by decide) ?_ fun _ => rfl
  split
  · refine bind (by decide) (block_relocates h) ?_
    rintro ⟨X, body⟩ ⟨X', body'⟩ y ⟨hX, hbody⟩
    refine .pure ?_ (Nat.le_succ _)
    simp only [SameItem, Node.map, hX, hbody]
  · next hx => exact ifStatement_relocates h hx
  · next hx => exact switchStatement_relocates h hx
  · next hx => exact forStatement_relocates h hx
  · next hx => exact whileStatement_relocates h hx
  · next hx => exact doStatement_relocates h hx
  · next hx => exact returnStatement_relocates h hx
  · next hx => exact wordStatement_relocates (.of_kind hx (by decide)) fun X X' hX => congrArg _ hX
  · next hx => exact wordStatement_relocates (.of_kind hx (by decide)) fun X X' hX => congrArg _ hX
  · next hx => exact wordStatement_relocates (.of_kind hx (by decide)) fun X X' hX => congrArg _ hX
  · next hx =>
    refine bind_upto (take_of_passable (.of_kind hx (by decide))) fun _ _ _ _ => ?_
    exact (closing_relocates hmarks (Nat.succ_pos _) fun X X' hX => congrArg _ hX).mono
      (Nat.le_succ _) fun _ _ hn => hn
  · refine bind (by decide) (h.free .expression rfl) fun e e' _ he => ?_
    refine (ended_relocates hmarks (Nat.succ_pos _) fun X X' hX => ?_).mono
      (Nat.le_succ _) fun _ _ hn => hn
    simp only [SameItem, Node.map, hX, he]

/-! ## Items -/

theorem item_relocates :
    ρ.Relocates d .upto low low x ρ.SameItem Grammar.item Grammar.item := by
  refine Relocates.position fun first hfirst => ?_
  have hmarks : ρ.Marks (first + 1) first (first + ρ.offset) := .passed (Nat.lt_succ_self first)
  refine Relocates.mono ?_ hfirst fun _ _ hn => hn
  refine next (by decide) ?_ fun _ => rfl
  split
  · next hx => exact precision_relocates h hx
  · exact qualified_relocates h
  · exact qualified_relocates h
  · next hx => exact struct_relocates h hx hmarks rfl
  · refine ahead (by decide) fun b => choose (fun _ => ?_) fun _ => h.free .statement rfl
    exact typed_relocates h hmarks rfl
  · exact h.free .statement rfl

theorem items_relocates (stop : Stop) :
    ρ.Relocates d .partly low low x ρ.SameItems (Grammar.items stop) (Grammar.items stop) := by
  refine next (by decide) (choose (fun _ => .pure rfl (Nat.le_refl _)) fun _ => ?_) fun _ => rfl
  refine bind_partly (h.free .item rfl).partly fun n n' _ hn => ?_
  refine bind_partly (h.free (.items stop) rfl) fun ns ns' _ hns => .pure ?_ (Nat.le_refl _)
  simp only [SameItems, Node.mapAll, hn, hns]

end Bodies

/-! ## All rules -/

/-- A call runs the body of the rule. -/
theorem Relocates.call {g : Range} {high : Nat} {r r' : Rule} {Q : r.Result → r'.Result → Prop}
    (h : ρ.Relocates d g low high x Q r.body r'.body) :
    ρ.Relocates (d + 1) g low high x Q (Procedure.run r) (Procedure.run r') := by
  intro s s' hs hx hlow
  rw [exec_run_succ, exec_run_succ]
  exact h hs hx hlow

/-- All rules do among the symbols met again what they do among those met first. -/
theorem relocatesRules (ρ : Relocation μ) (d : Nat) : ρ.RelocatesRules d := by
  induction d with
  | zero =>
    intro r r' Q _ low x _ s s' hs _ _ _
    exact ⟨_, s', rfl, hs.points []⟩
  | succ d ih =>
    intro r r' Q hr low x hlow
    refine Relocates.call ?_
    cases hr with
    | item => exact item_relocates ih
    | items stop => exact items_relocates ih stop
    | statement => exact statement_relocates ih
    | cases => exact cases_relocates ih
    | qualifiers hq => exact qualifiers_relocates ih hq
    | layoutParams => exact layoutParams_relocates ih
    | dims => exact dims_relocates ih
    | declarators => exact declarators_relocates ih
    | vars htype hname => exact vars_relocates ih htype hname
    | members => exact members_relocates ih
    | params => exact params_relocates ih
    | names => exact names_relocates ih
    | expression => exact expression_relocates ih
    | sequence => exact sequence_relocates ih
    | assignment => exact assignment_relocates ih
    | conditional => exact conditional_relocates ih
    | binary level => exact binary_relocates ih level
    | binaryRest level hleft => exact binaryRest_relocates ih level hleft
    | unary => exact unary_relocates ih
    | suffixes hobject => exact suffixes_relocates ih hobject (hlow rfl)
    | arguments => exact arguments_relocates ih
    | primary => exact primary_relocates ih
    | initializer => exact initializer_relocates ih
    | elements => exact elements_relocates ih

end Relocation

end Grammar

end ShaderRepair
