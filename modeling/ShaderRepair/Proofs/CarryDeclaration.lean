import ShaderRepair.Proofs.CarryExpression

/-!
# Contracts of declarations

The rules for qualifiers, types, variables, functions, structs and interface blocks keep their
contracts. This file contains one lemma for each procedure.
-/

namespace ShaderRepair

namespace Grammar

open Passage Procedure

/-! ## Qualifiers and types -/

/-- The name of a layout parameter is an identifier, or the keyword `shared`. -/
theorem Adds.layoutName {x : Symbol}
    (h : ([.kind .identifier, .word .qualifier (Text.ascii "shared")] : List Expectation).any
      (fun e => e.accepts x) = true) :
    Adds x (if x.lexeme = Text.ascii "shared" then [] else [.identifier x.lexeme]) := by
  refine ⟨.of_any h (by decide), fun hord => ?_⟩
  simp only [List.any_cons, List.any_nil, Bool.or_false, Expectation.accepts, Bool.or_eq_true,
    Bool.and_eq_true, decide_eq_true_eq] at h
  obtain hkind | ⟨hkind, hword⟩ := h
  · rw [if_neg (hord.identifier hkind)]
    simp [Symbol.atom?, Atom.ofLexeme, hkind]
  · rw [if_pos hword]
    simp [Symbol.atom?, Atom.ofLexeme, hkind]

theorem LayoutParam.passages_eq (name : Name Nat) (value : Option Tree) :
    (⟨name, value⟩ : LayoutParam Nat Tree).passages =
      (if name.text = Text.ascii "shared" then [] else [.identifier name.text]).map .atom ++
        assigned value := by
  unfold LayoutParam.passages
  split <;> rfl

theorem layoutParams_delivers :
    Grammar.layoutParams.Delivers [] fun ps => ps.flatMap LayoutParam.passages := by
  intro s hs
  have hstart := Reaches.start hs
  refine .next ?_
  split
  · exact hstart.carries
  refine .expect (by simp) fun hname => ?_
  refine hstart.take (.layoutName hname) fun t _ h => ?_
  -- What follows the value is the same with a value and without one.
  have hmore : ∀ (value : Option Tree) (u : State),
      Reaches s [] u (⟨⟨s.next.lexeme, s.passed⟩, value⟩ : LayoutParam Nat Tree).passages →
      (do
        if ← accept (.kind .comma) then
          return ⟨⟨s.next.lexeme, s.passed⟩, value⟩ :: (← run .layoutParams)
        else
          return [⟨⟨s.next.lexeme, s.passed⟩, value⟩] :
        Procedure (List (LayoutParam Nat Tree))).Safe
        (fun ps v => Carries s v [] (ps.flatMap LayoutParam.passages)) u := by
    intro value u hu
    refine hu.accept_mark (by decide) (fun v _ hv => ?_) ?_
    · exact hv.use (.run .layoutParams) fun ps w _ hw => hw.carries
    · exact (hu.cast (by simp)).carries
  refine h.accept .equals (fun u _ hu => ?_) ?_
  · exact hu.use_some (.run .assignment) fun e v _ hv =>
      hmore (some e) v (hv.cast (by simp [LayoutParam.passages_eq, assigned, Rule.content]))
  · exact hmore none t (h.cast (by simp [LayoutParam.passages_eq, assigned]))

theorem qualifiers_delivers (found : Qualifiers Nat Tree) :
    (Grammar.qualifiers found).Delivers found.passages Qualifiers.passages := by
  intro s hs
  have hstart := Reaches.start hs
  have hmore : ∀ (q : Qualifiers Nat Tree) (t : State),
      Reaches s found.passages t q.passages →
      (run (.qualifiers q)).Safe (fun q' u => Carries s u found.passages q'.passages) t :=
    fun q t h => .tail (h.use_held (c := []) (.run (.qualifiers q)) fun _ u _ hu => hu.carries)
  refine .next ?_
  split
  · next hkind =>
    refine hstart.take_mark (by decide) hkind fun t _ h => ?_
    refine h.expect_mark (by decide) fun u _ hu => ?_
    refine hu.use (.run .layoutParams) fun params v _ hv => ?_
    refine hv.rightParen fun w _ hw => ?_
    exact hmore ⟨found.layout ++ params, found.words⟩ w
      (hw.cast (by simp [Qualifiers.passages, Rule.content]))
  · next hkind =>
    refine hstart.take_mark (by decide) hkind fun t _ h => ?_
    split
    · exact hmore found t h
    · exact hmore ⟨found.layout, found.words ++ [_]⟩ t h
  · exact hstart.carries

theorem dims_delivers : Grammar.dims.Delivers [] sizes := by
  intro s hs
  have hstart := Reaches.start hs
  refine hstart.accept_mark (by decide) (fun t _ h => .next ?_) hstart.carries
  split
  · refine h.expect_mark (by decide) fun u _ hu => ?_
    exact hu.use (.run .dims) fun ds v _ hv => hv.carries
  · refine h.use_some (.run .expression) fun size u _ hu => ?_
    refine hu.expect_mark (by decide) fun v _ hv => ?_
    exact hv.use (.run .dims) fun ds w _ hw => hw.carries

theorem typeSpec_delivers : Grammar.typeSpec.Delivers [] TypeSpec.passages := by
  intro s hs
  refine (Reaches.start hs).expect_name fun name t _ h => ?_
  exact h.use (.run .dims) fun ds u _ hu => hu.carries

/-! ## Variables -/

theorem declarators_delivers :
    Grammar.declarators.Delivers [] fun ds => ds.flatMap Declarator.passages := by
  intro s hs
  refine (Reaches.start hs).expect_name fun name t _ h => ?_
  refine h.use (.run .dims) fun dims u _ hu => ?_
  refine hu.accept_mark (by decide) (fun v _ hv => ?_) ?_
  · refine hv.use (.run .declarators) fun ds w _ hw => ?_
    exact (hw.cast (by simp [Declarator.passages, assigned, Rule.content])).carries
  · exact (hu.cast (by simp [Declarator.passages, assigned, Rule.content])).carries

theorem initialValue_delivers (type : TypeSpec Nat Tree) (dims : List (Option Tree)) :
    (Grammar.initialValue type dims).Delivers [] assigned := by
  intro s hs
  have hstart := Reaches.start hs
  refine hstart.accept .equals (fun t _ h => .position ?_) hstart.carries
  refine h.use (.run .initializer) fun e u hu h' => ?_
  -- The initializer takes place, so a conversion goes around symbols that have been passed.
  have hlt : t.passed < u.passed := hu.lt (by simp [Rule.content])
  split
  · refine ⟨fun type' first hm => ?_, (h'.same (.repair u _ [])).carries⟩
    cases hm
    exact hlt
  · exact h'.carries

theorem vars_delivers (type : TypeSpec Nat Tree) (name : Name Nat) :
    (Grammar.vars type name).Delivers [name.passage]
      fun ds => ds.flatMap Declarator.passages := by
  intro s hs
  refine (Reaches.start hs).use (.run .dims) fun dims t _ h => ?_
  refine h.use (initialValue_delivers type dims) fun init u _ hu => ?_
  refine hu.accept_mark (by decide) (fun v _ hv => ?_) ?_
  · refine hv.expect_name fun another w _ hw => ?_
    refine hw.use_held (.run (.vars type another)) fun ds z _ hz => ?_
    exact (hz.cast (by simp [Declarator.passages, Rule.content])).carries
  · exact (hu.cast (by simp [Declarator.passages, Rule.content])).carries

/-! ## Functions -/

theorem param_delivers : Grammar.param.Delivers [] Param.passages := by
  intro s hs
  refine (Reaches.start hs).use (.run (.qualifiers ⟨[], []⟩)) fun quals t _ h => ?_
  refine h.use typeSpec_delivers fun type u _ hu => .next ?_
  split
  · next hname =>
    refine hu.take_name hname fun name v _ hv => ?_
    refine hv.use (.run .dims) fun dims w _ hw => ?_
    exact (hw.cast (by simp [Param.passages, Rule.content])).carries
  · exact (hu.cast (by simp [Param.passages, Rule.content, sizes])).carries

theorem params_delivers : Grammar.params.Delivers [] fun ps => ps.flatMap Param.passages := by
  intro s hs
  have hstart := Reaches.start hs
  refine .next ?_
  split
  · exact hstart.carries
  · exact hstart.carries
  · exact hstart.carries
  · refine hstart.use param_delivers fun p t _ h => ?_
    refine h.accept_mark (by decide) (fun u _ hu => ?_) (h.cast (by simp)).carries
    exact hu.use (.run .params) fun ps v _ hv => hv.carries

theorem block_safe (s : State) :
    Grammar.block.Safe (fun b t => Fills s (.block b.1 b.2) t) s := by
  have hstart := Reaches.start (Holds.nil s)
  refine hstart.expect_mark (by decide) fun t ht h => ?_
  refine h.use (.run (.items .brace)) fun body u hu h' => ?_
  refine h'.expect_mark (by decide) fun v hv hv' => ?_
  have := hu.le
  refine .extentFrom ?_
  exact hv'.node (n := .block ⟨s.passed, v.passed - 1⟩ body) rfl (by omega) rfl

section Nodes

variable {s₀ s : State} {quals : Qualifiers Nat Tree}

theorem function_safe {result : TypeSpec Nat Tree} {name : Name Nat}
    (h : Reaches s₀ [] s (quals.passages ++ (result.passages ++ [name.passage])))
    (hnext : s.next.kind = .leftParen) :
    (Grammar.function s₀.passed quals result name).Safe (Fills s₀) s := by
  have hle := h.le
  refine h.take_mark (by decide) hnext fun t ht ht' => ?_
  refine ht'.use (.run .params) fun params u hu hu' => ?_
  refine hu'.rightParen fun v hv hv' => .next ?_
  have := hu.le
  have hsignature : Reaches s₀ [] v (Signature.passages ⟨quals, result, name, params⟩) :=
    hv'.cast (by simp [Signature.passages, Rule.content])
  split
  · refine .bind (block_safe v) fun b w hw => ?_
    have := hw.carries.le
    have hbody := hsignature.cast (List.append_nil _).symm |>.step hw.carries
    exact .extentFrom (hbody.node rfl (by omega) rfl)
  · refine hsignature.statementEnd fun w hw hw' => ?_
    exact .extentFrom (hw'.node rfl (by omega) rfl)

theorem typed_safe (h : Reaches s₀ [] s quals.passages) :
    (Grammar.typed s₀.passed quals).Safe (Fills s₀) s := by
  have hle := h.le
  refine h.use typeSpec_delivers fun type t ht ht' => ?_
  have htle := ht.le
  refine ht'.expect_name fun name u hu hu' => .next ?_
  split
  · next hnext => exact function_safe (hu'.cast (by simp)) hnext
  · refine hu'.use_held (.run (.vars type name)) fun ds v hv hv' => ?_
    have := hv.le
    refine hv'.statementEnd fun w hw hw' => .extentFrom ?_
    refine (hw'.cast ?_).node rfl (by omega) rfl
    simp [Node.parts, Variables.passages, Rule.content]

end Nodes

/-! ## Structs and interface blocks -/

theorem member_delivers : Grammar.member.Delivers [] fun m => [m.passage] := by
  intro s hs
  refine .position ?_
  refine (Reaches.start hs).use (.run (.qualifiers ⟨[], []⟩)) fun quals t ht h => ?_
  refine h.use typeSpec_delivers fun type u hu h' => ?_
  refine h'.use (.run .declarators) fun ds v hv hv' => ?_
  have hlt : t.passed < u.passed := hu.lt_of_atoms (by simp [TypeSpec.passages, Name.passage])
  have hle := ht.le
  have hle' := hv.le
  refine hv'.statementEnd fun w hw hw' => .extentFrom ?_
  exact (hw'.cast (by simp [Rule.content])).carries.span (by omega)

theorem members_delivers : Grammar.members.Delivers [] fun ms => ms.map Member.passage := by
  intro s hs
  have hstart := Reaches.start hs
  refine .next ?_
  split
  · exact hstart.carries
  · exact hstart.carries
  · refine hstart.use member_delivers fun m t _ h => ?_
    exact h.use (.run .members) fun ms u _ hu => hu.carries

theorem memberList_delivers : Grammar.memberList.Delivers [] fun ms => ms.map Member.passage := by
  intro s hs
  refine (Reaches.start hs).expect_mark (by decide) fun t _ h => ?_
  refine h.use (.run .members) fun ms u _ hu => ?_
  exact hu.expect_mark (by decide) fun v _ hv => hv.carries

theorem instances_delivers :
    Grammar.instances.Delivers [] fun ds => ds.flatMap Declarator.passages := by
  intro s hs
  refine .next ?_
  split
  · exact Delivers.run .declarators s hs
  · exact .refl s []

section Nodes

variable {s₀ s : State} {quals : Qualifiers Nat Tree}

theorem struct_safe (h : Reaches s₀ [] s quals.passages) (hnext : s.next.kind = .struct) :
    (Grammar.struct s₀.passed quals).Safe (Fills s₀) s := by
  have hle := h.le
  refine h.take_mark (by decide) hnext fun t ht ht' => .next ?_
  -- The rest of the declaration is the same with a name and without one.
  have hmore : ∀ (name : Option (Name Nat)) (u : State), t.passed ≤ u.passed →
      Reaches s₀ [] u (quals.passages ++ name.toList.map Name.passage) →
      (do
        let ms ← memberList
        let ds ← instances
        statementEnd
        return .struct (← extentFrom s₀.passed) quals name ms ds : Procedure Item).Safe
        (Fills s₀) u := by
    intro name u hu hu'
    refine hu'.use memberList_delivers fun ms v hv hv' => ?_
    refine hv'.use instances_delivers fun ds w hw hw' => ?_
    have hvle := hv.le
    have hwle := hw.le
    refine hw'.statementEnd fun z hz hz' => .extentFrom ?_
    exact (hz'.cast (by simp [Node.parts])).node rfl (by omega) rfl
  split
  · next hname =>
    rw [map_eq_pure_bind, bind_assoc]
    refine ht'.take_name hname fun name u hu hu' => ?_
    exact hmore (some name) u (by omega) hu'
  · exact hmore none t (Nat.le_refl _) (ht'.cast (by simp))

theorem interface_safe (h : Reaches s₀ [] s quals.passages) (hnext : s.next.kind = .identifier) :
    (Grammar.interface s₀.passed quals).Safe (Fills s₀) s := by
  have hle := h.le
  refine h.take_name hnext fun name t ht ht' => ?_
  refine ht'.use memberList_delivers fun ms u hu hu' => ?_
  refine hu'.use instances_delivers fun ds v hv hv' => ?_
  have hule := hu.le
  have hvle := hv.le
  refine hv'.statementEnd fun w hw hw' => .extentFrom ?_
  exact (hw'.cast (by simp [Node.parts])).node rfl (by omega) rfl

end Nodes

/-! ## Declarations that begin with a word of their own -/

theorem names_safe (s : State) :
    Grammar.names.Safe (fun ns t => Carries s t [] (ns.map Name.passage) ∧ ns ≠ []) s := by
  refine (Reaches.start (Holds.nil s)).expect_name fun name t _ h => ?_
  refine h.accept_mark (by decide) (fun u _ hu => ?_) ⟨h.carries, by simp⟩
  exact hu.use (.run .names) fun ns v _ hv => ⟨hv.carries, by simp⟩

theorem precision_safe {s : State} (hnext : s.next.kind = .precision) :
    Grammar.precision.Safe (Fills s) s := by
  have hstart := Reaches.start (Holds.nil s)
  refine hstart.take_mark (by decide) hnext fun t ht h => .next ?_
  refine h.expect_mark (by decide) fun u hu h' => ?_
  split
  · refine h'.use typeSpec_delivers fun type v hv hv' => ?_
    have hle := hv.le
    refine hv'.statementEnd fun w hw hw' => .extentFrom ?_
    exact hw'.node rfl (by omega) rfl
  · exact ⟨by simp only; omega, by simp [precisionWords]⟩

theorem qualified_safe (s : State) : Grammar.qualified.Safe (Fills s) s := by
  refine .position ?_
  refine (Reaches.start (Holds.nil s)).use (.run (.qualifiers ⟨[], []⟩)) fun quals t ht h => ?_
  have hle := ht.le
  -- Between commas there is at least one name.
  have hnames : (do
      let ns ← run .names
      statementEnd
      return .qualifiers (← extentFrom s.passed) quals ns : Procedure Item).Safe (Fills s) t := by
    refine h.call rfl fun ns u hu hu' => ?_
    have hlt : t.passed < u.passed := by
      refine hu.carries.lt_of_atoms ?_
      obtain ⟨n, ns, rfl⟩ := List.exists_cons_of_ne_nil hu.detail
      simp [Rule.content, Name.passage]
    refine hu'.statementEnd fun v hv hv' => .extentFrom ?_
    exact (hv'.cast (by simp [Node.parts, Rule.content])).node rfl (by omega) rfl
  refine .next ?_
  split
  · next hkind => exact struct_safe h hkind
  · next hkind =>
    refine h.statementEnd_of_semicolon hkind fun u hu hu' => .extentFrom ?_
    exact (hu'.cast (by simp [Node.parts, Rule.content])).node rfl (by omega) rfl
  · next hkind =>
    refine .second ?_
    split
    · exact interface_safe h hkind
    · exact hnames
    · exact hnames
    · exact typed_safe h
  · exact ⟨Nat.le_refl _, by simp⟩

end Grammar

end ShaderRepair
