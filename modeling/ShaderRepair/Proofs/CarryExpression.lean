import ShaderRepair.Proofs.Account

/-!
# Contracts of expressions

The rules for expressions keep their contracts. This file contains one lemma for each of them.
-/

namespace ShaderRepair

namespace Grammar

open Passage Procedure

/-! ## From sequences to conditionals -/

theorem expression_delivers : Grammar.expression.Delivers [] fun e => [.expr e] := by
  intro s hs
  refine (Reaches.start hs).use (.run .assignment) fun first t _ h => ?_
  refine .next ?_
  split
  · refine h.use (.run .sequence) fun more u _ h' => ?_
    exact .tail (h'.make_left (fun _ => rfl) (fun _ => rfl) fun e v _ hv => hv.carries)
  · exact h.carries

theorem sequence_delivers : Grammar.sequence.Delivers [] fun es => es.map .expr := by
  intro s hs
  refine (Reaches.start hs).accept_mark (by decide) (fun t _ h => ?_) (Reaches.start hs).carries
  refine h.use (.run .assignment) fun e u _ h' => ?_
  exact h'.use (.run .sequence) fun es v _ hv => hv.carries

theorem assignment_delivers : Grammar.assignment.Delivers [] fun e => [.expr e] := by
  intro s hs
  refine (Reaches.start hs).use (.run .conditional) fun left t _ h => ?_
  refine .next ?_
  split
  · next hop =>
    refine h.take (.operator hop) fun u _ hu => ?_
    refine hu.use (.run .assignment) fun right v _ hv => ?_
    exact .tail (hv.make_left (fun _ => rfl) (fun _ => rfl) fun e w _ hw => hw.carries)
  · exact h.carries

theorem conditional_delivers : Grammar.conditional.Delivers [] fun e => [.expr e] := by
  intro s hs
  refine (Reaches.start hs).use (.run (.binary .logicalOr)) fun condition t _ h => ?_
  refine .next ?_
  split
  · next hop =>
    refine h.take (.questionMark hop) fun u _ hu => ?_
    refine hu.use (.run .expression) fun yes v _ hv => ?_
    refine hv.colon fun w _ hw => ?_
    refine hw.use (.run .assignment) fun no z _ hz => ?_
    exact .tail (hz.make_left (fun _ => rfl) (fun _ => rfl) fun e y _ hy => hy.carries)
  · exact h.carries

/-! ## Operators -/

theorem binary_delivers (level : Level) :
    (Grammar.binary level).Delivers [] fun e => [.expr e] := by
  intro s hs
  have hstart := Reaches.start hs
  have hmore : ∀ (left : Tree) (t : State), Reaches s [] t [.expr left] →
      (run (.binaryRest level left)).Safe (fun e u => Carries s u [] [.expr e]) t :=
    fun left t h => .tail (h.use_held (c := []) (.run (.binaryRest level left)) fun e u _ hu =>
      hu.carries)
  unfold Grammar.binary
  cases level.tighter with
  | some tighter => exact hstart.use (.run (.binary tighter)) fun left t _ h => hmore left t h
  | none => exact hstart.use (.run .unary) fun left t _ h => hmore left t h

theorem binaryRest_delivers (level : Level) (left : Tree) :
    (Grammar.binaryRest level left).Delivers [.expr left] fun e => [.expr e] := by
  intro s hs
  have hstart := Reaches.start hs
  refine .next ?_
  split
  · next hop =>
    refine hstart.take (.operator hop) fun t _ h => ?_
    have hmore : ∀ (right : Tree) (u : State),
        Reaches s [.expr left] u [.expr left, .atom (.operator s.next.lexeme), .expr right] →
        (make left.note.first (fun x => .binary x level.family s.next.lexeme left right) >>=
          fun e => run (.binaryRest level e)).Safe
          (fun e v => Carries s v [.expr left] [.expr e]) u := by
      intro right u hu
      refine hu.make_left (fun _ => rfl) (fun _ => rfl) fun e v _ hv => ?_
      exact .tail (hv.use_held (c := []) (.run (.binaryRest level e)) fun a w _ hw => hw.carries)
    cases level.tighter with
    | some tighter => exact h.use (.run (.binary tighter)) fun right u _ hu => hmore right u hu
    | none => exact h.use (.run .unary) fun right u _ hu => hmore right u hu
  · exact hstart.carries

theorem unary_delivers : Grammar.unary.Delivers [] fun e => [.expr e] := by
  intro s hs
  have hstart := Reaches.start hs
  refine .next ?_
  split
  · next hop =>
    refine hstart.take (.operator hop) fun t ht h => ?_
    refine h.use (.run .unary) fun operand u hu h' => ?_
    have := hu.le
    exact .tail (h'.make rfl (fun _ => rfl) (by omega) fun e v _ hv => hv.carries)
  · refine hstart.use (.run .primary) fun object t _ h => ?_
    exact .tail (h.use_held (c := []) (.run (.suffixes object)) fun e u _ hu => hu.carries)

theorem suffixes_delivers (object : Tree) :
    (Grammar.suffixes object).Delivers [.expr object] fun e => [.expr e] := by
  intro s hs
  have hstart := Reaches.start hs
  -- Every suffix makes an expression around the object and goes on with it.
  have hmore : ∀ (e : Tree) (t : State), Reaches s [.expr object] t [.expr e] →
      (run (.suffixes e)).Safe (fun a u => Carries s u [.expr object] [.expr a]) t :=
    fun e t h => .tail (h.use_held (c := []) (.run (.suffixes e)) fun a u _ hu => hu.carries)
  refine .next ?_
  split
  · next hdot =>
    refine hstart.take_mark (by decide) hdot fun t _ h => ?_
    refine h.expect_name fun name u _ hu => ?_
    exact hu.make_left (fun _ => rfl) (fun _ => rfl) fun e v _ hv => hmore e v hv
  split
  · next hbracket =>
    refine hstart.take_mark (by decide) hbracket fun t _ h => ?_
    refine .next ?_
    split
    · next hclose =>
      refine h.take_mark (by decide) hclose fun u _ hu => ?_
      exact hu.make_left (fun _ => rfl) (fun _ => rfl) fun e v _ hv => hmore e v hv
    · refine h.use (.run .expression) fun position u _ hu => ?_
      refine hu.expect_mark (by decide) fun v _ hv => ?_
      exact hv.make_left (fun _ => rfl) (fun _ => rfl) fun e w _ hw => hmore e w hw
  split
  · next hparen =>
    have hkind : s.next.kind = .leftParen := by
      simp only [Bool.and_eq_true, decide_eq_true_eq] at hparen
      exact hparen.1
    refine hstart.take_mark (by decide) hkind fun t _ h => ?_
    refine h.use (.run .arguments) fun args u _ hu => ?_
    refine hu.rightParen fun v _ hv => ?_
    exact hv.make_left (fun _ => rfl) (fun _ => rfl) fun e w _ hw => hmore e w hw
  split
  · next hop =>
    have hplays : s.next.plays .trailing = true := by
      simp only [Bool.and_eq_true] at hop
      exact hop.1
    refine hstart.take (.operator hplays) fun t _ h => ?_
    exact h.make_left (fun _ => rfl) (fun _ => rfl) fun e v _ hv => hmore e v hv
  · exact hstart.carries

theorem arguments_delivers : Grammar.arguments.Delivers [] fun es => es.map .expr := by
  intro s hs
  have hstart := Reaches.start hs
  refine .next ?_
  split
  · exact hstart.carries
  · refine hstart.use (.run .assignment) fun e t _ h => ?_
    refine h.accept_mark (by decide) (fun u _ hu => ?_) (.next ?_)
    · exact hu.use (.run .arguments) fun es v _ hv => hv.carries
    · split
      · refine h.comma fun u _ hu => ?_
        exact hu.use (.run .arguments) fun es v _ hv => hv.carries
      · exact h.carries

/-! ## Operands -/

theorem primary_delivers : Grammar.primary.Delivers [] fun e => [.expr e] := by
  intro s hs
  have hstart := Reaches.start hs
  refine .next ?_
  split
  · next hkind =>
    refine hstart.take_mark (by decide) hkind fun t _ h => ?_
    refine h.use (.run .expression) fun inner u _ hu => ?_
    refine hu.rightParen fun v _ hv => ?_
    obtain ⟨base, hb⟩ := hv.carries.holds hs
    refine ⟨⟨inner, base, hb, by cases inner <;> rfl⟩, ?_⟩
    exact hv.widen.carries
  · next hkind =>
    refine hstart.take (.literal hkind) fun t ht h => ?_
    exact .tail (h.make rfl (fun _ => rfl) (by omega) fun e u _ hu => hu.carries)
  · next hkind =>
    refine hstart.take (.identifier hkind) fun t ht h => ?_
    exact .tail (h.make rfl (fun _ => rfl) (by omega) fun e u _ hu => hu.carries)
  · exact ⟨Nat.le_refl _, by simp⟩

/-! ## Initializers -/

theorem initializer_delivers : Grammar.initializer.Delivers [] fun e => [.expr e] := by
  intro s hs
  have hstart := Reaches.start hs
  refine .next ?_
  split
  · next hkind =>
    refine hstart.take_mark (by decide) hkind fun t ht h => ?_
    refine h.use (.run .elements) fun items u hu h' => ?_
    refine h'.expect_mark (by decide) fun v hv hv' => ?_
    have := hu.le
    exact .tail (hv'.make rfl (fun _ => rfl) (by omega) fun e w _ hw => hw.carries)
  · exact Delivers.run .assignment s hs

theorem elements_delivers : Grammar.elements.Delivers [] fun es => es.map .expr := by
  intro s hs
  have hstart := Reaches.start hs
  refine .next ?_
  split
  · exact hstart.carries
  · refine hstart.use (.run .initializer) fun e t _ h => ?_
    refine .next ?_
    split
    · refine h.comma fun u _ hu => ?_
      exact hu.use (.run .elements) fun es v _ hv => hv.carries
    · exact h.carries

end Grammar

end ShaderRepair
