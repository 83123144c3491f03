import ShaderRepair.Proofs.RestoreExpression

/-!
# Restoring semicolons of declarations

Declarations, struct members and prototypes end in front of a semicolon that is gone. Qualifiers may
not be followed by one: with other qualifiers behind it they would go on. There is one lemma for
each procedure.
-/

namespace ShaderRepair

section Map

variable {μ ν ε η : Type} (f : μ → ν) (g : ε → η)

theorem Qualifiers.map_addLayout (found : Qualifiers μ ε) (ps : List (LayoutParam μ ε)) :
    (⟨found.layout ++ ps, found.words⟩ : Qualifiers μ ε).map f g =
      ⟨(found.map f g).layout ++ ps.map (LayoutParam.map f g), (found.map f g).words⟩ := by
  simp only [Qualifiers.map, List.map_append]

theorem Qualifiers.map_addWord (found : Qualifiers μ ε) (q : Qualifier μ) :
    (⟨found.layout, found.words ++ [q]⟩ : Qualifiers μ ε).map f g =
      ⟨(found.map f g).layout, (found.map f g).words ++ [q.map f]⟩ := by
  simp only [Qualifiers.map, List.map_append, List.map_cons, List.map_nil]

theorem Qualifiers.any_map (found : Qualifiers μ ε) (c : QualifierClass) :
    ((found.map f g).words.any fun q => q.kind = c) = found.words.any fun q => q.kind = c := by
  simp only [Qualifiers.map, List.any_map]
  rfl

end Map

namespace Grammar

open Procedure

namespace Omission

open Restores

variable {o : Omission} {d : Nat} {x : Symbol}

section Bodies

variable (h : o.RestoresRules d)
include h

/-! ## Qualifiers and types -/

theorem layoutParams_restores :
    o.Restores d x false [] noEnds (List.map (LayoutParam.map o.moved o.tree)) Grammar.layoutParams
      Grammar.layoutParams := by
  -- What follows the value is the same with a value and without one.
  have hmore : ∀ (name : Name Nat) (value : Option Tree) (y : Symbol),
      o.Restores d y false [] noEnds (List.map (LayoutParam.map o.moved o.tree))
        (do
          if ← Procedure.accept (.kind .comma) then
            return ⟨name, value⟩ :: (← run .layoutParams)
          else
            return [⟨name, value⟩])
        (do
          if ← Procedure.accept (.kind .comma) then
            return ⟨name.map o.moved, value.map o.tree⟩ :: (← run .layoutParams)
          else
            return [⟨name.map o.moved, value.map o.tree⟩]) := fun name value y =>
    accept rfl rfl (fun _ z => (h .layoutParams z).bind fun ps w => result rfl) (result rfl)
  refine next_if (fun z hz => Kind.ne_of_stops hz rfl) (fun _ => result rfl) (fun _ => ?_)
    fun _ _ _ => rfl
  refine expect rfl fun _ n y => accept rfl rfl (fun _ z => ?_) (hmore _ none y)
  exact (h .assignment z).optional.bind fun value w => hmore _ value w

theorem moreQualifiers (found : Qualifiers Nat Tree) (x : Symbol) :
    o.Restores d x true [] noEnds (Qualifiers.map o.moved o.tree) (run (.qualifiers found))
      (run (.qualifiers (found.map o.moved o.tree))) :=
  h (.qualifiers found) x

theorem qualifiers_restores (found : Qualifiers Nat Tree) :
    o.Restores d x true [] noEnds (Qualifiers.map o.moved o.tree) (Grammar.qualifiers found)
      (Grammar.qualifiers (found.map o.moved o.tree)) := by
  refine next_solid ?_ ?_ fun _ => rfl
  · split
    · next hx => exact .of_kind (by rw [hx]; exact Kind.noConfusion)
    · next hx => exact .of_kind (by rw [hx]; exact Kind.noConfusion)
    · exact .done
  split
  · next hx =>
    refine take (hx ▸ rfl) fun n y => expect rfl fun _ n' z => ?_
    refine (h .layoutParams z).bind fun ps w => orMissing rfl fun v => ?_
    have hmore := moreQualifiers h ⟨found.layout ++ ps, found.words⟩ v
    rw [Qualifiers.map_addLayout] at hmore
    exact hmore
  · next hx =>
    refine take (hx ▸ rfl) fun n y => ?_
    rw [Qualifiers.any_map]
    refine choose (fun _ => h (.qualifiers found) y) fun _ => ?_
    have hmore := moreQualifiers h
      ⟨found.layout, found.words ++ [⟨⟨x.lexeme, n⟩, x.tags.qualifier⟩]⟩ y
    rw [Qualifiers.map_addWord] at hmore
    exact hmore
  · exact result rfl

theorem dims_restores :
    o.Restores d x false [] noEnds (List.map (Option.map o.tree)) Grammar.dims Grammar.dims := by
  refine accept rfl rfl (fun _ y => ?_) (result rfl)
  have hmore : ∀ (size : Option Tree) (z : Symbol),
      o.Restores d z false [] noEnds (List.map (Option.map o.tree))
        (do
          let _ ← Procedure.expect [.kind .rightBracket]
          return size :: (← run .dims))
        (do
          let _ ← Procedure.expect [.kind .rightBracket]
          return size.map o.tree :: (← run .dims)) := fun size z =>
    expect rfl fun _ n w => (h .dims w).bind fun ds v => result rfl
  refine next_if (fun z hz => Kind.ne_of_stops hz rfl) (fun _ => hmore none y) (fun _ => ?_)
    fun _ _ _ => rfl
  exact (h .expression y).optional.bind fun size z => hmore size z

theorem typeSpec_restores :
    o.Restores d x false [] noEnds (TypeSpec.map o.moved o.tree) typeSpec typeSpec :=
  expect rfl fun _ _ y => (h .dims y).bind fun _ _ => result rfl

/-! ## Variables -/

theorem declarators_restores :
    o.Restores d x false [] noEnds (List.map (Declarator.map o.moved o.tree)) Grammar.declarators
      Grammar.declarators := by
  refine expect rfl fun _ n y => (h .dims y).bind fun ds z => ?_
  exact accept rfl rfl (fun _ w => (h .declarators w).bind fun more v => result rfl) (result rfl)

/-- Where a conversion is needed, a repair is noted. -/
theorem initialValue_restores (type : TypeSpec Nat Tree) (ds : List (Option Tree)) :
    o.Restores d x false [] noEnds (Option.map o.tree) (initialValue type ds)
      (initialValue (type.map o.moved o.tree) (ds.map (Option.map o.tree))) := by
  refine accept rfl rfl (fun _ y => somewhere fun n n' => ?_) (result rfl)
  refine (h .initializer y).bind fun e z => ?_
  have hneeds : (o.tree e).needsConversion type.name.text = e.needsConversion type.name.text :=
    Expr.needsConversion_congr (Expr.bare_map _ e) _
  have hsame : ((type.map o.moved o.tree).dims.isEmpty &&
      (ds.map (Option.map o.tree)).isEmpty &&
      (o.tree e).needsConversion (type.map o.moved o.tree).name.text) =
      (type.dims.isEmpty && ds.isEmpty && e.needsConversion type.name.text) := by
    simp only [TypeSpec.map, Name.map, List.isEmpty_map, hneeds]
  change o.Restores d z false [] noEnds (Option.map o.tree) _
    (if ((type.map o.moved o.tree).dims.isEmpty && (ds.map (Option.map o.tree)).isEmpty &&
      (o.tree e).needsConversion (type.map o.moved o.tree).name.text) = true then _ else _)
  rw [hsame]
  exact choose (fun _ => repair) fun _ => result rfl

theorem vars_restores (type : TypeSpec Nat Tree) (name : Name Nat) :
    o.Restores d x false [] noEnds (List.map (Declarator.map o.moved o.tree))
      (Grammar.vars type name)
      (Grammar.vars (type.map o.moved o.tree) (name.map o.moved)) := by
  refine (h .dims x).bind fun ds y => (initialValue_restores h type ds).bind fun init z => ?_
  refine accept rfl rfl (fun _ w => expect rfl fun _ n v => ?_) (result rfl)
  exact (h (.vars type _) v).bind fun more u => result rfl

/-! ## Functions -/

omit h in
theorem typeSpec_solid {α : Type} {shut : Bool} {held : List Nat} {ends : α → List Nat}
    {k : TypeSpec Nat Tree → Procedure α} : o.Solid d x shut held ends (typeSpec >>= k) := by
  rw [typeSpec, bind_assoc]
  exact .expect rfl

theorem param_restores :
    o.Restores d x false [] noEnds (Param.map o.moved o.tree) param param := by
  refine (h (.qualifiers ⟨[], []⟩) x).bind_shut (fun quals y => ?_) fun quals y => typeSpec_solid
  refine (typeSpec_restores h).bind fun type z => ?_
  refine next_if (fun w hw => Kind.ne_of_stops hw rfl) (fun hz => ?_) (fun _ => result rfl)
    fun _ _ _ => rfl
  exact take (hz ▸ rfl) fun n w => (h .dims w).bind fun ds v => result rfl

theorem params_restores :
    o.Restores d x true [] noEnds (List.map (Param.map o.moved o.tree)) Grammar.params
      Grammar.params := by
  refine next_solid (.of_semicolon fun hx => ?_) ?_ fun _ => rfl
  · rw [hx]
    exact .done
  have hmore : o.Restores d x true [] noEnds (List.map (Param.map o.moved o.tree))
      (do
        let p ← param
        if ← Procedure.accept (.kind .comma) then
          return p :: (← run .params)
        else
          return [p])
      (do
        let p ← param
        if ← Procedure.accept (.kind .comma) then
          return p :: (← run .params)
        else
          return [p]) := by
    refine (param_restores h).bind fun p y => ?_
    refine accept rfl rfl (fun _ z => ?_) (result rfl)
    exact (h .params z).bind_shut (fun ps w => result rfl) fun _ _ => .done
  split
  · exact result rfl
  · exact result rfl
  · exact result rfl
  · exact hmore

/-- Items in braces. -/
theorem block_restores :
    o.Restores d x false [] (fun b => Node.terminatorsAll b.2)
      (fun b => (b.1.map o.moved, Node.mapAll o.moved o.tree b.2)) Grammar.block Grammar.block := by
  refine expect rfl fun _ n y => (h (.items .brace) y).seq (fun body z => ?_) nofun
  exact expect rfl fun _ n' w => extentFrom fun X => Restores.pure (fun i hi => hi) rfl

theorem function_restores (first : Nat) (quals : Qualifiers Nat Tree) (result : TypeSpec Nat Tree)
    (name : Name Nat) (hx : x.kind = .leftParen) :
    o.Restores d x false [] Node.terminators (Node.map o.moved o.tree)
      (function first quals result name)
      (function (o.moved first) (quals.map o.moved o.tree) (result.map o.moved o.tree)
        (name.map o.moved)) := by
  refine take (hx ▸ rfl) fun _ y => ?_
  refine (h .params y).bind_shut (fun ps z => orMissing rfl fun w => ?_) fun _ _ => .orMissing rfl
  refine next_if (fun v hv => Kind.ne_of_stops hv rfl) (fun _ => ?_) (fun _ => ?_) fun _ _ _ => rfl
  · refine (block_restores h).seq (fun b v => ?_) nofun
    exact extentFrom fun X => Restores.pure (fun i hi => hi) rfl
  · exact statementEnd rfl (fun X i hi => .inr (List.mem_singleton.1 hi)) fun X => rfl

theorem typed_restores (first : Nat) (quals : Qualifiers Nat Tree) :
    o.Restores d x false [] Node.terminators (Node.map o.moved o.tree) (typed first quals)
      (typed (o.moved first) (quals.map o.moved o.tree)) := by
  refine (typeSpec_restores h).bind fun type y => expect rfl fun _ n z => ?_
  refine next_if (fun v hv => Kind.ne_of_stops hv rfl) (fun hz => ?_) (fun _ => ?_) fun _ _ _ => rfl
  · exact function_restores h first quals type _ hz
  · refine (h (.vars type _) z).bind fun ds w => ?_
    exact statementEnd rfl (fun X i hi => .inr (List.mem_singleton.1 hi)) fun X => rfl

/-! ## Structs and interface blocks -/

omit h in
theorem exec_qualifiers_of_semicolon {callee : (r : Rule) → State → Outcome r.Result} {s : State}
    (hs : s.next.kind = .semicolon) (found : Qualifiers Nat Tree) :
    (Grammar.qualifiers found).exec callee s = .accepted found s := by
  rw [Grammar.qualifiers, exec_bind, exec_next]
  simp only [hs]
  rfl

omit h in
/-- Qualifiers and a type do not begin with a semicolon. -/
theorem qualifiedType_solid {α : Type} {shut : Bool} {held : List Nat} {ends : α → List Nat}
    {k : Qualifiers Nat Tree → TypeSpec Nat Tree → Procedure α} :
    o.Solid d x shut held ends
      (run (.qualifiers ⟨[], []⟩) >>= fun quals => typeSpec >>= k quals) := by
  refine .of_semicolon fun hx s t a hrun _ _ => ?_
  obtain ⟨quals, m, hquals, htype⟩ := hrun.split
  have hsame : s = m := by
    cases d with
    | zero => cases hquals.accepted
    | succ d =>
      have hbody := hquals.accepted
      rw [exec_run_succ, Rule.body, exec_qualifiers_of_semicolon (hquals.next ▸ hx)] at hbody
      cases hbody
      rfl
  subst hsame
  rw [typeSpec, bind_assoc] at htype
  obtain ⟨w, u, hw, -⟩ := exec_bind_accepted.1 htype.accepted
  have hident := kind_of_expected (exec_expect_accepted.1 hw).1
  rw [hquals.next, hx] at hident
  cases hident

theorem member_restores :
    o.Restores d x false [] (fun l => [l.extent.last]) (Member.map o.moved o.tree) member
      member := by
  refine position (fun first => qualifiedType_solid) fun first => ?_
  refine (h (.qualifiers ⟨[], []⟩) x).bind_shut (fun quals y => ?_) fun quals y => typeSpec_solid
  refine (typeSpec_restores h).bind fun type z => (h .declarators z).bind fun ds w => ?_
  exact statementEnd rfl (fun X i hi => .inr (List.mem_singleton.1 hi)) fun X => rfl

theorem members_restores :
    o.Restores d x false [] (fun ls => ls.map fun l => l.extent.last)
      (List.map (Member.map o.moved o.tree)) Grammar.members Grammar.members := by
  have hmore : o.Restores d x false [] (fun ls => ls.map fun l => l.extent.last)
      (List.map (Member.map o.moved o.tree)) (member >>= fun m => return m :: (← run .members))
      (member >>= fun m => return m :: (← run .members)) := by
    refine (member_restores h).seq (fun m y => ?_) nofun
    exact (h .members y).seq (fun ms z => Restores.pure (fun i hi => hi) rfl) nofun
  refine next_solid (.of_semicolon fun hx => ?_) ?_ fun _ => rfl
  · rw [hx]
    simp only [member, bind_assoc]
    exact .position fun first => qualifiedType_solid
  split
  · exact Restores.pure (fun i hi => hi) rfl
  · exact Restores.pure (fun i hi => hi) rfl
  · exact hmore

theorem memberList_restores :
    o.Restores d x false [] (fun ls => ls.map fun l => l.extent.last)
      (List.map (Member.map o.moved o.tree)) memberList memberList := by
  refine expect rfl fun _ _ y => (h .members y).seq (fun ms z => ?_) nofun
  exact expect rfl fun _ _ w => Restores.pure (fun i hi => hi) rfl

theorem instances_restores :
    o.Restores d x false [] noEnds (List.map (Declarator.map o.moved o.tree)) instances
      instances := by
  refine next_if (fun z hz => ?_) (fun _ => h .declarators x) (fun _ => result rfl) fun _ _ _ => rfl
  have hident : z.kind ≠ .identifier := Kind.ne_of_stops hz rfl
  simp [hident]

theorem struct_restores (first : Nat) (quals : Qualifiers Nat Tree) (hx : x.kind = .struct) :
    o.Restores d x false [] Node.terminators (Node.map o.moved o.tree) (struct first quals)
      (struct (o.moved first) (quals.map o.moved o.tree)) := by
  have hmore : ∀ (name : Option (Name Nat)) (y : Symbol),
      o.Restores d y false [] Node.terminators (Node.map o.moved o.tree)
        (do
          let ms ← memberList
          let ds ← instances
          Procedure.statementEnd
          return .struct (← Procedure.extentFrom first) quals name ms ds)
        (do
          let ms ← memberList
          let ds ← instances
          Procedure.statementEnd
          return .struct (← Procedure.extentFrom (o.moved first)) (quals.map o.moved o.tree)
            (name.map (Name.map o.moved)) ms ds) := by
    refine fun name y => (memberList_restores h).seq (fun ms z => ?_) nofun
    refine (instances_restores h).bind fun ds w => ?_
    refine statementEnd rfl (fun X i hi => ?_) fun X => rfl
    exact (List.mem_append.1 hi).imp (fun hi => hi) List.mem_singleton.1
  refine take (hx ▸ rfl) fun _ y => ?_
  refine next_if (fun z hz => Kind.ne_of_stops hz rfl) (fun hy => ?_) (fun _ => hmore none y)
    fun _ _ _ => rfl
  rw [bind_map_left, bind_map_left]
  exact take (hy ▸ rfl) fun n z => hmore (some _) z

theorem interface_restores (first : Nat) (quals : Qualifiers Nat Tree) (hx : x.kind = .identifier) :
    o.Restores d x false [] Node.terminators (Node.map o.moved o.tree) (interface first quals)
      (interface (o.moved first) (quals.map o.moved o.tree)) := by
  refine take (hx ▸ rfl) fun _ y => (memberList_restores h).seq (fun ms z => ?_) nofun
  refine (instances_restores h).bind fun ds w => ?_
  refine statementEnd rfl (fun X i hi => ?_) fun X => rfl
  exact (List.mem_append.1 hi).imp (fun hi => hi) List.mem_singleton.1

/-! ## Declarations that begin with a word of their own -/

theorem names_restores :
    o.Restores d x false [] noEnds (List.map (Name.map o.moved)) Grammar.names Grammar.names := by
  refine expect rfl fun _ n y => ?_
  exact accept rfl rfl (fun _ z => (h .names z).bind fun ns w => result rfl) (result rfl)

theorem precision_restores (hx : x.kind = .precision) :
    o.Restores d x false [] Node.terminators (Node.map o.moved o.tree) Grammar.precision
      Grammar.precision := by
  refine take (hx ▸ rfl) fun first y => next_solid (.expect rfl) ?_ fun _ => rfl
  refine expect rfl fun _ n z => choose (fun _ => ?_) fun _ => reject
  refine (typeSpec_restores h).bind fun type w => ?_
  exact statementEnd rfl (fun X i hi => .inr (List.mem_singleton.1 hi)) fun X => rfl

/-- What follows qualifiers. A semicolon that ends them is not gone: with more qualifiers behind it
they would go on. -/
theorem qualified_restores (hx : x.kind ≠ .semicolon) :
    o.Restores d x false [] Node.terminators (Node.map o.moved o.tree) qualified qualified := by
  refine position (fun first => .of_kind hx) fun first => ?_
  refine (h (.qualifiers ⟨[], []⟩) x).bind_shut (fun quals y => ?_) fun quals y =>
    .of_semicolon fun hy => .next ?_
  swap
  · rw [hy]
    exact .statementEnd fun X => rfl
  refine next_solid (.of_semicolon fun hy => ?_) ?_ fun _ => rfl
  · rw [hy]
    exact .statementEnd fun X => rfl
  split
  · next hy => exact struct_restores h first quals hy
  · exact statementEnd rfl (fun X i hi => absurd hi List.not_mem_nil) fun X => rfl
  · -- Behind a name the next symbol tells a block, a list of names and a type apart. If that symbol
    -- ends a list of names, it is not among those that are gone.
    next hy =>
    refine second (hy ▸ rfl) (fun z => ?_) (fun z hz s t a hrun => ?_) fun z w hw => ?_
    · split
      · exact interface_restores h first quals hy
      · refine (h .names y).bind fun ns w => ?_
        exact statementEnd rfl (fun X i hi => absurd hi List.not_mem_nil) fun X => rfl
      · refine (h .names y).bind fun ns w => ?_
        exact statementEnd rfl (fun X i hi => absurd hi List.not_mem_nil) fun X => rfl
      · exact typed_restores h first quals
    · rw [hz] at hrun
      obtain ⟨ns, m, hnames, hend⟩ := hrun.split
      have hlt : s.passed < m.passed := by
        cases d with
        | zero => cases hnames.accepted
        | succ d => exact hnames.body.lt_of_expect rfl
      refine ⟨Nat.lt_of_le_of_lt hlt hend.lt_of_statementEnd, fun i hi => ?_⟩
      obtain ⟨u, m', -, hnode⟩ := hend.split
      cases hnode.accepted
      exact absurd hi List.not_mem_nil
    · simp only [hw]
  · exact somewhere fun _ _ => reject

end Bodies

end Omission

end Grammar

end ShaderRepair
