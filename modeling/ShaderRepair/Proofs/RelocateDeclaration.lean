import ShaderRepair.Proofs.RelocateExpression

/-!
# Declarations among the same symbols elsewhere

A declaration that is met again is read again, to a node that shows the same. This file contains one
lemma for each procedure of the rules for declarations. What may end with a semicolon may come to
the end of the symbols; lists of members end there too, but a closing brace is missing then.
-/

namespace ShaderRepair

namespace Grammar

open Procedure

variable {α β μ : Type}

namespace Relocation

open Relocates

variable {ρ : Relocation μ} {d low : Nat} {x : Symbol}

/-! ## Ends of declarations -/

/-- What has begun at some symbol ends with a semicolon. -/
theorem ending_relocates {mid : Nat} {R : α → β → Prop} {i i' : Nat} {f : Extent Nat → α}
    {f' : Extent Nat → β} (hmid : mid ≤ if x.kind = .semicolon then low + 1 else low)
    (hi : ρ.Marks mid i i') (hpos : 0 < mid)
    (hR : ∀ X X', ρ.SameExtent X X' → R (f X) (f' X')) :
    ρ.Relocates d .beyond low mid x R
      (statementEnd >>= fun _ => Procedure.extentFrom i >>= fun X => Pure.pure (f X))
      (statementEnd >>= fun _ => Procedure.extentFrom i' >>= fun X => Pure.pure (f' X)) := by
  refine bind_beyond (Relocates.statementEnd.mono hmid fun _ _ h => h) fun _ _ y _ => ?_
  refine bind_beyond (Relocates.extentFrom hi hpos) fun X X' _ hX => ?_
  exact .pure (hR X X' hX) (Nat.le_refl _)

/-- So does what has begun at a symbol that has been passed. -/
theorem ended_relocates {R : α → β → Prop} {i i' : Nat} {f : Extent Nat → α}
    {f' : Extent Nat → β} (hi : ρ.Marks low i i') (hpos : 0 < low)
    (hR : ∀ X X', ρ.SameExtent X X' → R (f X) (f' X')) :
    ρ.Relocates d .upto low low x R
      (statementEnd >>= fun _ => Procedure.extentFrom i >>= fun X => Pure.pure (f X))
      (statementEnd >>= fun _ => Procedure.extentFrom i' >>= fun X => Pure.pure (f' X)) := by
  refine upto (ending_relocates ?_ hi hpos hR)
  split
  · exact Nat.le_succ _
  · exact Nat.le_refl _

/-- What may be left out. -/
theorem optional_relocates {high : Nat} {p p' : Procedure Tree}
    (hp : ρ.Relocates d .within low high x ρ.SameTree p p') :
    ρ.Relocates d .within low high x ρ.SameOption (some <$> p) (some <$> p') :=
  Relocates.map (by decide) hp fun _ _ he => congrArg some he

section Bodies

variable (h : ρ.RelocatesRules d)
include h

/-! ## Qualifiers and types -/

theorem layoutParams_relocates :
    ρ.Relocates d .within low low x ρ.SameLayout Grammar.layoutParams Grammar.layoutParams := by
  -- What comes behind a parameter, with or without a value.
  have hmore : ∀ {name name' : Name Nat} {value value' : Option Tree}, ρ.SameName name name' →
      ρ.SameOption value value' → ∀ y, ρ.Relocates d .within low low y ρ.SameLayout
        (do
          if ← Procedure.accept (.kind .comma) then
            return ⟨name, value⟩ :: (← run .layoutParams)
          else
            return [⟨name, value⟩])
        (do
          if ← Procedure.accept (.kind .comma) then
            return ⟨name', value'⟩ :: (← run .layoutParams)
          else
            return [⟨name', value'⟩]) := by
    intro name name' value value' hname hvalue y
    have hparam : LayoutParam.map ρ.old ρ.tree ⟨name, value⟩ =
        LayoutParam.map ρ.new ρ.tree' ⟨name', value'⟩ := congrArg₂ _ hname hvalue
    refine bind (by decide) (Relocates.accept fun y hy => .of_accepts hy (by decide)) ?_
    rintro _ b y rfl
    refine choose (fun _ => ?_) fun _ => .pure (congrArg (· :: []) hparam) (Nat.le_refl _)
    exact bind (by decide) (h.free .layoutParams rfl) fun ps ps' _ hps =>
      .pure (congrArg₂ List.cons hparam hps) (Nat.le_refl _)
  refine next (by decide) (choose (fun _ => .pure rfl (Nat.le_refl _)) fun _ => ?_) fun _ => rfl
  refine bind (by decide) (Relocates.expect fun y hy => .of_any hy (by decide))
    fun name name' _ hname => ?_
  refine bind (by decide) (Relocates.accept fun y hy => .of_accepts hy (by decide)) ?_
  rintro _ b y rfl
  refine choose (fun _ => ?_) fun _ => (hmore hname rfl y).later (Nat.le_succ _)
  refine bind (by decide) (optional_relocates (h.free .assignment rfl))
    fun value value' z hvalue => ?_
  exact (hmore hname hvalue z).later (Nat.le_add_right low 2)

theorem qualifiers_relocates {q q' : Qualifiers Nat Tree} (hq : ρ.SameQualifiers q q') :
    ρ.Relocates d .within low low x ρ.SameQualifiers (Grammar.qualifiers q)
      (Grammar.qualifiers q') := by
  have hlayout : q.layout.map (LayoutParam.map ρ.old ρ.tree) =
      q'.layout.map (LayoutParam.map ρ.new ρ.tree') := congrArg Qualifiers.layout hq
  have hwords : q.words.map (Qualifier.map ρ.old) = q'.words.map (Qualifier.map ρ.new) :=
    congrArg Qualifiers.words hq
  refine next (by decide) ?_ fun _ => rfl
  split
  · next hk =>
    refine bind (by decide) (Relocates.take (.of_kind hk (by decide))) fun _ _ _ _ => ?_
    refine bind (by decide) (Relocates.expect_kind (by decide)) fun _ _ _ _ => ?_
    refine bind (by decide) (h.free .layoutParams rfl) fun ps ps' _ hps => ?_
    refine bind (by decide) Relocates.rightParen fun _ _ _ _ => ?_
    have hmore : ρ.SameQualifiers ⟨q.layout ++ ps, q.words⟩ ⟨q'.layout ++ ps', q'.words⟩ := by
      simp only [SameQualifiers, Qualifiers.map, List.map_append, hlayout, hps, hwords]
    exact (h.free (.qualifiers hmore) rfl).mono (Nat.le_add_right low 2) fun _ _ hq => hq
  · next hk =>
    refine bind (by decide) (Relocates.take (.of_kind hk (by decide))) fun word word' _ hword => ?_
    -- Whether a class is taken shows in what the qualifiers show.
    have hany : (q'.words.any fun w => w.kind = x.tags.qualifier) =
        q.words.any fun w => w.kind = x.tags.qualifier := by
      have hkinds := congrArg (List.any · fun w => decide (w.kind = x.tags.qualifier)) hwords
      simp only [List.any_map, Function.comp_def, Qualifier.map] at hkinds
      exact hkinds.symm
    rw [hany]
    refine choose (fun _ => ?_) fun _ => ?_
    · exact (h.free (.qualifiers hq) rfl).mono (Nat.le_succ _) fun _ _ hq => hq
    · have hmore : ρ.SameQualifiers ⟨q.layout, q.words ++ [⟨word, x.tags.qualifier⟩]⟩
          ⟨q'.layout, q'.words ++ [⟨word', x.tags.qualifier⟩]⟩ := by
        simp only [SameQualifiers, Qualifiers.map, List.map_append, List.map_cons, List.map_nil,
          Qualifier.map, hlayout, hwords, hword]
      exact (h.free (.qualifiers hmore) rfl).mono (Nat.le_succ _) fun _ _ hq => hq
  · exact .pure hq (Nat.le_refl _)

theorem dims_relocates :
    ρ.Relocates d .within low low x ρ.SameDims Grammar.dims Grammar.dims := by
  have hmore : ∀ {size size' : Option Tree}, ρ.SameOption size size' → ∀ y,
      ρ.Relocates d .within low low y ρ.SameDims
        (do
          let _ ← Procedure.expect [.kind .rightBracket]
          return size :: (← run .dims))
        (do
          let _ ← Procedure.expect [.kind .rightBracket]
          return size' :: (← run .dims)) := by
    intro size size' hsize y
    refine bind (by decide) (Relocates.expect_kind (by decide)) fun _ _ _ _ => ?_
    exact bind (by decide) (h.free .dims rfl) fun ds ds' _ hds =>
      .pure (congrArg₂ List.cons hsize hds) (Nat.le_succ _)
  refine bind (by decide) (Relocates.accept fun y hy => .of_accepts hy (by decide)) ?_
  rintro _ b y rfl
  refine choose (fun _ => ?_) fun _ => .pure rfl (Nat.le_refl _)
  refine next (by decide) (choose (fun _ => hmore rfl y) fun _ => ?_) fun _ => rfl
  exact bind (by decide) (optional_relocates (h.free .expression rfl)) fun size size' z hsize =>
    (hmore hsize z).later (Nat.le_succ _)

theorem typeSpec_relocates :
    ρ.Relocates d .within low (low + 1) x ρ.SameType typeSpec typeSpec := by
  refine bind (by decide) (Relocates.expect_kind (by decide)) fun name name' _ hname => ?_
  exact bind (by decide) (h.free .dims rfl)
    fun ds ds' _ hds => .pure (congrArg₂ _ hname hds) (Nat.le_refl _)

/-! ## Variables -/

theorem declarators_relocates :
    ρ.Relocates d .within low low x ρ.SameDeclarators Grammar.declarators
      Grammar.declarators := by
  refine bind (by decide) (Relocates.expect_kind (by decide)) fun name name' _ hname => ?_
  refine bind (by decide) (h.free .dims rfl) fun ds ds' _ hds => ?_
  have hone : Declarator.map ρ.old ρ.tree ⟨name, ds, none⟩ =
      Declarator.map ρ.new ρ.tree' ⟨name', ds', none⟩ := by
    simp only [Declarator.map, hname, hds, Option.map_none]
  refine bind (by decide) (Relocates.accept fun y hy => .of_accepts hy (by decide)) ?_
  rintro _ b y rfl
  refine choose (fun _ => ?_) fun _ => .pure (congrArg (· :: []) hone) (Nat.le_succ _)
  exact bind (by decide) (h.free .declarators rfl) fun more more' _ hmore =>
    .pure (congrArg₂ List.cons hone hmore) (Nat.le_succ _)

/-- Whether a conversion is needed shows in what type, dimensions and initializer show. -/
theorem initialValue_relocates {type type' : TypeSpec Nat Tree} {ds ds' : List (Option Tree)}
    (htype : ρ.SameType type type') (hds : ρ.SameDims ds ds') :
    ρ.Relocates d .within low low x ρ.SameOption (initialValue type ds)
      (initialValue type' ds') := by
  have htext : type'.name.text = type.name.text :=
    (congrArg (fun t : TypeSpec μ (Expr (Extent μ)) => t.name.text) htype).symm
  have hempty : ∀ {ds ds' : List (Option Tree)}, ρ.SameDims ds ds' →
      ds'.isEmpty = ds.isEmpty := by
    intro ds ds' hds
    have hlen := congrArg List.isEmpty hds
    rwa [List.isEmpty_map, List.isEmpty_map, eq_comm] at hlen
  have htypeDims : type'.dims.isEmpty = type.dims.isEmpty :=
    hempty (congrArg TypeSpec.dims htype)
  refine bind (by decide) (Relocates.accept fun y hy => .of_accepts hy (by decide)) ?_
  rintro _ b y rfl
  refine choose (fun _ => ?_) fun _ => .pure rfl (Nat.le_refl _)
  refine Relocates.position fun first hfirst => ?_
  refine bind (by decide) (h.free .initializer rfl) fun e e' z he => ?_
  rw [htypeDims, hempty hds, htext, ← Expr.needsConversion_congr he.bare]
  refine choose (fun _ => ?_) fun _ => .pure (congrArg some he) hfirst
  exact bind (by decide) (Relocates.note fun _ => rfl)
    fun _ _ _ _ => .pure (congrArg some he) hfirst

theorem vars_relocates {type type' : TypeSpec Nat Tree} {name name' : Name Nat}
    (htype : ρ.SameType type type') (hname : ρ.SameName name name') :
    ρ.Relocates d .within low low x ρ.SameDeclarators (Grammar.vars type name)
      (Grammar.vars type' name') := by
  refine bind (by decide) (h.free .dims rfl) fun ds ds' _ hds => ?_
  refine bind (by decide) (initialValue_relocates h htype hds) fun init init' _ hinit => ?_
  have hone : Declarator.map ρ.old ρ.tree ⟨name, ds, init⟩ =
      Declarator.map ρ.new ρ.tree' ⟨name', ds', init'⟩ := by
    simp only [Declarator.map, hname, hds, hinit]
  refine bind (by decide) (Relocates.accept fun y hy => .of_accepts hy (by decide)) ?_
  rintro _ b y rfl
  refine choose (fun _ => ?_) fun _ => .pure (congrArg (· :: []) hone) (Nat.le_refl _)
  refine bind (by decide) (Relocates.expect_kind (by decide)) fun another another' _ hanother => ?_
  exact bind (by decide) (h.free (.vars htype hanother) rfl) fun more more' _ hmore =>
    .pure (congrArg₂ List.cons hone hmore) (Nat.le_succ _)

/-! ## Functions -/

theorem param_relocates :
    ρ.Relocates d .within low low x
      (fun p p' => p.map ρ.old ρ.tree = p'.map ρ.new ρ.tree') param param := by
  refine bind (by decide) (h.free (.qualifiers rfl) rfl) fun q q' _ hq => ?_
  refine bind (by decide) (typeSpec_relocates h) fun type type' y htype => ?_
  refine next (by decide) (choose (fun hy => ?_) fun _ => ?_) fun _ => rfl
  · refine bind (by decide) (Relocates.take (.of_kind hy (by decide))) fun name name' _ hname => ?_
    refine bind (by decide) (h.free .dims rfl) fun ds ds' _ hds => .pure ?_ (Nat.le_add_right low 2)
    simp only [Param.map, hq, htype, hds, Option.map_some, hname]
  · refine .pure ?_ (Nat.le_succ _)
    simp only [Param.map, hq, htype, Option.map_none, List.map_nil]

theorem params_relocates :
    ρ.Relocates d .within low low x ρ.SameParams Grammar.params Grammar.params := by
  refine next (by decide) ?_ fun _ => rfl
  split
  · exact .pure rfl (Nat.le_refl _)
  · exact .pure rfl (Nat.le_refl _)
  · exact .pure rfl (Nat.le_refl _)
  · refine bind (by decide) (param_relocates h) fun p p' _ hp => ?_
    refine bind (by decide) (Relocates.accept fun y hy => .of_accepts hy (by decide)) ?_
    rintro _ b y rfl
    refine choose (fun _ => ?_) fun _ => .pure (congrArg (· :: []) hp) (Nat.le_refl _)
    exact bind (by decide) (h.free .params rfl) fun ps ps' _ hps =>
      .pure (congrArg₂ List.cons hp hps) (Nat.le_refl _)

/-- The items of a block may come to the end of the symbols, but the brace behind them may not. -/
theorem block_relocates :
    ρ.Relocates d .within low (low + 1) x
      (fun b b' => ρ.SameExtent b.1 b'.1 ∧ ρ.SameItems b.2 b'.2) block block := by
  refine bind (by decide) (Relocates.expect_kind (by decide)) fun opening opening' _ ho => ?_
  refine bind_starved (.inl rfl) (h.free (.items .brace) rfl)
    (fun _ => Starves.bind (Starves.expect (by decide))) fun body body' _ hbody => ?_
  refine bind (by decide) (Relocates.expect_kind (by decide)) fun _ _ _ _ => ?_
  refine bind (by decide) (Relocates.extentFrom (.inl ho.mark) (Nat.succ_pos _)) fun X X' _ hX => ?_
  exact .pure ⟨hX, hbody⟩ (Nat.le_succ _)

theorem function_relocates {first first' : Nat} {q q' : Qualifiers Nat Tree}
    {type type' : TypeSpec Nat Tree} {name name' : Name Nat} (hx : x.kind = .leftParen)
    (hfirst : ρ.Marks low first first') (hq : ρ.SameQualifiers q q')
    (htype : ρ.SameType type type') (hname : ρ.SameName name name') :
    ρ.Relocates d .upto low low x ρ.SameItem (function first q type name)
      (function first' q' type' name') := by
  refine bind (by decide) (Relocates.take (.of_kind hx (by decide))) fun _ _ _ _ => ?_
  refine bind (by decide) (h.free .params rfl) fun ps ps' _ hps => ?_
  refine bind (by decide) Relocates.rightParen fun _ _ y _ => ?_
  have hsignature : Signature.map ρ.old ρ.tree ⟨q, type, name, ps⟩ =
      Signature.map ρ.new ρ.tree' ⟨q', type', name', ps'⟩ := by
    simp only [Signature.map, hq, htype, hname, hps]
  refine next (by decide) (choose (fun _ => ?_) fun _ => ?_) fun _ => rfl
  · refine bind (by decide) (block_relocates h) ?_
    rintro ⟨X, body⟩ ⟨X', body'⟩ z ⟨hX, hbody⟩
    refine bind (by decide) (Relocates.extentFrom (hfirst.mono (Nat.le_add_right low 2))
      (Nat.succ_pos _)) fun Y Y' _ hY => .pure ?_ (Nat.le_add_right low 2)
    simp only [SameItem, Node.map, hX, hY, hsignature, hbody]
  · refine (ended_relocates (hfirst.mono (Nat.le_succ _)) (Nat.succ_pos _) fun X X' hX => ?_).mono
      (Nat.le_succ _) fun _ _ hn => hn
    simp only [SameItem, Node.map, hX, hsignature]

theorem typed_relocates {first first' : Nat} {q q' : Qualifiers Nat Tree}
    (hfirst : ρ.Marks (low + 1) first first') (hq : ρ.SameQualifiers q q') :
    ρ.Relocates d .upto low low x ρ.SameItem (typed first q) (typed first' q') := by
  refine bind (by decide) (typeSpec_relocates h) fun type type' _ htype => ?_
  refine bind (by decide) (Relocates.expect_kind (by decide)) fun name name' y hname => ?_
  have hfirst' := hfirst.mono (Nat.le_succ _)
  refine next (by decide) (choose (fun hy => ?_) fun _ => ?_) fun _ => rfl
  · exact (function_relocates h hy hfirst' hq htype hname).mono (Nat.le_add_right low 2)
      fun _ _ hn => hn
  · refine bind (by decide) (h.free (.vars htype hname) rfl) fun ds ds' _ hds => ?_
    refine (ended_relocates hfirst' (Nat.succ_pos _) fun X X' hX => ?_).mono
      (Nat.le_add_right low 2) fun _ _ hn => hn
    simp only [SameItem, Node.map, Variables.map, hX, hq, htype, hds]

/-! ## Structs and interface blocks -/

theorem member_relocates :
    ρ.Relocates d .upto low low x
      (fun m m' => m.map ρ.old ρ.tree = m'.map ρ.new ρ.tree') member member := by
  refine Relocates.position fun first hfirst => ?_
  refine bind (by decide) (h.free (.qualifiers rfl) rfl) fun q q' _ hq => ?_
  refine bind (by decide) (typeSpec_relocates h) fun type type' _ htype => ?_
  refine bind (by decide) (h.free .declarators rfl) fun ds ds' _ hds => ?_
  refine (ended_relocates (.passed (Nat.lt_succ_self first)) (Nat.succ_pos _)
    fun X X' hX => ?_).mono (Nat.le_succ_of_le hfirst) fun _ _ hm => hm
  simp only [Member.map, hX, hq, htype, hds]

theorem members_relocates :
    ρ.Relocates d .partly low low x ρ.SameMembers Grammar.members Grammar.members := by
  refine next (by decide) ?_ fun _ => rfl
  split
  · exact .pure rfl (Nat.le_refl _)
  · exact .pure rfl (Nat.le_refl _)
  · refine bind_partly (member_relocates h).partly fun m m' _ hm => ?_
    exact bind_partly (h.free .members rfl) fun ms ms' _ hms =>
      .pure (congrArg₂ List.cons hm hms) (Nat.le_refl _)

theorem memberList_relocates :
    ρ.Relocates d .within low (low + 1) x ρ.SameMembers memberList memberList := by
  refine bind (by decide) (Relocates.expect_kind (by decide)) fun _ _ _ _ => ?_
  refine bind_starved (.inl rfl) (h.free .members rfl)
    (fun _ => Starves.bind (Starves.expect (by decide))) fun ms ms' _ hms => ?_
  exact bind (by decide) (Relocates.expect_kind (by decide)) fun _ _ _ _ =>
    .pure hms (Nat.le_succ _)

/-- Instances have to begin on the line of the brace. -/
theorem instances_relocates (hpos : 0 < low) :
    ρ.Relocates d .within low low x ρ.SameDeclarators instances instances :=
  next_late (by decide) hpos
    (choose (fun _ => h.free .declarators rfl) fun _ => .pure rfl (Nat.le_refl _))

theorem struct_relocates {first first' : Nat} {q q' : Qualifiers Nat Tree}
    (hx : x.kind = .struct) (hfirst : ρ.Marks (low + 1) first first')
    (hq : ρ.SameQualifiers q q') :
    ρ.Relocates d .upto low low x ρ.SameItem (Grammar.struct first q)
      (Grammar.struct first' q') := by
  -- What comes behind the name, or behind the keyword.
  have hmore : ∀ {name name' : Option (Name Nat)},
      name.map (Name.map ρ.old) = name'.map (Name.map ρ.new) → ∀ y,
      ρ.Relocates d .upto (low + 1) low y ρ.SameItem
        (do
          let ms ← memberList
          let ds ← instances
          statementEnd
          return Node.struct (← Procedure.extentFrom first) q name ms ds)
        (do
          let ms ← memberList
          let ds ← instances
          statementEnd
          return Node.struct (← Procedure.extentFrom first') q' name' ms ds) := by
    intro name name' hname y
    refine bind (by decide) (memberList_relocates h) fun ms ms' _ hms => ?_
    refine bind (by decide) (instances_relocates h (Nat.succ_pos _)) fun ds ds' _ hds => ?_
    refine (ended_relocates (hfirst.mono (Nat.le_succ _)) (Nat.succ_pos _)
      fun X X' hX => ?_).mono (Nat.le_add_right low 2) fun _ _ hn => hn
    simp only [SameItem, Node.map, hX, hq, hname, hms, hds]
  refine bind (by decide) (Relocates.take (.of_kind hx (by decide))) fun _ _ y _ => ?_
  refine next (by decide) (choose (fun hy => ?_) fun _ => hmore rfl y) fun _ => rfl
  refine bind (by decide) (Relocates.map (by decide) (Relocates.take (.of_kind hy (by decide)))
    fun name name' hname => ?_) fun name name' z hname => (hmore hname z).later (Nat.le_succ _)
  exact congrArg some hname

theorem interface_relocates {first first' : Nat} {q q' : Qualifiers Nat Tree}
    (hx : x.kind = .identifier) (hfirst : ρ.Marks (low + 1) first first')
    (hq : ρ.SameQualifiers q q') :
    ρ.Relocates d .upto low low x ρ.SameItem (interface first q) (interface first' q') := by
  refine bind (by decide) (Relocates.take (.of_kind hx (by decide))) fun name name' _ hname => ?_
  refine bind (by decide) (memberList_relocates h) fun ms ms' _ hms => ?_
  refine bind (by decide) (instances_relocates h (Nat.succ_pos _)) fun ds ds' _ hds => ?_
  refine (ended_relocates (hfirst.mono (Nat.le_succ _)) (Nat.succ_pos _)
    fun X X' hX => ?_).mono (Nat.le_add_right low 2) fun _ _ hn => hn
  simp only [SameItem, Node.map, hX, hq, hname, hms, hds]

/-! ## Declarations that begin with a word of their own -/

theorem names_relocates :
    ρ.Relocates d .within low (low + 1) x ρ.SameNames Grammar.names Grammar.names := by
  refine bind (by decide) (Relocates.expect_kind (by decide)) fun name name' _ hname => ?_
  refine bind (by decide) (Relocates.accept fun y hy => .of_accepts hy (by decide)) ?_
  rintro _ b y rfl
  refine choose (fun _ => ?_) fun _ => .pure (congrArg (· :: []) hname) (Nat.le_refl _)
  exact bind (by decide) (h.free .names rfl) fun ns ns' _ hns =>
    .pure (congrArg₂ List.cons hname hns) (Nat.le_succ _)

/-- The word that does not fit has been passed already. -/
theorem precision_relocates (hx : x.kind = .precision) :
    ρ.Relocates d .upto low low x ρ.SameItem precision precision := by
  refine bind (by decide) (Relocates.take (.of_kind hx (by decide))) fun first first' y hfirst => ?_
  refine next (by decide) ?_ fun _ => rfl
  refine bind (by decide) (Relocates.expect_kind (by decide)) fun word word' _ hword => ?_
  refine choose (fun _ => ?_) fun _ => .reject (.inl hword.mark)
  refine bind (by decide) (typeSpec_relocates h) fun type type' _ htype => ?_
  refine (ended_relocates (.inl hfirst.mark) (Nat.succ_pos _) fun X X' hX => ?_).mono
    (Nat.le_add_right low 3) fun _ _ hn => hn
  simp only [SameItem, Node.map, hX, hword, htype]

/-- What comes behind qualifiers is told apart by the next two symbols. -/
theorem qualified_relocates :
    ρ.Relocates d .upto low low x ρ.SameItem qualified qualified := by
  refine Relocates.position fun first hfirst => ?_
  refine bind (by decide) (h.free (.qualifiers rfl) rfl) fun q q' y hq => ?_
  have hmarks : ρ.Marks (first + 1) first (first + ρ.offset) := .passed (Nat.lt_succ_self first)
  refine next (by decide) ?_ fun _ => rfl
  split
  · next hy => exact (struct_relocates h hy hmarks hq).mono hfirst fun _ _ hn => hn
  · next hy =>
    have hgain : first + 1 ≤ if y.kind = .semicolon then first + 1 else first := by rw [if_pos hy]
    refine (upto (ending_relocates hgain hmarks (Nat.succ_pos _)
      fun X X' hX => ?_)).mono (Nat.le_succ_of_le hfirst) fun _ _ hn => hn
    simp only [SameItem, Node.map, hX, hq, List.map_nil]
  · next hy =>
    have hnames : ρ.Relocates d .upto first low y ρ.SameItem
        (run .names >>= fun ns => statementEnd >>= fun _ =>
          Procedure.extentFrom first >>= fun X => Pure.pure (Node.qualifiers X q ns))
        (run .names >>= fun ns => statementEnd >>= fun _ =>
          Procedure.extentFrom (first + ρ.offset) >>= fun X =>
            Pure.pure (Node.qualifiers X q' ns)) := by
      refine bind (by decide) (h.free .names rfl) fun ns ns' _ hns => ?_
      refine (ended_relocates hmarks (Nat.succ_pos _) fun X X' hX => ?_).mono
        (Nat.le_succ_of_le hfirst) fun _ _ hn => hn
      simp only [SameItem, Node.map, hX, hq, hns]
    refine second (by decide) (hy ▸ Kind.noConfusion) fun z => ?_
    split
    · exact (interface_relocates h hy hmarks hq).mono hfirst fun _ _ hn => hn
    · exact hnames
    · exact hnames
    · exact (typed_relocates h hmarks hq).mono hfirst fun _ _ hn => hn
  · exact .reject_here

end Bodies

end Relocation

end Grammar

end ShaderRepair
